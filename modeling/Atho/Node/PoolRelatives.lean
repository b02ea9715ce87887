import Atho.Library.Descent
import Atho.Node.PoolConsistency

/-! The transactions of the mempool that one depends on, and those that depend on it. -/

namespace Atho.Mempool

open Relation

-- Named here, so that `relativeTxids` carries no proof of its own.
local instance : Std.TransOrd (Bytes 48) := Bytes.instTransOrd

local instance : Std.LawfulEqOrd (Bytes 48) := Bytes.instLawfulEqOrd

/-- Walk a table from a transaction of the pool, and list what was visited in ascending order. -/
def relativeTxids (pool : Mempool) (table : KeyRelation (Bytes 48)) (target : Bytes 48) :
    Option (List (Bytes 48)) :=
  if pool.entries.contains target then
    some (Std.TreeSet.ofList (table.descend (table[target]?.getD ∅).toList.reverse ∅)).toList
  else none

def dependencyTxids (pool : Mempool) (target : Bytes 48) : Option (List (Bytes 48)) :=
  pool.relativeTxids pool.parentsByTxid target

def descendantTxids (pool : Mempool) (target : Bytes 48) : Option (List (Bytes 48)) :=
  pool.relativeTxids pool.childrenByTxid target

/-- One transaction of the pool spends from another one of the pool. -/
def SpendsFrom (pool : Mempool) (child parent : Bytes 48) : Prop :=
  ∃ entry, pool.entries[child]? = some entry ∧ parent ∈ pool.entries ∧
    ∃ input ∈ entry.transaction.inputs, input.previousTxid = parent

variable {pool : Mempool} {target other child parent : Bytes 48}

theorem mem_relativeTxids {table : KeyRelation (Bytes 48)} :
    (∃ txids, pool.relativeTxids table target = some txids ∧ other ∈ txids) ↔
      target ∈ pool.entries ∧ TransGen table.Related target other := by
  rw [relativeTxids]
  split
  · next hmem =>
      rw [Std.TreeMap.contains_iff_mem] at hmem
      simp only [Option.some.injEq, exists_eq_left', Std.TreeSet.mem_toList,
        Std.TreeSet.mem_ofList, List.contains_iff_mem, KeyRelation.mem_descend_related, hmem,
        true_and]
  · next hmissing =>
      rw [Std.TreeMap.contains_iff_mem] at hmissing
      simp [hmissing]

/-! Both tables together. -/

theorem Linked.spendsFrom (hlinked : Linked pool.entries (pool.parentsByTxid, pool.childrenByTxid))
    (hrelated : pool.parentsByTxid.Related child parent) : pool.SpendsFrom child parent := by
  obtain ⟨entry, hentry, hspends⟩ := hlinked.spends child parent hrelated
  have hchild := (hlinked.inverse child parent).mp hrelated
  exact ⟨entry, hentry, hlinked.children_filed parent hchild.mem, hspends⟩

theorem SpendsFrom.left (hpath : TransGen pool.SpendsFrom child parent) :
    child ∈ pool.entries := by
  obtain ⟨next, ⟨entry, hentry, -⟩, -⟩ := TransGen.head'_iff.mp hpath
  exact Std.TreeMap.mem_iff_isSome_getElem?.mpr (by rw [hentry]; rfl)

theorem SpendsFrom.right (hpath : TransGen pool.SpendsFrom child parent) :
    parent ∈ pool.entries := by
  obtain ⟨last, -, ⟨-, -, hparent, -⟩⟩ := TransGen.tail'_iff.mp hpath
  exact hparent

theorem Linked.transGen (hlinked : Linked pool.entries (pool.parentsByTxid, pool.childrenByTxid))
    (hpath : TransGen pool.parentsByTxid.Related child parent) :
    TransGen pool.SpendsFrom child parent :=
  TransGen.mono (fun _ _ hrelated => hlinked.spendsFrom hrelated) _ _ hpath

theorem Linked.transGen_children
    (hlinked : Linked pool.entries (pool.parentsByTxid, pool.childrenByTxid)) :
    TransGen pool.childrenByTxid.Related parent child ↔
      TransGen pool.parentsByTxid.Related child parent := by
  have hswap : pool.childrenByTxid.Related = Function.swap pool.parentsByTxid.Related := by
    funext parent child
    exact propext (hlinked.inverse child parent).symm
  rw [hswap, transGen_swap]

/-! Rebuilt tables miss nothing. -/

theorem foldl_linkRelations {rest : List (Bytes 48 × MempoolEntry)}
    (hnodup : (rest.map Prod.fst).Nodup) (hnew : ∀ filed ∈ rest, filed.1 ∉ pool.parentsByTxid) :
    (rest.foldl (fun pool filed => pool.linkRelations filed.1 filed.2) pool).entries =
        pool.entries ∧
      ((rest.foldl (fun pool filed => pool.linkRelations filed.1 filed.2)
          pool).parentsByTxid.Related child parent ↔
        (∃ filed ∈ rest, child = filed.1 ∧ parent ∈ pool.parentsInPool filed.2) ∨
          pool.parentsByTxid.Related child parent) := by
  induction rest generalizing pool with
  | nil => simp
  | cons filed rest ih =>
      obtain ⟨hfresh, hnew⟩ := List.forall_mem_cons.mp hnew
      obtain ⟨hother, hnodup⟩ := List.nodup_cons.mp hnodup
      obtain ⟨hentries, hrelated⟩ := @ih (pool.linkRelations filed.1 filed.2) hnodup (by
        intro later hlater hmem
        rcases KeyRelation.mem_link hmem with heq | hmem
        · exact hother (heq ▸ List.mem_map_of_mem hlater)
        · exact hnew later hlater hmem)
      refine ⟨hentries, hrelated.trans ?_⟩
      have hlink : (pool.linkRelations filed.1 filed.2).parentsByTxid.Related child parent ↔
          (child = filed.1 ∧ parent ∈ pool.parentsInPool filed.2) ∨
            pool.parentsByTxid.Related child parent := KeyRelation.related_link hfresh
      rw [hlink, List.exists_mem_cons_iff, ← or_assoc]
      exact or_congr_left or_comm

theorem rebuild_related :
    pool.rebuildDerivedStateFromEntries.parentsByTxid.Related child parent ↔
      pool.rebuildDerivedStateFromEntries.SpendsFrom child parent := by
  set counted := pool.resetDerivedState.recounted pool.entriesInOrder with hcounted
  obtain ⟨-, hparents, -, -⟩ := pool.resetDerivedState.recounted_frame pool.entriesInOrder
  have hempty : counted.parentsByTxid = ∅ := hparents
  obtain ⟨hentries, hrelated⟩ := @foldl_linkRelations counted child parent counted.entries.toList
    (Std.TreeMap.map_fst_toList_eq_keys ▸ Std.TreeMap.nodup_keys)
    (fun _ _ hmem => Std.TreeMap.not_mem_emptyc (hempty ▸ hmem))
  rw [SpendsFrom]
  change pool.rebuildDerivedStateFromEntries.entries = _ at hentries
  refine hrelated.trans ?_
  rw [hempty, or_iff_left KeyRelation.not_related_empty, hentries]
  simp only [Prod.exists, Std.TreeMap.mem_toList_iff_getElem?_eq_some, parentsInPool,
    List.mem_filter, List.mem_map, Std.TreeMap.contains_iff_mem]
  constructor
  · rintro ⟨_, entry, hentry, rfl, hspends, hparent⟩
    exact ⟨entry, hentry, hparent, hspends⟩
  · rintro ⟨entry, hentry, hparent, hspends⟩
    exact ⟨child, entry, hentry, rfl, hspends, hparent⟩

/-- After any sequence of calls, what is listed as a dependency is reached by spending from one
transaction of the pool to the next, and the two listings are each other's inverse. Once the pool
is revalidated, everything that is reached is listed. -/
theorem run_relatives (crypto : Crypto) (limits : MempoolLimits) (calls : List Call)
    (target other : Bytes 48) :
    ((∃ txids, ((withLimits limits).run crypto calls).dependencyTxids target = some txids ∧
        other ∈ txids) →
      TransGen ((withLimits limits).run crypto calls).SpendsFrom target other) ∧
    ((∃ txids, ((withLimits limits).run crypto calls).dependencyTxids target = some txids ∧
        other ∈ txids) ↔
      ∃ txids, ((withLimits limits).run crypto calls).descendantTxids other = some txids ∧
        target ∈ txids) ∧
    ∀ network spendHeight lookup,
      (∃ txids, (((withLimits limits).run crypto calls).revalidate crypto network spendHeight
          lookup).dependencyTxids target = some txids ∧ other ∈ txids) ↔
        TransGen (((withLimits limits).run crypto calls).revalidate crypto network spendHeight
          lookup).SpendsFrom target other := by
  have hconsistent : ((withLimits limits).run crypto calls).Consistent crypto :=
    (Consistent.withLimits limits).run calls
  have hlinked := hconsistent.toIndexed.linked
  simp only [dependencyTxids, descendantTxids, mem_relativeTxids]
  refine ⟨fun hlisted => hlinked.transGen hlisted.2, ?_, ?_⟩
  · rw [hlinked.transGen_children]
    refine and_congr_left fun hpath => ?_
    have hspends := hlinked.transGen hpath
    exact iff_of_true (SpendsFrom.left hspends) (SpendsFrom.right hspends)
  · intro network spendHeight lookup
    generalize (withLimits limits).run crypto calls = pool
    have hexact : (pool.revalidate crypto network spendHeight lookup).parentsByTxid.Related =
        (pool.revalidate crypto network spendHeight lookup).SpendsFrom := by
      funext child parent
      exact propext rebuild_related
    rw [hexact, and_iff_right_iff_imp]
    exact SpendsFrom.left

end Atho.Mempool
