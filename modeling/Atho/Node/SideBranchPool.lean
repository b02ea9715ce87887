import Atho.Library.BestOf
import Atho.Library.Descent
import Atho.Library.TreeLookup
import Atho.Core.Genesis
import Atho.Core.Streams
import Atho.Node.Mempool

/-! The pool of blocks off the canonical chain: its index of children, its total size
and its limit, over any sequence of calls. -/

namespace Atho

open Relation

def maxSideBranchBlocks : Nat := 4096

structure SideBranchBlock where
  block : Block
  peers : Std.TreeSet String
  firstSeenOrder : UInt64
  lastSeenOrder : UInt64

structure SideBranchPool where
  blocks : Std.TreeMap (Bytes 48) SideBranchBlock
  childrenByParent : KeyRelation (Bytes 48)
  totalSizeBytes : Nat
  nextSeenOrder : UInt64

namespace SideBranchPool

def default : SideBranchPool :=
  ⟨∅, ∅, 0, 0⟩

def remove (pool : SideBranchPool) (blockHash : Bytes 48) : Option Block × SideBranchPool :=
  match pool.blocks[blockHash]? with
  | none => (none, pool)
  | some entry =>
      (some entry.block,
        { pool with
          blocks := pool.blocks.erase blockHash
          totalSizeBytes := pool.totalSizeBytes - entry.block.fullSizeBytes
          childrenByParent :=
            pool.childrenByParent.unrelate entry.block.header.previousBlockHash blockHash })

/-- The hash makes all places different. -/
def evictionOrder : Bytes 48 × SideBranchBlock → Bytes 48 × SideBranchBlock → Ordering :=
  compareLex (compareOn fun entry => entry.2.block.header.height)
    (compareLex (compareOn fun entry => entry.2.lastSeenOrder)
      (compareLex (compareOn fun entry => entry.2.firstSeenOrder) (compareOn Prod.fst)))

def isLeaf (pool : SideBranchPool) (hash : Bytes 48) : Bool :=
  match pool.childrenByParent[hash]? with
  | none => true
  | some children => children.isEmpty

/-- The highest of the blocks without children, or of all when each has one. -/
def evictionCandidate (pool : SideBranchPool) : Option (Bytes 48) :=
  ((BestOf.bestOf evictionOrder
      (pool.blocks.toList.filter fun entry => pool.isLeaf entry.1)).map Prod.fst).or
    ((BestOf.bestOf evictionOrder pool.blocks.toList).map Prod.fst)

theorem mem_of_evictionCandidate {pool : SideBranchPool} {hash : Bytes 48}
    (hcandidate : pool.evictionCandidate = some hash) :
    ∃ entry, pool.blocks[hash]? = some entry := by
  have hfound : ∃ entry, (hash, entry) ∈ pool.blocks.toList := by
    rw [evictionCandidate, Option.or_eq_some_iff] at hcandidate
    rcases hcandidate with hleaf | ⟨-, hany⟩
    · obtain ⟨⟨found, entry⟩, hbest, rfl⟩ := Option.map_eq_some_iff.mp hleaf
      exact ⟨entry, List.mem_of_mem_filter (BestOf.mem_of_bestOf hbest)⟩
    · obtain ⟨⟨found, entry⟩, hbest, rfl⟩ := Option.map_eq_some_iff.mp hany
      exact ⟨entry, BestOf.mem_of_bestOf hbest⟩
  obtain ⟨entry, hmem⟩ := hfound
  exact ⟨entry, Std.TreeMap.mem_toList_iff_getElem?_eq_some.mp hmem⟩

theorem size_remove_lt {pool : SideBranchPool} {hash : Bytes 48} {entry : SideBranchBlock}
    (hentry : pool.blocks[hash]? = some entry) :
    (pool.remove hash).2.blocks.size < pool.blocks.size := by
  have hlength := (Std.TreeMap.toList_erase_perm hentry).length_eq
  rw [List.length_cons, Std.TreeMap.length_toList, Std.TreeMap.length_toList] at hlength
  rw [remove, hentry]
  exact hlength ▸ Nat.lt_succ_self _

def enforceLimit (pool : SideBranchPool) : SideBranchPool :=
  if maxSideBranchBlocks < pool.blocks.size then
    match _h : pool.evictionCandidate with
    | none => pool
    | some evictHash => enforceLimit (pool.remove evictHash).2
  else pool
termination_by pool.blocks.size
decreasing_by
  obtain ⟨entry, hentry⟩ := mem_of_evictionCandidate _h
  exact size_remove_lt hentry

def insert (crypto : Crypto) (pool : SideBranchPool) (peer : String) (block : Block) :
    SideBranchPool :=
  let blockHash := block.header.blockHash crypto
  let seenOrder := pool.nextSeenOrder.saturatingAdd 1
  match pool.blocks[blockHash]? with
  | some entry =>
      { pool with
        blocks := pool.blocks.insert blockHash
          { entry with peers := entry.peers.insert peer, lastSeenOrder := seenOrder }
        nextSeenOrder := seenOrder }
  | none =>
      enforceLimit
        { blocks := pool.blocks.insert blockHash ⟨block, .ofList [peer], seenOrder, seenOrder⟩
          childrenByParent :=
            pool.childrenByParent.relate block.header.previousBlockHash blockHash
          totalSizeBytes := min (pool.totalSizeBytes + block.fullSizeBytes) usizeMax
          nextSeenOrder := seenOrder }

/-- Remove block after block and return those that there were. -/
def removeAll (pool : SideBranchPool) : List (Bytes 48) → List Block × SideBranchPool
  | [] => ([], pool)
  | hash :: rest =>
      let (removed, pool) := pool.remove hash
      let (blocks, pool) := pool.removeAll rest
      (removed.toList ++ blocks, pool)

/-- The node's view of the canonical chain is passed in. -/
def removeCanonicalBlocks (pool : SideBranchPool) (isCanonicalBlock : Bytes 48 → Bool) :
    SideBranchPool :=
  (pool.removeAll (pool.blocks.keys.filter isCanonicalBlock)).2

def removeDescendantsOf (pool : SideBranchPool) (parentHash : Bytes 48) :
    List Block × SideBranchPool :=
  pool.removeAll (pool.childrenByParent.descend
    (pool.childrenByParent[parentHash]?.getD ∅).toList.reverse ∅)

/-! What every call keeps. -/

/-- A pooled block whose parent is the given one. -/
def IsChild (pool : SideBranchPool) (parent hash : Bytes 48) : Prop :=
  ∃ entry, pool.blocks[hash]? = some entry ∧ entry.block.header.previousBlockHash = parent

def pooledSizeBytes (pool : SideBranchPool) : Nat :=
  (pool.blocks.toList.map fun entry => entry.2.block.fullSizeBytes).sum

/-- The index of children is that of the pooled blocks. -/
structure Indexed (pool : SideBranchPool) : Prop where
  children : ∀ parent hash, pool.childrenByParent.Related parent hash ↔ pool.IsChild parent hash
  proper : pool.childrenByParent.Proper

/-- No block is so large that the total of a full pool could overflow. -/
def FitsTotal (block : Block) : Prop :=
  block.fullSizeBytes * (maxSideBranchBlocks + 1) ≤ usizeMax

structure Accounted (pool : SideBranchPool) : Prop where
  total : pool.totalSizeBytes = pool.pooledSizeBytes
  bounded : ∀ (hash : Bytes 48) entry, pool.blocks[hash]? = some entry → FitsTotal entry.block

section Remove

variable {pool : SideBranchPool} {hash : Bytes 48}

theorem getElem?_remove (pool : SideBranchPool) (hash other : Bytes 48) :
    (pool.remove hash).2.blocks[other]? = if other = hash then none else pool.blocks[other]? := by
  rw [remove]
  split
  · next hnone =>
      split
      · next heq => rw [heq, hnone]
      · rfl
  · simp only [Std.TreeMap.getElem?_erase, Std.LawfulEqOrd.compare_eq_iff_eq, @eq_comm _ hash]

theorem Indexed.remove (hindexed : pool.Indexed) : (pool.remove hash).2.Indexed := by
  rw [SideBranchPool.remove]
  cases hentry : pool.blocks[hash]? with
  | none => exact hindexed
  | some entry =>
      refine ⟨fun parent other => ?_, hindexed.proper.unrelate⟩
      rw [KeyRelation.related_unrelate, hindexed.children parent other]
      simp only [IsChild, Std.TreeMap.getElem?_erase_eq_some]
      constructor
      · rintro ⟨hother, found, hfound, rfl⟩
        refine ⟨found, ⟨?_, hfound⟩, rfl⟩
        rintro rfl
        rw [hentry] at hfound
        cases hfound
        exact hother ⟨rfl, rfl⟩
      · rintro ⟨found, ⟨hne, hfound⟩, rfl⟩
        exact ⟨fun heq => hne heq.2, found, hfound, rfl⟩

theorem Accounted.remove (haccounted : pool.Accounted) : (pool.remove hash).2.Accounted := by
  refine ⟨?_, fun other found hfound => ?_⟩
  · have htotal := haccounted.total
    rw [SideBranchPool.remove]
    cases hentry : pool.blocks[hash]? with
    | none => exact htotal
    | some entry =>
        have hsum := ((Std.TreeMap.toList_erase_perm hentry).map
          fun entry => entry.2.block.fullSizeBytes).sum_eq
        simp only [List.map_cons, List.sum_cons] at hsum
        rw [pooledSizeBytes, hsum] at htotal
        simp only [pooledSizeBytes, htotal]
        omega
  · rw [getElem?_remove] at hfound
    split at hfound
    · cases hfound
    · exact haccounted.bounded other found hfound

theorem size_remove_le : (pool.remove hash).2.blocks.size ≤ pool.blocks.size := by
  cases hentry : pool.blocks[hash]? with
  | none => rw [remove, hentry]
  | some entry => exact (size_remove_lt hentry).le

end Remove

/-- Removals one after the other. -/
abbrev Removals : SideBranchPool → SideBranchPool → Prop :=
  ReflTransGen fun before after => ∃ hash, after = (before.remove hash).2

namespace Removals

variable {before after : SideBranchPool}

theorem indexed (hremovals : Removals before after) (hindexed : before.Indexed) :
    after.Indexed := by
  induction hremovals with
  | refl => exact hindexed
  | tail _ hremove ih =>
      obtain ⟨hash, rfl⟩ := hremove
      exact ih.remove

theorem size_le (hremovals : Removals before after) : after.blocks.size ≤ before.blocks.size := by
  induction hremovals with
  | refl => exact le_rfl
  | tail _ hremove ih =>
      obtain ⟨hash, rfl⟩ := hremove
      exact size_remove_le.trans ih

theorem accounted (hremovals : Removals before after) (haccounted : before.Accounted) :
    after.Accounted := by
  induction hremovals with
  | refl => exact haccounted
  | tail _ hremove ih =>
      obtain ⟨hash, rfl⟩ := hremove
      exact ih.remove

end Removals

theorem removals_enforceLimit (pool : SideBranchPool) : Removals pool pool.enforceLimit := by
  fun_induction enforceLimit pool with
  | case1 => exact .refl
  | case2 pool _ hash hcandidate ih => exact .head ⟨hash, rfl⟩ ih
  | case3 => exact .refl

theorem size_enforceLimit_le (pool : SideBranchPool) :
    pool.enforceLimit.blocks.size ≤ maxSideBranchBlocks := by
  fun_induction enforceLimit pool with
  | case1 pool hfull hcandidate =>
      have hnonempty : pool.blocks.toList ≠ [] := by
        intro hnil
        rw [← Std.TreeMap.length_toList, hnil] at hfull
        exact Nat.not_lt_zero _ hfull
      obtain ⟨best, hbest⟩ := BestOf.exists_bestOf evictionOrder hnonempty
      rw [evictionCandidate, hbest, Option.map_some, Option.or_eq_none_iff] at hcandidate
      cases hcandidate.2
  | case2 pool _ hash hcandidate ih => exact ih
  | case3 pool hroom => exact Nat.le_of_not_lt hroom

theorem removals_removeAll (pool : SideBranchPool) (hashes : List (Bytes 48)) :
    Removals pool (pool.removeAll hashes).2 := by
  induction hashes generalizing pool with
  | nil => exact .refl
  | cons hash rest ih => exact .head ⟨hash, rfl⟩ (ih _)

theorem getElem?_removeAll (pool : SideBranchPool) (hashes : List (Bytes 48)) (other : Bytes 48) :
    (pool.removeAll hashes).2.blocks[other]? =
      if other ∈ hashes then none else pool.blocks[other]? := by
  induction hashes generalizing pool with
  | nil => simp [removeAll]
  | cons hash rest ih =>
      simp only [removeAll, ih, getElem?_remove, List.mem_cons]
      by_cases hrest : other ∈ rest
      · simp [hrest]
      · simp [hrest]

theorem mem_removeAll {pool : SideBranchPool} {hashes : List (Bytes 48)} {block : Block} :
    block ∈ (pool.removeAll hashes).1 ↔
      ∃ hash ∈ hashes, ∃ entry, pool.blocks[hash]? = some entry ∧ entry.block = block := by
  induction hashes generalizing pool with
  | nil => simp [removeAll]
  | cons hash rest ih =>
      have hremoved : block ∈ (pool.remove hash).1.toList ↔
          ∃ entry, pool.blocks[hash]? = some entry ∧ entry.block = block := by
        rw [remove]
        split
        · next hnone => simp [hnone]
        · next entry hentry => simp [hentry, eq_comm]
      simp only [removeAll, List.mem_append, hremoved, ih, getElem?_remove,
        List.exists_mem_cons_iff]
      constructor
      · rintro (hfirst | ⟨other, hmem, entry, hentry, hblock⟩)
        · exact .inl hfirst
        · split at hentry
          · cases hentry
          · exact .inr ⟨other, hmem, entry, hentry, hblock⟩
      · rintro (hfirst | ⟨other, hmem, entry, hentry, hblock⟩)
        · exact .inl hfirst
        · by_cases heq : other = hash
          · exact .inl ⟨entry, heq ▸ hentry, hblock⟩
          · exact .inr ⟨other, hmem, entry, by rwa [if_neg heq], hblock⟩

section Insert

variable {crypto : Crypto} {pool : SideBranchPool} {peer : String} {block : Block}

theorem Indexed.insert (hindexed : pool.Indexed) : (pool.insert crypto peer block).Indexed := by
  simp only [SideBranchPool.insert]
  split
  · next entry hentry =>
      refine ⟨fun parent hash => ?_, hindexed.proper⟩
      rw [hindexed.children parent hash]
      simp only [IsChild, Std.TreeMap.getElem?_insert, Std.LawfulEqOrd.compare_eq_iff_eq]
      split
      · next heq =>
          subst heq
          simp [hentry]
      · rfl
  · next hnone =>
      refine (removals_enforceLimit _).indexed ⟨fun parent hash => ?_, hindexed.proper.relate⟩
      rw [KeyRelation.related_relate, hindexed.children parent hash]
      simp only [IsChild, Std.TreeMap.getElem?_insert_eq_some hnone]
      constructor
      · rintro (⟨rfl, rfl⟩ | ⟨entry, hentry, hparent⟩)
        · exact ⟨_, .inl ⟨rfl, rfl⟩, rfl⟩
        · exact ⟨entry, .inr hentry, hparent⟩
      · rintro ⟨entry, ⟨rfl, rfl⟩ | hentry, hparent⟩
        · exact .inl ⟨hparent.symm, rfl⟩
        · exact .inr ⟨entry, hentry, hparent⟩

theorem pooledSizeBytes_le (haccounted : pool.Accounted) :
    pool.pooledSizeBytes * (maxSideBranchBlocks + 1) ≤ pool.blocks.size * usizeMax := by
  rw [pooledSizeBytes, ← List.sum_map_mul_right, ← Std.TreeMap.length_toList]
  refine (List.sum_le_card_nsmul _ usizeMax fun size hsize => ?_).trans_eq (by simp)
  obtain ⟨entry, hentry, rfl⟩ := List.mem_map.mp hsize
  exact haccounted.bounded entry.1 entry.2 (Std.TreeMap.mem_toList_iff_getElem?_eq_some.mp hentry)

theorem total_add_le (haccounted : pool.Accounted) (hfits : FitsTotal block)
    (hlimit : pool.blocks.size ≤ maxSideBranchBlocks) :
    pool.totalSizeBytes + block.fullSizeBytes ≤ usizeMax := by
  refine Nat.le_of_mul_le_mul_right ?_ (Nat.succ_pos maxSideBranchBlocks)
  have hpooled := (pooledSizeBytes_le haccounted).trans (Nat.mul_le_mul_right usizeMax hlimit)
  rw [FitsTotal] at hfits
  rw [haccounted.total, Nat.add_mul, Nat.mul_comm usizeMax, Nat.succ_mul]
  exact Nat.add_le_add hpooled hfits

theorem Accounted.insert (haccounted : pool.Accounted) (hfits : FitsTotal block)
    (hlimit : pool.blocks.size ≤ maxSideBranchBlocks) :
    (pool.insert crypto peer block).Accounted := by
  have htotal := haccounted.total
  simp only [SideBranchPool.insert]
  split
  · next entry hentry =>
      refine ⟨?_, fun hash found hfound => ?_⟩
      · have hbefore := ((Std.TreeMap.toList_erase_perm hentry).map
          fun entry => entry.2.block.fullSizeBytes).sum_eq
        rw [pooledSizeBytes, hbefore] at htotal
        rw [pooledSizeBytes, (Std.TreeMap.toList_insert_perm_erase.map _).sum_eq]
        exact htotal
      · simp only [Std.TreeMap.getElem?_insert, Std.LawfulEqOrd.compare_eq_iff_eq] at hfound
        split at hfound
        · cases hfound
          exact haccounted.bounded _ entry hentry
        · exact haccounted.bounded hash found hfound
  · next hnone =>
      refine (removals_enforceLimit _).accounted ⟨?_, fun hash entry hentry => ?_⟩
      · rw [pooledSizeBytes, ((Std.TreeMap.toList_insert_perm_of_fresh hnone).map _).sum_eq]
        simp only [List.map_cons, List.sum_cons]
        rw [Nat.min_eq_left (total_add_le haccounted hfits hlimit), htotal, Nat.add_comm]
        rfl
      · rcases (Std.TreeMap.getElem?_insert_eq_some hnone).mp hentry with ⟨-, rfl⟩ | hentry
        · exact hfits
        · exact haccounted.bounded hash entry hentry

theorem size_insert_le (hlimit : pool.blocks.size ≤ maxSideBranchBlocks) :
    (pool.insert crypto peer block).blocks.size ≤ maxSideBranchBlocks := by
  simp only [SideBranchPool.insert]
  split
  · next entry hentry =>
      have hmem : pool.blocks.contains (block.header.blockHash crypto) = true := by
        rw [Std.TreeMap.contains_eq_isSome_getElem?, hentry]
        rfl
      rw [Std.TreeMap.size_insert, if_pos hmem]
      exact hlimit
  · exact size_enforceLimit_le _

end Insert

/-! Runs of calls. -/

inductive Call where
  | insert (peer : String) (block : Block)
  | remove (blockHash : Bytes 48)
  | removeDescendantsOf (parentHash : Bytes 48)
  | removeCanonicalBlocks (isCanonicalBlock : Bytes 48 → Bool)

def call (crypto : Crypto) (pool : SideBranchPool) : Call → SideBranchPool
  | .insert peer block => pool.insert crypto peer block
  | .remove blockHash => (pool.remove blockHash).2
  | .removeDescendantsOf parentHash => (pool.removeDescendantsOf parentHash).2
  | .removeCanonicalBlocks isCanonicalBlock => pool.removeCanonicalBlocks isCanonicalBlock

def run (crypto : Crypto) (pool : SideBranchPool) (calls : List Call) : SideBranchPool :=
  calls.foldl (call crypto) pool

def Call.Fits : Call → Prop
  | .insert _ block => FitsTotal block
  | .remove _ | .removeDescendantsOf _ | .removeCanonicalBlocks _ => True

theorem call_cases (crypto : Crypto) (pool : SideBranchPool) (call : Call) :
    (∃ peer block, call = .insert peer block) ∨ Removals pool (pool.call crypto call) := by
  cases call with
  | insert peer block => exact .inl ⟨peer, block, rfl⟩
  | remove blockHash => exact .inr (.single ⟨blockHash, rfl⟩)
  | removeDescendantsOf parentHash => exact .inr (removals_removeAll _ _)
  | removeCanonicalBlocks isCanonicalBlock => exact .inr (removals_removeAll _ _)

section Run

variable {crypto : Crypto} {pool : SideBranchPool} {made : Call} {calls : List Call}

theorem Indexed.call (hindexed : pool.Indexed) : (pool.call crypto made).Indexed := by
  rcases call_cases crypto pool made with ⟨peer, block, rfl⟩ | hremovals
  · exact hindexed.insert
  · exact hremovals.indexed hindexed

theorem size_call_le (hlimit : pool.blocks.size ≤ maxSideBranchBlocks) :
    (pool.call crypto made).blocks.size ≤ maxSideBranchBlocks := by
  rcases call_cases crypto pool made with ⟨peer, block, rfl⟩ | hremovals
  · exact size_insert_le hlimit
  · exact hremovals.size_le.trans hlimit

theorem Accounted.call (haccounted : pool.Accounted) (hfits : made.Fits)
    (hlimit : pool.blocks.size ≤ maxSideBranchBlocks) : (pool.call crypto made).Accounted := by
  rcases call_cases crypto pool made with ⟨peer, block, rfl⟩ | hremovals
  · exact haccounted.insert hfits hlimit
  · exact hremovals.accounted haccounted

theorem Indexed.run (hindexed : pool.Indexed) : (pool.run crypto calls).Indexed := by
  induction calls generalizing pool with
  | nil => exact hindexed
  | cons call calls ih => exact ih hindexed.call

theorem size_run_le (hlimit : pool.blocks.size ≤ maxSideBranchBlocks) :
    (pool.run crypto calls).blocks.size ≤ maxSideBranchBlocks := by
  induction calls generalizing pool with
  | nil => exact hlimit
  | cons call calls ih => exact ih (size_call_le hlimit)

theorem Accounted.run (haccounted : pool.Accounted) (hfits : ∀ call ∈ calls, call.Fits)
    (hlimit : pool.blocks.size ≤ maxSideBranchBlocks) : (pool.run crypto calls).Accounted := by
  induction calls generalizing pool with
  | nil => exact haccounted
  | cons call calls ih =>
      rw [List.forall_mem_cons] at hfits
      exact ih (haccounted.call hfits.1 hlimit) hfits.2 (size_call_le hlimit)

end Run

theorem indexed_default : default.Indexed := by
  refine ⟨fun parent hash => iff_of_false KeyRelation.not_related_empty ?_, ?_⟩
  · rintro ⟨entry, hentry, -⟩
    simp [default] at hentry
  · intro key items hitems
    simp [default] at hitems

theorem accounted_default : default.Accounted := by
  refine ⟨rfl, fun hash entry hentry => ?_⟩
  simp [default] at hentry

theorem Indexed.removeDescendantsOf {pool : SideBranchPool} (hindexed : pool.Indexed)
    (parentHash : Bytes 48) :
    (∀ hash, TransGen pool.IsChild parentHash hash →
        (pool.removeDescendantsOf parentHash).2.blocks[hash]? = none) ∧
      (∀ hash, ¬ TransGen pool.IsChild parentHash hash →
        (pool.removeDescendantsOf parentHash).2.blocks[hash]? = pool.blocks[hash]?) ∧
      ∀ block, block ∈ (pool.removeDescendantsOf parentHash).1 ↔
        ∃ hash entry, TransGen pool.IsChild parentHash hash ∧
          pool.blocks[hash]? = some entry ∧ entry.block = block := by
  have hlinks : pool.childrenByParent.Related = pool.IsChild :=
    funext₂ fun parent hash => propext (hindexed.children parent hash)
  have hreached : ∀ hash, hash ∈ pool.childrenByParent.descend
      (pool.childrenByParent[parentHash]?.getD ∅).toList.reverse ∅ ↔
        TransGen pool.IsChild parentHash hash := fun hash => by
    rw [KeyRelation.mem_descend_related, hlinks]
  refine ⟨fun hash hbelow => ?_, fun hash hbelow => ?_, fun block => ?_⟩
  · rw [SideBranchPool.removeDescendantsOf, getElem?_removeAll, if_pos ((hreached hash).mpr hbelow)]
  · rw [SideBranchPool.removeDescendantsOf, getElem?_removeAll,
      if_neg (mt (hreached hash).mp hbelow)]
  · rw [SideBranchPool.removeDescendantsOf, mem_removeAll]
    constructor
    · rintro ⟨hash, hmem, entry, hentry, hblock⟩
      exact ⟨hash, entry, (hreached hash).mp hmem, hentry, hblock⟩
    · rintro ⟨hash, entry, hbelow, hentry, hblock⟩
      exact ⟨hash, (hreached hash).mpr hbelow, entry, hentry, hblock⟩

/-- After any calls the children filed under a hash are the pooled blocks whose parent
it is, no hash is filed with none, the total is the sum of the sizes unless blocks are
so large that it saturates, the limit holds, and removing the descendants of a hash
removes what child links lead to. -/
theorem side_branch_pool_consistent (crypto : Crypto) (calls : List Call) :
    let pool := default.run crypto calls
    (∀ parent hash, (∃ children, pool.childrenByParent[parent]? = some children ∧
        hash ∈ children) ↔ pool.IsChild parent hash) ∧
      (∀ (parent : Bytes 48) children, pool.childrenByParent[parent]? = some children →
        children.isEmpty = false) ∧
      ((∀ call ∈ calls, call.Fits) → pool.totalSizeBytes = pool.pooledSizeBytes) ∧
      pool.blocks.size ≤ maxSideBranchBlocks ∧
      ∀ parentHash,
        (∀ hash, TransGen pool.IsChild parentHash hash →
          (pool.removeDescendantsOf parentHash).2.blocks[hash]? = none) ∧
        (∀ hash, ¬ TransGen pool.IsChild parentHash hash →
          (pool.removeDescendantsOf parentHash).2.blocks[hash]? = pool.blocks[hash]?) ∧
        ∀ block, block ∈ (pool.removeDescendantsOf parentHash).1 ↔
          ∃ hash entry, TransGen pool.IsChild parentHash hash ∧
            pool.blocks[hash]? = some entry ∧ entry.block = block := by
  have hindexed : (default.run crypto calls).Indexed := indexed_default.run
  refine ⟨hindexed.children, hindexed.proper, fun hfits => ?_, size_run_le (Nat.zero_le _),
    hindexed.removeDescendantsOf⟩
  exact (accounted_default.run hfits (Nat.zero_le _)).total

example : FitsTotal (genesisBlock .hashing .regnet) := by
  unfold FitsTotal
  decide

end SideBranchPool

end Atho
