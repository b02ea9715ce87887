import Atho.Node.Mempool
import Atho.Wallet.Affordable

/-! The derived structures of the mempool agree with its entries after any sequence of calls. -/

namespace Atho

/-! What validation of an entry establishes. -/

theorem nodup_of_prepared {crypto : Crypto} {tx : Transaction} {feeAtoms : UInt64}
    {network : Network} {height : UInt64} {schedule : List ScheduledActivation}
    {prepared : PreparedTransactionValidation}
    (hprepared : prepareTransactionValidation crypto tx feeAtoms network height schedule =
      .ok prepared) : (tx.inputs.map TxInput.key).Nodup := by
  simp only [prepareTransactionValidation, bind_eq_ok, rejectWhen_eq_ok] at hprepared
  obtain ⟨-, -, -, -, -, -, -, -, -, -, -, -, -, hnodup, -⟩ := hprepared
  simpa using hnodup

theorem nodup_of_validated {crypto : Crypto} {tx : Transaction} {feeAtoms fee : UInt64}
    {network : Network} {spendHeight : UInt64} {lookup : UtxoKey → Option UtxoEntry}
    (hvalid : validateTransactionWithContextForMempool crypto tx feeAtoms network spendHeight
      lookup = .ok fee) : (tx.inputs.map TxInput.key).Nodup := by
  simp only [validateTransactionWithContextForMempool, validateTransactionWithContext,
    validateTransactionWithContextAndSchedule, bind_eq_ok] at hvalid
  obtain ⟨-, -, prepared, hprepared, -⟩ := hvalid
  exact nodup_of_prepared hprepared

namespace Mempool

section

variable {crypto : Crypto} {pool : Mempool} {entry : MempoolEntry} {network : Network}
  {spendHeight : UInt64} {lookup : UtxoKey → Option UtxoEntry}

theorem validateEntry_eq_ok {fee : UInt64} :
    pool.validateEntry crypto entry network spendHeight lookup = .ok fee ↔
      validateTransactionWithContextForMempool crypto entry.transaction entry.feeAtoms network
        spendHeight lookup = .ok fee ∧ ∀ key ∈ entry.inputKeys, key ∉ pool.spentInputs := by
  simp only [validateEntry, bind_eq_ok, rejectWhen_eq_ok, pure_eq_ok, List.any_eq_false,
    Std.TreeSet.contains_iff_mem]
  constructor
  · rintro ⟨_, hvalid, -, hfree, rfl⟩
    exact ⟨hvalid, hfree⟩
  · rintro ⟨hvalid, hfree⟩
    exact ⟨fee, hvalid, (), hfree, rfl⟩

theorem reserveKeys_of_free {spent : Std.TreeSet UtxoKey} {inserted keys : List UtxoKey}
    (hnodup : keys.Nodup) (hfree : ∀ key ∈ keys, key ∉ spent) :
    reserveKeys spent inserted keys = (Except.ok (), keys.foldl Std.TreeSet.insert spent) := by
  induction keys generalizing spent inserted with
  | nil => rfl
  | cons key keys ih =>
      obtain ⟨hkey, hnodup⟩ := List.nodup_cons.mp hnodup
      obtain ⟨hfirst, hfree⟩ := List.forall_mem_cons.mp hfree
      rw [reserveKeys, if_neg (by rwa [Std.TreeSet.contains_iff_mem]), List.foldl_cons]
      refine ih hnodup fun other hother => ?_
      rw [Std.TreeSet.mem_insert, Std.LawfulEqOrd.compare_eq_iff_eq]
      rintro (rfl | hspent)
      · exact hkey hother
      · exact hfree other hother hspent

theorem reserveInputs_of_validated {fee : UInt64}
    (hvalid : pool.validateEntry crypto entry network spendHeight lookup = .ok fee) :
    pool.reserveInputs entry = (.ok (), pool.takeInputs entry) := by
  obtain ⟨hvalid, hfree⟩ := validateEntry_eq_ok.mp hvalid
  have hnodup : entry.inputKeys.Nodup := nodup_of_validated hvalid
  rw [reserveInputs, reserveKeys_of_free hnodup hfree]
  rfl

/-- The pool with one more entry. -/
def accept (pool : Mempool) (entry : MempoolEntry) : Mempool :=
  ((pool.takeInputs entry).insertEntry entry.txid entry).invalidateFingerprint

/-- What has to hold for an entry to be admitted. -/
structure Admissible (crypto : Crypto) (pool : Mempool) (entry : MempoolEntry)
    (network : Network) (spendHeight : UInt64) (lookup : UtxoKey → Option UtxoEntry) : Prop where
  fresh : pool.entries[entry.txid]? = none
  count : pool.entries.size < pool.limits.maxTransactions
  vbytes : addUsize pool.totalVbytes entry.vsizeBytes ≤ pool.limits.maxVbytes
  valid : ∃ fee, validateTransactionWithContextForMempool crypto entry.transaction entry.feeAtoms
    network spendHeight lookup = .ok fee
  free : ∀ key ∈ entry.inputKeys, key ∉ pool.spentInputs

theorem admit_cases (crypto : Crypto) (pool : Mempool) (entry : MempoolEntry)
    (network : Network) (spendHeight : UInt64) (lookup : UtxoKey → Option UtxoEntry) :
    (pool.Admissible crypto entry network spendHeight lookup ∧
      pool.admitEntry crypto entry network spendHeight lookup = (.ok entry.txid, pool.accept entry)) ∨
    (¬pool.Admissible crypto entry network spendHeight lookup ∧
      ∃ err, pool.admitEntry crypto entry network spendHeight lookup = (.error err, pool)) := by
  rw [admitEntry]
  split
  · next hknown =>
      refine .inr ⟨fun hadmissible => ?_, _, rfl⟩
      rw [Std.TreeMap.contains_eq_isSome_getElem?, hadmissible.fresh] at hknown
      cases hknown
  next hfresh =>
  split
  · next hexceeds =>
      refine .inr ⟨fun hadmissible => ?_, _, rfl⟩
      have hcount := hadmissible.count
      have hvbytes := hadmissible.vbytes
      rw [wouldExceedLimits, Bool.or_eq_true, decide_eq_true_eq, decide_eq_true_eq] at hexceeds
      omega
  next hfits =>
  rcases hvalid : pool.validateEntry crypto entry network spendHeight lookup with err | fee
  · refine .inr ⟨fun hadmissible => ?_, err, rfl⟩
    obtain ⟨fee, hfee⟩ := hadmissible.valid
    rw [validateEntry_eq_ok.mpr ⟨hfee, hadmissible.free⟩] at hvalid
    cases hvalid
  · obtain ⟨hfee, hfree⟩ := validateEntry_eq_ok.mp hvalid
    rw [wouldExceedLimits, Bool.or_eq_true, decide_eq_true_eq, decide_eq_true_eq, not_or] at hfits
    refine .inl ⟨⟨?_, by omega, by omega, ⟨fee, hfee⟩, hfree⟩, ?_⟩
    · rw [Std.TreeMap.contains_eq_isSome_getElem?, Bool.not_eq_true,
        Option.isSome_eq_false_iff, Option.isNone_iff_eq_none] at hfresh
      exact hfresh
    · dsimp only
      rw [reserveInputs_of_validated hvalid]
      rfl

/-- Keep one more entry while the pool is gone through. -/
def keep (pool : Mempool) (filed : Bytes 48 × MempoolEntry) : Mempool :=
  { pool.takeInputs filed.2 with entries := pool.entries.insert filed.1 filed.2 }

theorem keepValid_cases (crypto : Crypto) (network : Network) (spendHeight : UInt64)
    (lookup : UtxoKey → Option UtxoEntry) (pool : Mempool) (filed : Bytes 48 × MempoolEntry) :
    ((∃ fee, pool.validateEntry crypto filed.2 network spendHeight lookup = .ok fee) ∧
      keepValid crypto network spendHeight lookup pool filed = pool.keep filed) ∨
    ((∀ fee, pool.validateEntry crypto filed.2 network spendHeight lookup ≠ .ok fee) ∧
      keepValid crypto network spendHeight lookup pool filed = pool) := by
  rw [keepValid]
  rcases hvalid : pool.validateEntry crypto filed.2 network spendHeight lookup with err | fee
  · exact .inr ⟨nofun, rfl⟩
  · refine .inl ⟨⟨fee, rfl⟩, ?_⟩
    dsimp only
    rw [reserveInputs_of_validated hvalid]
    rfl

end

/-! Relations. -/

/-- The relations are each other's inverse and hold between entries of which one spends from the
other. -/
structure Linked (entries : Std.TreeMap (Bytes 48) MempoolEntry)
    (tables : KeyRelation (Bytes 48) × KeyRelation (Bytes 48)) : Prop where
  inverse : KeyRelation.Inverse tables.1 tables.2
  spends : ∀ child parent, tables.1.Related child parent → ∃ entry,
    entries[child]? = some entry ∧ ∃ input ∈ entry.transaction.inputs, input.previousTxid = parent
  parents_filed : ∀ child ∈ tables.1, child ∈ entries
  children_filed : ∀ parent ∈ tables.2, parent ∈ entries

namespace Linked

variable {entries : Std.TreeMap (Bytes 48) MempoolEntry}
  {tables : KeyRelation (Bytes 48) × KeyRelation (Bytes 48)} {txid : Bytes 48}
  {entry : MempoolEntry}

theorem empty : Linked entries (∅, ∅) where
  inverse _ _ := iff_of_false KeyRelation.not_related_empty KeyRelation.not_related_empty
  spends _ _ hrelated := absurd hrelated KeyRelation.not_related_empty
  parents_filed _ hmem := absurd hmem Std.TreeMap.not_mem_emptyc
  children_filed _ hmem := absurd hmem Std.TreeMap.not_mem_emptyc

theorem insert (hlinked : Linked entries tables) (hfresh : entries[txid]? = none) :
    Linked (entries.insert txid entry) tables where
  inverse := hlinked.inverse
  spends child parent hrelated := by
    obtain ⟨found, hfound, hspends⟩ := hlinked.spends child parent hrelated
    exact ⟨found, (Std.TreeMap.getElem?_insert_eq_some hfresh).mpr (.inr hfound), hspends⟩
  parents_filed child hmem := Std.TreeMap.mem_insert.mpr (.inr (hlinked.parents_filed child hmem))
  children_filed parent hmem :=
    Std.TreeMap.mem_insert.mpr (.inr (hlinked.children_filed parent hmem))

theorem link {parents : List (Bytes 48)} (hlinked : Linked entries tables)
    (hfound : entries[txid]? = some entry) (hfresh : txid ∉ tables.1)
    (hparents : ∀ parent ∈ parents, parent ∈ entries ∧
      ∃ input ∈ entry.transaction.inputs, input.previousTxid = parent) :
    Linked entries (KeyRelation.link tables txid parents) where
  inverse := KeyRelation.inverse_link hfresh hlinked.inverse
  spends child parent hrelated := by
    rcases (KeyRelation.related_link hfresh).mp hrelated with ⟨rfl, hparent⟩ | hrelated
    · exact ⟨entry, hfound, (hparents parent hparent).2⟩
    · exact hlinked.spends child parent hrelated
  parents_filed child hmem := by
    rcases KeyRelation.mem_link hmem with rfl | hmem
    · exact Std.TreeMap.mem_iff_isSome_getElem?.mpr (by rw [hfound]; rfl)
    · exact hlinked.parents_filed child hmem
  children_filed parent hmem := by
    rcases KeyRelation.mem_foldl_relate.mp hmem with hparent | hmem
    · exact (hparents parent hparent).1
    · exact hlinked.children_filed parent hmem

theorem unlink (hlinked : Linked entries tables) :
    Linked (entries.erase txid) (KeyRelation.unlink tables txid) where
  inverse := KeyRelation.inverse_unlink hlinked.inverse
  spends child parent hrelated := by
    obtain ⟨-, hchild, hrelated⟩ := (KeyRelation.unlink_forward hlinked.inverse).mp hrelated
    obtain ⟨found, hfound, hspends⟩ := hlinked.spends child parent hrelated
    exact ⟨found, Std.TreeMap.getElem?_erase_eq_some.mpr ⟨hchild, hfound⟩, hspends⟩
  parents_filed child hmem := by
    obtain ⟨hne, hmem⟩ := KeyRelation.mem_unlink_forward hmem
    rw [Std.TreeMap.mem_erase, ne_eq, Std.LawfulEqOrd.compare_eq_iff_eq]
    exact ⟨Ne.symm hne, hlinked.parents_filed child hmem⟩
  children_filed parent hmem := by
    obtain ⟨hne, hmem⟩ := KeyRelation.mem_unlink_backward hmem
    rw [Std.TreeMap.mem_erase, ne_eq, Std.LawfulEqOrd.compare_eq_iff_eq]
    exact ⟨Ne.symm hne, hlinked.children_filed parent hmem⟩

end Linked

theorem parentsInPool_spec {pool : Mempool} {entry : MempoolEntry} :
    ∀ parent ∈ pool.parentsInPool entry, parent ∈ pool.entries ∧
      ∃ input ∈ entry.transaction.inputs, input.previousTxid = parent := by
  intro parent hparent
  obtain ⟨hinput, hknown⟩ := List.mem_filter.mp hparent
  exact ⟨Std.TreeMap.contains_iff_mem.mp hknown, List.mem_map.mp hinput⟩

/-! Entries and what is derived from them. -/

/-- The entries are filed under their identifiers and share no input. -/
structure Separate (entries : Std.TreeMap (Bytes 48) MempoolEntry) : Prop where
  filed : ∀ (txid : Bytes 48) (entry : MempoolEntry), entries[txid]? = some entry →
    entry.txid = txid
  exclusive : ∀ (txid txid' : Bytes 48) (entry entry' : MempoolEntry) (key : UtxoKey),
    entries[txid]? = some entry → entries[txid']? = some entry' → key ∈ entry.inputKeys →
      key ∈ entry'.inputKeys → txid = txid'

/-- The outpoints that the entries spend. -/
def SpentBy (entries : Std.TreeMap (Bytes 48) MempoolEntry) (key : UtxoKey) : Prop :=
  ∃ (txid : Bytes 48) (entry : MempoolEntry), entries[txid]? = some entry ∧
    key ∈ entry.inputKeys

def OrderedBy (entries : Std.TreeMap (Bytes 48) MempoolEntry) (key : MiningOrderKey) : Prop :=
  ∃ (txid : Bytes 48) (entry : MempoolEntry), entries[txid]? = some entry ∧
    MiningOrderKey.ofEntry entry = key

section

variable {entries : Std.TreeMap (Bytes 48) MempoolEntry} {txid : Bytes 48} {entry : MempoolEntry}

theorem spentBy_insert {key : UtxoKey} (hfresh : entries[txid]? = none) :
    SpentBy (entries.insert txid entry) key ↔ SpentBy entries key ∨ key ∈ entry.inputKeys := by
  simp only [SpentBy, Std.TreeMap.getElem?_insert_eq_some hfresh]
  constructor
  · rintro ⟨_, _, ⟨-, rfl⟩ | hfound, hkey⟩
    · exact .inr hkey
    · exact .inl ⟨_, _, hfound, hkey⟩
  · rintro (⟨other, found, hfound, hkey⟩ | hkey)
    · exact ⟨other, found, .inr hfound, hkey⟩
    · exact ⟨txid, entry, .inl ⟨rfl, rfl⟩, hkey⟩

theorem orderedBy_insert {key : MiningOrderKey} (hfresh : entries[txid]? = none) :
    OrderedBy (entries.insert txid entry) key ↔
      OrderedBy entries key ∨ MiningOrderKey.ofEntry entry = key := by
  simp only [OrderedBy, Std.TreeMap.getElem?_insert_eq_some hfresh]
  constructor
  · rintro ⟨_, _, ⟨-, rfl⟩ | hfound, hkey⟩
    · exact .inr hkey
    · exact .inl ⟨_, _, hfound, hkey⟩
  · rintro (⟨other, found, hfound, hkey⟩ | hkey)
    · exact ⟨other, found, .inr hfound, hkey⟩
    · exact ⟨txid, entry, .inl ⟨rfl, rfl⟩, hkey⟩

namespace Separate

variable (hseparate : Separate entries)

include hseparate

theorem insert (hfresh : entries[txid]? = none) (hfiled : entry.txid = txid)
    (hfree : ∀ key ∈ entry.inputKeys, ¬SpentBy entries key) :
    Separate (entries.insert txid entry) where
  filed other found hfound := by
    rcases (Std.TreeMap.getElem?_insert_eq_some hfresh).mp hfound with ⟨rfl, rfl⟩ | hfound
    · exact hfiled
    · exact hseparate.filed other found hfound
  exclusive other other' found found' key hfound hfound' hkey hkey' := by
    rw [Std.TreeMap.getElem?_insert_eq_some hfresh] at hfound hfound'
    rcases hfound with ⟨rfl, rfl⟩ | hfound <;> rcases hfound' with ⟨rfl, rfl⟩ | hfound'
    · rfl
    · exact absurd ⟨_, _, hfound', hkey'⟩ (hfree key hkey)
    · exact absurd ⟨_, _, hfound, hkey⟩ (hfree key hkey')
    · exact hseparate.exclusive other other' found found' key hfound hfound' hkey hkey'

theorem erase : Separate (entries.erase txid) where
  filed other found hfound :=
    hseparate.filed other found (Std.TreeMap.getElem?_erase_eq_some.mp hfound).2
  exclusive other other' found found' key hfound hfound' :=
    hseparate.exclusive other other' found found' key
      (Std.TreeMap.getElem?_erase_eq_some.mp hfound).2
      (Std.TreeMap.getElem?_erase_eq_some.mp hfound').2

theorem spentBy_erase {key : UtxoKey} (hentry : entries[txid]? = some entry) :
    SpentBy (entries.erase txid) key ↔ SpentBy entries key ∧ key ∉ entry.inputKeys := by
  simp only [SpentBy, Std.TreeMap.getElem?_erase_eq_some]
  constructor
  · rintro ⟨other, found, ⟨hne, hfound⟩, hkey⟩
    refine ⟨⟨other, found, hfound, hkey⟩, fun hspent => hne ?_⟩
    exact hseparate.exclusive other txid found entry key hfound hentry hkey hspent
  · rintro ⟨⟨other, found, hfound, hkey⟩, hspent⟩
    refine ⟨other, found, ⟨?_, hfound⟩, hkey⟩
    rintro rfl
    obtain rfl := Option.some.inj (hfound.symm.trans hentry)
    exact hspent hkey

theorem orderedBy_erase {key : MiningOrderKey} (hentry : entries[txid]? = some entry) :
    OrderedBy (entries.erase txid) key ↔
      OrderedBy entries key ∧ MiningOrderKey.ofEntry entry ≠ key := by
  simp only [OrderedBy, Std.TreeMap.getElem?_erase_eq_some]
  constructor
  · rintro ⟨other, found, ⟨hne, hfound⟩, rfl⟩
    refine ⟨⟨other, found, hfound, rfl⟩, fun hsame => hne ?_⟩
    rw [← hseparate.filed other found hfound, ← hseparate.filed txid entry hentry]
    exact (congrArg MiningOrderKey.txid hsame).symm
  · rintro ⟨⟨other, found, hfound, hkey⟩, hne⟩
    refine ⟨other, found, ⟨?_, hfound⟩, hkey⟩
    rintro rfl
    obtain rfl := Option.some.inj (hfound.symm.trans hentry)
    exact hne hkey

end Separate

end

structure Indexed (pool : Mempool) : Prop extends Separate pool.entries where
  spent : ∀ key, key ∈ pool.spentInputs ↔ SpentBy pool.entries key
  ordered : ∀ key, key ∈ pool.miningOrder ↔ OrderedBy pool.entries key
  linked : Linked pool.entries (pool.parentsByTxid, pool.childrenByTxid)

namespace Indexed

variable {pool : Mempool} {entry : MempoolEntry} {txid : Bytes 48} (hindexed : pool.Indexed)

include hindexed

theorem accept (hfresh : pool.entries[entry.txid]? = none)
    (hfree : ∀ key ∈ entry.inputKeys, key ∉ pool.spentInputs) : (pool.accept entry).Indexed where
  toSeparate := hindexed.toSeparate.insert hfresh rfl fun key hkey hspent =>
    hfree key hkey ((hindexed.spent key).mpr hspent)
  spent key := by
    change key ∈ entry.inputKeys.foldl Std.TreeSet.insert pool.spentInputs ↔
      SpentBy (pool.entries.insert entry.txid entry) key
    rw [Std.TreeSet.mem_foldl_insert, hindexed.spent, spentBy_insert hfresh]
  ordered key := by
    change key ∈ pool.miningOrder.insert (.ofEntry entry) ↔
      OrderedBy (pool.entries.insert entry.txid entry) key
    rw [Std.TreeSet.mem_insert, Std.LawfulEqOrd.compare_eq_iff_eq, hindexed.ordered,
      orderedBy_insert hfresh, or_comm]
  linked := by
    refine (hindexed.linked.insert hfresh).link (Std.TreeMap.getElem?_insert_self) ?_ ?_
    · intro hmem
      have hknown := hindexed.linked.parents_filed _ hmem
      rw [Std.TreeMap.mem_iff_isSome_getElem?, hfresh] at hknown
      cases hknown
    · intro parent hparent
      obtain ⟨hknown, hinput⟩ := parentsInPool_spec parent hparent
      exact ⟨Std.TreeMap.mem_insert.mpr (.inr hknown), hinput⟩

theorem remove {removed : MempoolEntry × Mempool} (hremoved : pool.removeEntry txid = some removed) :
    (removed.2.releaseInputs removed.1).Indexed := by
  obtain ⟨entry, hentry, rfl⟩ := Option.map_eq_some_iff.mp hremoved
  obtain rfl := hindexed.filed txid entry hentry
  exact {
    toSeparate := hindexed.toSeparate.erase
    spent := by
      intro key
      change key ∈ entry.inputKeys.foldl Std.TreeSet.erase pool.spentInputs ↔
        SpentBy (pool.entries.erase entry.txid) key
      rw [Std.TreeSet.mem_foldl_erase, hindexed.spent, hindexed.spentBy_erase hentry]
    ordered := by
      intro key
      change key ∈ pool.miningOrder.erase (.ofEntry entry) ↔
        OrderedBy (pool.entries.erase entry.txid) key
      rw [Std.TreeSet.mem_erase, ne_eq, Std.LawfulEqOrd.compare_eq_iff_eq, hindexed.ordered,
        hindexed.orderedBy_erase hentry, and_comm]
    linked := hindexed.linked.unlink }

end Indexed

/-! Revalidation. -/

section

variable (crypto : Crypto) (network : Network) (spendHeight : UInt64)
  (lookup : UtxoKey → Option UtxoEntry)

/-- An entry is valid for the mempool on its own. -/
def ValidEntry (entry : MempoolEntry) : Prop :=
  ∃ fee, validateTransactionWithContextForMempool crypto entry.transaction entry.feeAtoms network
    spendHeight lookup = .ok fee

end

/-- What has been kept of the entries gone through. -/
structure Kept (seen : List (Bytes 48 × MempoolEntry)) (valid : MempoolEntry → Prop)
    (pool : Mempool) : Prop where
  spent : ∀ key, key ∈ pool.spentInputs ↔ SpentBy pool.entries key
  entries_iff : ∀ (txid : Bytes 48) (entry : MempoolEntry), pool.entries[txid]? = some entry ↔
    (txid, entry) ∈ seen ∧ valid entry

section

variable {crypto : Crypto} {network : Network} {spendHeight : UInt64}
  {lookup : UtxoKey → Option UtxoEntry} {current : Std.TreeMap (Bytes 48) MempoolEntry}
  {seen rest : List (Bytes 48 × MempoolEntry)} {pool : Mempool}

theorem Kept.keepValid {filed : Bytes 48 × MempoolEntry} (hseparate : Separate current)
    (hsplit : current.toList = seen ++ filed :: rest)
    (hkept : Kept seen (ValidEntry crypto network spendHeight lookup) pool) :
    Kept (seen ++ [filed]) (ValidEntry crypto network spendHeight lookup)
      (keepValid crypto network spendHeight lookup pool filed) := by
  have hcurrent : ∀ other ∈ seen ++ filed :: rest, current[other.1]? = some other.2 :=
    fun other hother => Std.TreeMap.mem_toList_iff_getElem?_eq_some.mp (hsplit ▸ hother)
  have hfiled := hcurrent filed (by simp)
  have hnew : ∀ entry, (filed.1, entry) ∉ seen := by
    intro entry hentry
    have hfound := hcurrent (filed.1, entry) (List.mem_append_left _ hentry)
    obtain rfl : filed.2 = entry := Option.some.inj (hfiled.symm.trans hfound)
    have hnodup : (seen ++ filed :: rest).Nodup := hsplit ▸ Std.TreeMap.nodup_toList
    exact List.disjoint_of_nodup_append hnodup hentry (List.mem_cons_self ..)
  have hfresh : pool.entries[filed.1]? = none := by
    rw [Option.eq_none_iff_forall_ne_some]
    exact fun entry hentry => hnew entry ((hkept.entries_iff _ entry).mp hentry).1
  have hfree : ∀ key ∈ filed.2.inputKeys, key ∉ pool.spentInputs := by
    intro key hkey hspent
    obtain ⟨other, found, hfound, hother⟩ := (hkept.spent key).mp hspent
    obtain ⟨hseen, -⟩ := (hkept.entries_iff other found).mp hfound
    have hsame := hseparate.exclusive other filed.1 found filed.2 key
      (hcurrent (other, found) (List.mem_append_left _ hseen)) hfiled hother hkey
    exact hnew found (hsame ▸ hseen)
  rcases keepValid_cases crypto network spendHeight lookup pool filed with
    ⟨⟨fee, hvalid⟩, heq⟩ | ⟨hinvalid, heq⟩
  · have hvalid : ValidEntry crypto network spendHeight lookup filed.2 :=
      ⟨fee, (validateEntry_eq_ok.mp hvalid).1⟩
    rw [heq]
    refine ⟨fun key => ?_, fun txid entry => ?_⟩
    · change key ∈ filed.2.inputKeys.foldl Std.TreeSet.insert pool.spentInputs ↔
        SpentBy (pool.entries.insert filed.1 filed.2) key
      rw [Std.TreeSet.mem_foldl_insert, hkept.spent, spentBy_insert hfresh]
    · change (pool.entries.insert filed.1 filed.2)[txid]? = some entry ↔ _
      rw [Std.TreeMap.getElem?_insert_eq_some hfresh, hkept.entries_iff, List.mem_append,
        List.mem_singleton, Prod.ext_iff]
      constructor
      · rintro (⟨rfl, rfl⟩ | ⟨hseen, hfound⟩)
        · exact ⟨.inr ⟨rfl, rfl⟩, hvalid⟩
        · exact ⟨.inl hseen, hfound⟩
      · rintro ⟨hseen | hlast, hfound⟩
        · exact .inr ⟨hseen, hfound⟩
        · exact .inl hlast
  · rw [heq]
    refine ⟨hkept.spent, fun txid entry => ?_⟩
    rw [hkept.entries_iff, List.mem_append, List.mem_singleton]
    constructor
    · exact fun ⟨hseen, hfound⟩ => ⟨.inl hseen, hfound⟩
    · rintro ⟨hseen | rfl, hfound⟩
      · exact ⟨hseen, hfound⟩
      · obtain ⟨fee, hfee⟩ := hfound
        exact absurd (validateEntry_eq_ok.mpr ⟨hfee, hfree⟩) (hinvalid fee)

theorem Kept.foldl (hseparate : Separate current) (hsplit : current.toList = seen ++ rest)
    (hkept : Kept seen (ValidEntry crypto network spendHeight lookup) pool) :
    Kept current.toList (ValidEntry crypto network spendHeight lookup)
      (rest.foldl (Mempool.keepValid crypto network spendHeight lookup) pool) := by
  induction rest generalizing seen pool with
  | nil => rwa [hsplit, List.append_nil]
  | cons filed rest ih =>
      exact ih (by rw [hsplit, List.append_assoc]; rfl) (hkept.keepValid hseparate hsplit)

end

end Mempool

inductive MempoolTotal where
  | feeAtoms
  | rawBytes
  | vbytes

def MempoolTotal.ofEntry : MempoolTotal → MempoolEntry → Nat
  | feeAtoms, entry => entry.feeAtoms.toNat
  | rawBytes, entry => entry.rawSizeBytes
  | vbytes, entry => entry.vsizeBytes

namespace Mempool

/-- The totals that the pool keeps. -/
def total (pool : Mempool) : MempoolTotal → Nat
  | .feeAtoms => pool.totalFeeAtoms.toNat
  | .rawBytes => pool.totalRawBytes
  | .vbytes => pool.totalVbytes

/-- The sums over the entries. -/
def sum (pool : Mempool) (which : MempoolTotal) : Nat :=
  (pool.entriesInOrder.map which.ofEntry).sum

section

variable {pool : Mempool} {entry : MempoolEntry} {txid : Bytes 48} (which : MempoolTotal)

theorem total_countEntry :
    (pool.countEntry entry).total which = addUsize (pool.total which) (which.ofEntry entry) := by
  cases which with
  | feeAtoms => exact UInt64.toNat_saturatingAdd _ _
  | rawBytes => rfl
  | vbytes => rfl

theorem total_accept :
    (pool.accept entry).total which = addUsize (pool.total which) (which.ofEntry entry) := by
  rw [← total_countEntry]
  cases which <;> rfl

theorem sum_accept (hfresh : pool.entries[entry.txid]? = none) :
    (pool.accept entry).sum which = pool.sum which + which.ofEntry entry := by
  have hperm : (pool.entries.insert entry.txid entry).toList.Perm
      ((entry.txid, entry) :: pool.entries.toList) :=
    Std.TreeMap.toList_insert_perm_of_fresh hfresh
  change (((pool.entries.insert entry.txid entry).toList.map Prod.snd).map which.ofEntry).sum =
    ((pool.entries.toList.map Prod.snd).map which.ofEntry).sum + _
  rw [((hperm.map Prod.snd).map which.ofEntry).sum_eq, List.map_cons, List.map_cons,
    List.sum_cons, Nat.add_comm]

variable {removed : MempoolEntry × Mempool} (hremoved : pool.removeEntry txid = some removed)

include hremoved

theorem total_remove :
    (removed.2.releaseInputs removed.1).total which =
      pool.total which - which.ofEntry removed.1 := by
  obtain ⟨entry, hentry, rfl⟩ := Option.map_eq_some_iff.mp hremoved
  cases which with
  | feeAtoms => exact UInt64.toNat_saturatingSub _ _
  | rawBytes => rfl
  | vbytes => rfl

theorem sum_remove :
    pool.sum which = (removed.2.releaseInputs removed.1).sum which + which.ofEntry removed.1 := by
  obtain ⟨entry, hentry, rfl⟩ := Option.map_eq_some_iff.mp hremoved
  have hperm := Std.TreeMap.toList_erase_perm hentry
  change ((pool.entries.toList.map Prod.snd).map which.ofEntry).sum =
    (((pool.entries.erase txid).toList.map Prod.snd).map which.ofEntry).sum + _
  rw [((hperm.map Prod.snd).map which.ofEntry).sum_eq, List.map_cons, List.map_cons,
    List.sum_cons, Nat.add_comm]

end

/-! Rebuilding. -/

section

variable {pool : Mempool}

/-- The first loop of the rebuild: everything but the relations. -/
def recounted (pool : Mempool) (entries : List MempoolEntry) : Mempool :=
  entries.foldl (fun pool entry => (pool.countEntry entry).takeInputs entry) pool

theorem mem_entriesInOrder {entry : MempoolEntry} :
    entry ∈ pool.entriesInOrder ↔ ∃ txid : Bytes 48, pool.entries[txid]? = some entry := by
  simp only [entriesInOrder, List.mem_map, Prod.exists, exists_eq_right,
    Std.TreeMap.mem_toList_iff_getElem?_eq_some]

theorem exists_mem_entriesInOrder {P : MempoolEntry → Prop} :
    (∃ entry ∈ pool.entriesInOrder, P entry) ↔
      ∃ (txid : Bytes 48) (entry : MempoolEntry), pool.entries[txid]? = some entry ∧ P entry := by
  simp only [mem_entriesInOrder]
  constructor
  · rintro ⟨entry, ⟨txid, hentry⟩, hP⟩
    exact ⟨txid, entry, hentry, hP⟩
  · rintro ⟨txid, entry, hentry, hP⟩
    exact ⟨entry, ⟨txid, hentry⟩, hP⟩

theorem recounted_cons (entry : MempoolEntry) (entries : List MempoolEntry) :
    pool.recounted (entry :: entries) =
      ((pool.countEntry entry).takeInputs entry).recounted entries := rfl

theorem recounted_frame (entries : List MempoolEntry) :
    (pool.recounted entries).entries = pool.entries ∧
      (pool.recounted entries).parentsByTxid = pool.parentsByTxid ∧
      (pool.recounted entries).childrenByTxid = pool.childrenByTxid ∧
      (pool.recounted entries).limits = pool.limits := by
  induction entries generalizing pool with
  | nil => exact ⟨rfl, rfl, rfl, rfl⟩
  | cons entry entries ih => exact ih

theorem mem_spentInputs_recounted {entries : List MempoolEntry} {key : UtxoKey} :
    key ∈ (pool.recounted entries).spentInputs ↔
      key ∈ pool.spentInputs ∨ ∃ entry ∈ entries, key ∈ entry.inputKeys := by
  induction entries generalizing pool with
  | nil => simp [recounted]
  | cons entry entries ih =>
      rw [recounted_cons, ih]
      change key ∈ entry.inputKeys.foldl Std.TreeSet.insert pool.spentInputs ∨ _ ↔ _
      rw [Std.TreeSet.mem_foldl_insert, List.exists_mem_cons_iff, or_assoc]

theorem mem_miningOrder_recounted {entries : List MempoolEntry} {key : MiningOrderKey} :
    key ∈ (pool.recounted entries).miningOrder ↔
      key ∈ pool.miningOrder ∨ ∃ entry ∈ entries, MiningOrderKey.ofEntry entry = key := by
  induction entries generalizing pool with
  | nil => simp [recounted]
  | cons entry entries ih =>
      rw [recounted_cons, ih]
      change key ∈ pool.miningOrder.insert (.ofEntry entry) ∨ _ ↔ _
      rw [Std.TreeSet.mem_insert, Std.LawfulEqOrd.compare_eq_iff_eq, List.exists_mem_cons_iff]
      tauto

theorem total_recounted {which : MempoolTotal} {entries : List MempoolEntry}
    (hbound : pool.total which ≤ usizeMax) :
    (pool.recounted entries).total which =
      min (pool.total which + (entries.map which.ofEntry).sum) usizeMax := by
  induction entries generalizing pool with
  | nil => exact (min_eq_left hbound).symm
  | cons entry entries ih =>
      have hstep : ((pool.countEntry entry).takeInputs entry).total which =
          addUsize (pool.total which) (which.ofEntry entry) := by
        rw [← total_countEntry]
        cases which <;> rfl
      rw [recounted_cons, ih (by rw [hstep]; exact min_le_right _ _), hstep, addUsize,
        List.map_cons, List.sum_cons]
      omega

theorem exists_linked {rest : List (Bytes 48 × MempoolEntry)}
    (hfound : ∀ filed ∈ rest, pool.entries[filed.1]? = some filed.2)
    (hnodup : (rest.map Prod.fst).Nodup) (hnew : ∀ filed ∈ rest, filed.1 ∉ pool.parentsByTxid)
    (hlinked : Linked pool.entries (pool.parentsByTxid, pool.childrenByTxid)) :
    ∃ tables, Linked pool.entries tables ∧
      rest.foldl (fun pool filed => pool.linkRelations filed.1 filed.2) pool =
        { pool with parentsByTxid := tables.1, childrenByTxid := tables.2 } := by
  induction rest generalizing pool with
  | nil => exact ⟨_, hlinked, rfl⟩
  | cons filed rest ih =>
      obtain ⟨hfirst, hfound⟩ := List.forall_mem_cons.mp hfound
      obtain ⟨hfresh, hnew⟩ := List.forall_mem_cons.mp hnew
      obtain ⟨hother, hnodup⟩ := List.nodup_cons.mp hnodup
      refine @ih (pool.linkRelations filed.1 filed.2) hfound hnodup (fun later hlater hmem => ?_)
        (hlinked.link hfirst hfresh parentsInPool_spec)
      rcases KeyRelation.mem_link hmem with heq | hmem
      · exact hother (heq ▸ List.mem_map_of_mem hlater)
      · exact hnew later hlater hmem

theorem rebuild_spec (hseparate : Separate pool.entries) :
    pool.rebuildDerivedStateFromEntries.Indexed ∧
      pool.rebuildDerivedStateFromEntries.entries = pool.entries ∧
      pool.rebuildDerivedStateFromEntries.limits = pool.limits ∧
      ∀ which, pool.rebuildDerivedStateFromEntries.total which =
        min (pool.sum which) usizeMax := by
  set counted := pool.resetDerivedState.recounted pool.entriesInOrder with hcounted
  obtain ⟨hentries, hparents, hchildren, hlimits⟩ :=
    pool.resetDerivedState.recounted_frame pool.entriesInOrder
  obtain ⟨tables, hlinked, hrebuilt⟩ := @exists_linked counted counted.entries.toList
    (fun filed hfiled => Std.TreeMap.mem_toList_iff_getElem?_eq_some.mp hfiled)
    (Std.TreeMap.map_fst_toList_eq_keys ▸ Std.TreeMap.nodup_keys)
    (fun filed _ hmem => by
      rw [hcounted, hparents] at hmem
      exact Std.TreeMap.not_mem_emptyc hmem)
    (by
      rw [hcounted, hparents, hchildren]
      exact .empty)
  have hresult : pool.rebuildDerivedStateFromEntries =
      { counted with parentsByTxid := tables.1, childrenByTxid := tables.2 } := hrebuilt
  rw [hresult]
  refine ⟨⟨by rwa [hcounted, hentries], fun key => ?_, fun key => ?_, hlinked⟩, hentries, hlimits,
    fun which => ?_⟩
  · change key ∈ counted.spentInputs ↔ SpentBy counted.entries key
    rw [hcounted, mem_spentInputs_recounted, hentries, exists_mem_entriesInOrder]
    exact or_iff_right Std.TreeSet.not_mem_emptyc
  · change key ∈ counted.miningOrder ↔ OrderedBy counted.entries key
    rw [hcounted, mem_miningOrder_recounted, hentries, exists_mem_entriesInOrder]
    exact or_iff_right Std.TreeSet.not_mem_emptyc
  · have hzero : pool.resetDerivedState.total which = 0 := by
      cases which <;> rfl
    have htotal := @total_recounted pool.resetDerivedState which pool.entriesInOrder
      (by rw [hzero]; exact Nat.zero_le _)
    rw [hzero, Nat.zero_add] at htotal
    rw [sum, ← htotal]
    cases which <;> rfl

end

/-! Whole calls. -/

section

variable {crypto : Crypto} {pool : Mempool} {network : Network} {spendHeight : UInt64}
  {lookup : UtxoKey → Option UtxoEntry}

theorem limits_foldl_keepValid {rest : List (Bytes 48 × MempoolEntry)} :
    (rest.foldl (keepValid crypto network spendHeight lookup) pool).limits = pool.limits := by
  induction rest generalizing pool with
  | nil => rfl
  | cons filed rest ih =>
      rw [List.foldl_cons, ih]
      rcases keepValid_cases crypto network spendHeight lookup pool filed with
        ⟨-, heq⟩ | ⟨-, heq⟩ <;> rw [heq]
      rfl

theorem kept_entries (hseparate : Separate pool.entries) :
    Kept pool.entries.toList (ValidEntry crypto network spendHeight lookup)
      (pool.entries.toList.foldl (keepValid crypto network spendHeight lookup)
        { pool with entries := ∅ }.resetDerivedState) := by
  refine Kept.foldl hseparate (List.nil_append _).symm ⟨?_, ?_⟩
  · simp [resetDerivedState, SpentBy]
  · simp [resetDerivedState]

theorem Separate.of_subset {entries larger : Std.TreeMap (Bytes 48) MempoolEntry}
    (hseparate : Separate larger) (hsubset : ∀ (txid : Bytes 48) (entry : MempoolEntry),
      entries[txid]? = some entry → larger[txid]? = some entry) : Separate entries where
  filed txid entry hentry := hseparate.filed txid entry (hsubset txid entry hentry)
  exclusive txid txid' entry entry' key hentry hentry' :=
    hseparate.exclusive txid txid' entry entry' key (hsubset txid entry hentry)
      (hsubset txid' entry' hentry')

/-- After revalidation the derived structures are rebuilt, and what is left are the entries that
are valid. -/
theorem revalidate_spec (hseparate : Separate pool.entries) :
    (pool.revalidate crypto network spendHeight lookup).Indexed ∧
      (pool.revalidate crypto network spendHeight lookup).limits = pool.limits ∧
      (∀ which, (pool.revalidate crypto network spendHeight lookup).total which =
        min ((pool.revalidate crypto network spendHeight lookup).sum which) usizeMax) ∧
      ∀ (txid : Bytes 48) (entry : MempoolEntry),
        (pool.revalidate crypto network spendHeight lookup).entries[txid]? = some entry ↔
          pool.entries[txid]? = some entry ∧
            ValidEntry crypto network spendHeight lookup entry := by
  have hentries := (@kept_entries crypto pool network spendHeight lookup hseparate).entries_iff
  simp only [Std.TreeMap.mem_toList_iff_getElem?_eq_some] at hentries
  have hspec := rebuild_spec (hseparate.of_subset fun txid entry hentry =>
    ((hentries txid entry).mp hentry).1)
  have hlimits := @limits_foldl_keepValid crypto
    { pool with entries := ∅ }.resetDerivedState network spendHeight lookup pool.entries.toList
  rw [revalidate]
  generalize pool.entries.toList.foldl (keepValid crypto network spendHeight lookup)
    { pool with entries := ∅ }.resetDerivedState = kept at hentries hspec hlimits ⊢
  obtain ⟨hindexed, hsame, hlimit, htotal⟩ := hspec
  generalize kept.rebuildDerivedStateFromEntries = rebuilt at hindexed hsame hlimit htotal ⊢
  refine ⟨⟨hindexed.toSeparate, hindexed.spent, hindexed.ordered, hindexed.linked⟩,
    hlimit.trans hlimits, fun which => ?_, fun txid entry => ?_⟩
  · have hsum : rebuilt.sum which = kept.sum which := by
      rw [sum, sum, entriesInOrder, entriesInOrder, hsame]
    have htotal := htotal which
    rw [← hsum] at htotal
    cases which <;> exact htotal
  · rw [← hentries, ← hsame]
    rfl

theorem subset_bounds {smaller : Mempool}
    (hsubset : ∀ (txid : Bytes 48) (entry : MempoolEntry),
      smaller.entries[txid]? = some entry → pool.entries[txid]? = some entry) :
    smaller.entries.size ≤ pool.entries.size ∧
      ∀ which, smaller.sum which ≤ pool.sum which := by
  have hsubperm : smaller.entries.toList.Subperm pool.entries.toList := by
    refine Std.TreeMap.nodup_toList.subperm ?_
    rintro ⟨txid, entry⟩ hmem
    rw [Std.TreeMap.mem_toList_iff_getElem?_eq_some] at hmem ⊢
    exact hsubset txid entry hmem
  constructor
  · have hlength := hsubperm.length_le
    rwa [Std.TreeMap.length_toList, Std.TreeMap.length_toList] at hlength
  · intro which
    obtain ⟨part, hperm, hsublist⟩ := hsubperm
    calc smaller.sum which = ((part.map Prod.snd).map which.ofEntry).sum :=
          (((hperm.map Prod.snd).map which.ofEntry).sum_eq).symm
      _ ≤ pool.sum which := ((hsublist.map Prod.snd).map which.ofEntry).sum_le_sum fun _ _ =>
          Nat.zero_le _

end

/-- The derived structures agree with the entries, and the limits hold. The total of the sizes
can fall behind their sum only if the limit is the largest machine word. -/
structure Coherent (pool : Mempool) : Prop extends Indexed pool where
  count : pool.entries.size ≤ pool.limits.maxTransactions
  vbytes : pool.totalVbytes ≤ pool.limits.maxVbytes
  exact : usizeMax ≤ pool.limits.maxVbytes ∨ pool.total .vbytes = pool.sum .vbytes

namespace Coherent

variable {crypto : Crypto} {pool : Mempool} {entry : MempoolEntry} {network : Network}
  {spendHeight : UInt64} {lookup : UtxoKey → Option UtxoEntry}

theorem withLimits (limits : MempoolLimits) : (Mempool.withLimits limits).Coherent where
  filed := by simp [Mempool.withLimits]
  exclusive := by simp [Mempool.withLimits]
  spent := by simp [Mempool.withLimits, SpentBy]
  ordered := by simp [Mempool.withLimits, OrderedBy]
  linked := .empty
  count := Nat.zero_le _
  vbytes := Nat.zero_le _
  exact := .inr rfl

variable (hpool : pool.Coherent)

include hpool

theorem withCache (cache : Option MempoolFingerprintCache) :
    Coherent { pool with fingerprintCache := cache } where
  filed := hpool.filed
  exclusive := hpool.exclusive
  spent := hpool.spent
  ordered := hpool.ordered
  linked := hpool.linked
  count := hpool.count
  vbytes := hpool.vbytes
  exact := hpool.exact

theorem accept (hadmissible : pool.Admissible crypto entry network spendHeight lookup) :
    (pool.accept entry).Coherent where
  toIndexed := hpool.toIndexed.accept hadmissible.fresh hadmissible.free
  count := by
    change (pool.entries.insert entry.txid entry).size ≤ pool.limits.maxTransactions
    exact Std.TreeMap.size_insert_le.trans hadmissible.count
  vbytes := hadmissible.vbytes
  exact := by
    change usizeMax ≤ pool.limits.maxVbytes ∨ _
    refine or_iff_not_imp_left.mpr fun hsmall => ?_
    have hexact := hpool.exact.resolve_left hsmall
    have hlimit : min (pool.total .vbytes + MempoolTotal.vbytes.ofEntry entry) usizeMax ≤
      pool.limits.maxVbytes := hadmissible.vbytes
    rw [total_accept, sum_accept _ hadmissible.fresh, addUsize]
    omega

theorem remove {txid : Bytes 48} {removed : MempoolEntry × Mempool}
    (hremoved : pool.removeEntry txid = some removed) :
    (removed.2.releaseInputs removed.1).Coherent := by
  have hindexed := hpool.toIndexed.remove hremoved
  have htotal := total_remove .vbytes hremoved
  have hsum := sum_remove .vbytes hremoved
  have hbound : pool.total .vbytes ≤ pool.limits.maxVbytes := hpool.vbytes
  obtain ⟨entry, hentry, rfl⟩ := Option.map_eq_some_iff.mp hremoved
  refine ⟨hindexed, ?_, ?_, ?_⟩
  · change (pool.entries.erase txid).size ≤ pool.limits.maxTransactions
    exact Std.TreeMap.size_erase_le.trans hpool.count
  · exact htotal.trans_le ((Nat.sub_le _ _).trans hbound)
  · refine hpool.exact.imp (fun hlarge => hlarge) fun hexact => ?_
    omega

theorem sum_vbytes_le (hfits : pool.sum .vbytes ≤ usizeMax) :
    pool.sum .vbytes ≤ pool.limits.maxVbytes := by
  rcases hpool.exact with hlarge | hexact
  · exact hfits.trans hlarge
  · exact hexact ▸ hpool.vbytes

theorem revalidate : (pool.revalidate crypto network spendHeight lookup).Coherent := by
  obtain ⟨hindexed, hlimits, htotal, hentries⟩ := revalidate_spec hpool.toSeparate
  obtain ⟨hcount, hsum⟩ := subset_bounds fun txid entry hentry =>
    ((hentries txid entry).mp hentry).1
  have htotal := htotal .vbytes
  have hsum := hsum .vbytes
  have hbound : pool.total .vbytes ≤ pool.limits.maxVbytes := hpool.vbytes
  refine ⟨hindexed, ?_, ?_, ?_⟩
  · rw [hlimits]
    exact hcount.trans hpool.count
  · change total _ .vbytes ≤ _
    rw [hlimits]
    rcases hpool.exact with hlarge | hexact <;> omega
  · rw [hlimits]
    rcases hpool.exact with hlarge | hexact
    · exact .inl hlarge
    · by_cases hlarge : usizeMax ≤ pool.limits.maxVbytes
      · exact .inl hlarge
      · omega

end Coherent

/-! Removing what a block confirmed. -/

section

variable {pool : Mempool}

theorem foldl_removeConfirmed {P : Mempool → Prop}
    (hstep : ∀ {pool : Mempool} {txid : Bytes 48} {removed : MempoolEntry × Mempool}, P pool →
      pool.removeEntry txid = some removed → P (removed.2.releaseInputs removed.1))
    (txids : List (Bytes 48)) (state : Bool × Mempool) (hstate : P state.2) :
    P (txids.foldl removeConfirmed state).2 := by
  induction txids generalizing state with
  | nil => exact hstate
  | cons txid txids ih =>
      refine ih _ ?_
      rw [removeConfirmed]
      split
      · exact hstate
      · next hremoved => exact hstep hstate hremoved

theorem foldl_removeConfirmed_false (txids : List (Bytes 48)) (state : Bool × Mempool)
    (hnone : (txids.foldl removeConfirmed state).1 = false) :
    txids.foldl removeConfirmed state = state := by
  induction txids generalizing state with
  | nil => rfl
  | cons txid txids ih =>
      rw [List.foldl_cons] at hnone ⊢
      have hrest := ih _ hnone
      rw [hrest] at hnone ⊢
      rw [removeConfirmed] at hnone ⊢
      split
      · rfl
      · next hremoved =>
          rw [hremoved] at hnone
          cases hnone

end

/-- The pool is coherent, and a cached fingerprint is the one that would be computed. -/
structure Consistent (crypto : Crypto) (pool : Mempool) : Prop extends Coherent pool where
  fingerprint : ∀ cache, pool.fingerprintCache = some cache →
    cache.fingerprint = pool.freshFingerprint crypto cache.network

/-! Runs. -/

/-- A call of the pool. -/
inductive Call where
  | admitEntry (entry : MempoolEntry) (network : Network) (spendHeight : UInt64)
      (lookup : UtxoKey → Option UtxoEntry)
  | revalidate (network : Network) (spendHeight : UInt64)
      (lookup : UtxoKey → Option UtxoEntry)
  | removeBlockTransactions (block : Block)
  | fingerprint (network : Network)

section

variable (crypto : Crypto)

def call (pool : Mempool) : Call → Mempool
  | .admitEntry entry network spendHeight lookup =>
      (pool.admitEntry crypto entry network spendHeight lookup).2
  | .revalidate network spendHeight lookup => pool.revalidate crypto network spendHeight lookup
  | .removeBlockTransactions block => pool.removeBlockTransactions crypto block
  | .fingerprint network => (pool.fingerprint crypto network).2

def run (pool : Mempool) (calls : List Call) : Mempool :=
  calls.foldl (call crypto) pool

end

variable {crypto : Crypto} {pool : Mempool}

theorem Consistent.withLimits (limits : MempoolLimits) :
    (Mempool.withLimits limits).Consistent crypto where
  toCoherent := .withLimits limits
  fingerprint := nofun

theorem Consistent.call (hpool : pool.Consistent crypto) (step : Call) :
    (pool.call crypto step).Consistent crypto := by
  cases step with
  | admitEntry entry network spendHeight lookup =>
      rcases admit_cases crypto pool entry network spendHeight lookup with
        ⟨hadmissible, heq⟩ | ⟨-, err, heq⟩
      · rw [Mempool.call, heq]
        exact ⟨hpool.toCoherent.accept hadmissible, nofun⟩
      · rw [Mempool.call, heq]
        exact hpool
  | revalidate network spendHeight lookup => exact ⟨hpool.toCoherent.revalidate, nofun⟩
  | removeBlockTransactions block =>
      have hcoherent := foldl_removeConfirmed (fun hpool hremoved => hpool.remove hremoved)
        (block.transactions.map (Transaction.txid crypto)) (false, pool) hpool.toCoherent
      rw [Mempool.call, removeBlockTransactions]
      dsimp only
      split
      · exact ⟨hcoherent.withCache none, nofun⟩
      · next hnone =>
          rw [foldl_removeConfirmed_false _ _ (Bool.eq_false_of_not_eq_true hnone)]
          exact hpool
  | fingerprint network =>
      rw [Mempool.call, Mempool.fingerprint]
      split
      · exact hpool
      · refine ⟨hpool.toCoherent.withCache _, ?_⟩
        rintro cache hcache
        obtain rfl := Option.some.inj hcache
        rfl

theorem Consistent.run (hpool : pool.Consistent crypto) (calls : List Call) :
    (pool.run crypto calls).Consistent crypto := by
  induction calls generalizing pool with
  | nil => exact hpool
  | cons step calls ih => exact ih (hpool.call step)

theorem Indexed.nodup_txids (hindexed : pool.Indexed) :
    (pool.entriesInOrder.map MempoolEntry.txid).Nodup := by
  rw [entriesInOrder, List.map_map]
  refine List.Nodup.map_on ?_ Std.TreeMap.nodup_toList
  rintro ⟨txid, entry⟩ hfound ⟨txid', entry'⟩ hfound' hsame
  rw [Std.TreeMap.mem_toList_iff_getElem?_eq_some] at hfound hfound'
  have htxid : txid = txid' := by
    rw [← hindexed.filed txid entry hfound, ← hindexed.filed txid' entry' hfound']
    exact hsame
  subst htxid
  rw [Option.some.inj (hfound.symm.trans hfound')]

theorem Indexed.miningOrder_perm (hindexed : pool.Indexed) :
    pool.miningOrder.toList.Perm (pool.entriesInOrder.map MiningOrderKey.ofEntry) := by
  have hkeys : (pool.entriesInOrder.map MiningOrderKey.ofEntry).Nodup := by
    apply List.Nodup.of_map MiningOrderKey.txid
    rw [List.map_map]
    exact hindexed.nodup_txids
  refine (List.perm_ext_iff_of_nodup Std.TreeSet.nodup_toList hkeys).mpr fun key => ?_
  rw [Std.TreeSet.mem_toList, hindexed.ordered, List.mem_map, exists_mem_entriesInOrder]
  rfl

theorem total_call {which : MempoolTotal} (hpool : pool.Consistent crypto) (step : Call)
    (hexact : pool.total which = pool.sum which)
    (hfits : (pool.call crypto step).sum which ≤ usizeMax) :
    (pool.call crypto step).total which = (pool.call crypto step).sum which := by
  cases step with
  | admitEntry entry network spendHeight lookup =>
      rcases admit_cases crypto pool entry network spendHeight lookup with
        ⟨hadmissible, heq⟩ | ⟨-, err, heq⟩
      · rw [call, heq] at hfits ⊢
        rw [sum_accept which hadmissible.fresh] at hfits
        rw [total_accept, sum_accept which hadmissible.fresh, hexact, addUsize, min_eq_left hfits]
      · rw [call, heq]
        exact hexact
  | revalidate network spendHeight lookup =>
      obtain ⟨-, -, htotal, -⟩ := revalidate_spec hpool.toSeparate
      exact (htotal which).trans (min_eq_left hfits)
  | removeBlockTransactions block =>
      have hremoved := @foldl_removeConfirmed (fun pool => pool.total which = pool.sum which)
        (by
          intro pool txid removed hexact hremoved
          have htotal := total_remove which hremoved
          have hsum := sum_remove which hremoved
          omega)
        (block.transactions.map (Transaction.txid crypto)) (false, pool) hexact
      rw [call, removeBlockTransactions]
      dsimp only
      split
      · cases which <;> exact hremoved
      · exact hremoved
  | fingerprint network =>
      rw [call, fingerprint]
      split
      · exact hexact
      · cases which <;> exact hexact

/-- The secret key of the example wallet's first address. -/
def payingSecret : Bytes 48 :=
  .ofNat 48
    0x44636e9733cbb81e25d0d9e5f2114ac66f1e4ca7c3c43a8a668b7fb75ded789d2c76651954bc7f11baf581e27e3db916

/-- A payment of 1000 atoms from one output of that address, with the digest that is signed. -/
def lavishPayment (outputIndex : UInt32) (digest sigRefShort : Nat) (nonce : UInt64) :
    Transaction where
  version := 1
  inputs := [⟨.zero 48, outputIndex, payingLock.toList⟩]
  outputs := [⟨1000, beBytes 32 7⟩]
  lockTime := 0
  witness := TxWitness.canonicalBytes
    ⟨sealedSignature payingSecret.toList (.ofNat 48 digest),
      payingSecret.toList ++ List.replicate 849 0,
      [⟨0, .ofNat 2 sigRefShort, .zero 16⟩], []⟩
  txPowNonce := nonce
  txPowBits := 12

def firstLavishPayment : Transaction :=
  lavishPayment 0
    0x81a11952bfe90eeafb1215f394b544b51cb1b31ee05e39197b0439545899cb89b5657c651f6d3441a209361dea308954
    0x48ba 1956

def secondLavishPayment : Transaction :=
  lavishPayment 1
    0xb70d015377139c975857043f59e6d5e2b72dab36d8198b6da1750122b85514baa101d1e8d53d150f5d3ffe54a543217a
    0x879f 2963

def lavishLookup (key : UtxoKey) : Option UtxoEntry :=
  some ⟨.testnet, key.txid, key.outputIndex, 9223372036854776808, payingLock.toList, 1, false⟩

def lavishAdmission (tx : Transaction) : Call :=
  .admitEntry (.new sealingSha3.toCrypto tx 9223372036854775808) .testnet 5 lavishLookup

/-- Two payments with fees of 2^63 atoms are admitted, and one is confirmed. -/
def lavishCalls : List Call :=
  [lavishAdmission firstLavishPayment, lavishAdmission secondLavishPayment,
    .removeBlockTransactions ⟨(genesisBlock .hashing .testnet).header, [firstLavishPayment]⟩]

end Mempool

end Atho
