import Atho.Library.KeyRelation
import Atho.Library.TreeLookup
import Atho.Storage.Validation

/-! The mempool: entries with their derived structures, admission, revalidation and the removal
of what a block confirmed. -/

namespace Atho

/-! Entries. -/

/-- A transaction with its declared fee, and its identifier and sizes computed beforehand. -/
structure MempoolEntry where
  transaction : Transaction
  feeAtoms : UInt64
  txid : Bytes 48
  baseSizeBytes : Nat
  rawSizeBytes : Nat
  vsizeBytes : Nat
  deriving DecidableEq

namespace MempoolEntry

def new (crypto : Crypto) (transaction : Transaction) (feeAtoms : UInt64) : MempoolEntry where
  transaction := transaction
  feeAtoms := feeAtoms
  txid := transaction.txid crypto
  baseSizeBytes := transaction.baseSizeBytes
  rawSizeBytes := transaction.fullSizeBytes
  vsizeBytes := max transaction.vsizeBytes 1

def feerateAtomsPerVbyte (entry : MempoolEntry) : UInt64 :=
  entry.feeAtoms / UInt64.ofNat entry.vsizeBytes

def inputKeys (entry : MempoolEntry) : List UtxoKey :=
  entry.transaction.inputs.map TxInput.key

end MempoolEntry

/-! Orders. -/

instance : Ord UtxoKey :=
  ⟨compareLex (compareOn UtxoKey.txid) (compareOn UtxoKey.outputIndex)⟩

instance : Std.TransOrd UtxoKey :=
  inferInstanceAs (Std.TransCmp (compareLex (compareOn UtxoKey.txid)
    (compareOn UtxoKey.outputIndex)))

theorem UtxoKey.compare_eq_iff {left right : UtxoKey} :
    compare left right = .eq ↔ left = right := by
  change compareLex (compareOn UtxoKey.txid) (compareOn UtxoKey.outputIndex) left right = .eq ↔ _
  cases left
  cases right
  simp only [compareLex_eq_eq, compareOn, Std.LawfulEqOrd.compare_eq_iff_eq, mk.injEq]

instance : Std.LawfulEqOrd UtxoKey where
  compare_self := UtxoKey.compare_eq_iff.mpr rfl
  eq_of_compare := UtxoKey.compare_eq_iff.mp

/-- The place of an entry in the order in which blocks are filled: the best rate first, then
the highest fee. -/
structure MiningOrderKey where
  feerateAtomsPerVbyte : UInt64
  feeAtoms : UInt64
  txid : Bytes 48
  deriving DecidableEq

namespace MiningOrderKey

def ofEntry (entry : MempoolEntry) : MiningOrderKey :=
  ⟨entry.feerateAtomsPerVbyte, entry.feeAtoms, entry.txid⟩

def order : MiningOrderKey → MiningOrderKey → Ordering :=
  compareLex (fun left right => compareOn feerateAtomsPerVbyte right left)
    (compareLex (fun left right => compareOn feeAtoms right left) (compareOn txid))

instance : Ord MiningOrderKey := ⟨order⟩

instance : Std.TransOrd MiningOrderKey := by
  have hrate : Std.TransCmp fun left right => compareOn feerateAtomsPerVbyte right left :=
    Std.TransCmp.opposite
  have hfee : Std.TransCmp fun left right => compareOn feeAtoms right left :=
    Std.TransCmp.opposite
  change Std.TransCmp order
  rw [order]
  infer_instance

theorem compare_eq_iff {left right : MiningOrderKey} :
    compare left right = .eq ↔ left = right := by
  change order left right = .eq ↔ _
  cases left
  cases right
  simp only [order, compareLex_eq_eq, compareOn, Std.LawfulEqOrd.compare_eq_iff_eq, mk.injEq]
  tauto

instance : Std.LawfulEqOrd MiningOrderKey where
  compare_self := compare_eq_iff.mpr rfl
  eq_of_compare := compare_eq_iff.mp

end MiningOrderKey

/-! The pool. -/

def defaultMaxMempoolTransactions : Nat := 50000
def defaultMaxMempoolVbytes : Nat := 64 * 1024 * 1024

structure MempoolLimits where
  maxTransactions : Nat
  maxVbytes : Nat
  deriving DecidableEq

def MempoolLimits.normalized (limits : MempoolLimits) : MempoolLimits :=
  ⟨max limits.maxTransactions 1, max limits.maxVbytes 1⟩

def MempoolLimits.default : MempoolLimits :=
  ⟨defaultMaxMempoolTransactions, defaultMaxMempoolVbytes⟩

structure MempoolFingerprintCache where
  network : Network
  fingerprint : Bytes 32
  deriving DecidableEq

structure Mempool where
  entries : Std.TreeMap (Bytes 48) MempoolEntry
  miningOrder : Std.TreeSet MiningOrderKey
  parentsByTxid : KeyRelation (Bytes 48)
  childrenByTxid : KeyRelation (Bytes 48)
  spentInputs : Std.TreeSet UtxoKey
  totalFeeAtoms : UInt64
  totalRawBytes : Nat
  totalVbytes : Nat
  limits : MempoolLimits
  fingerprintCache : Option MempoolFingerprintCache

/-- The largest machine word. -/
def usizeMax : Nat := 2 ^ 64 - 1

/-- Addition of machine words that stops at the largest one. -/
def addUsize (left right : Nat) : Nat :=
  min (left + right) usizeMax

namespace Mempool

def withLimits (limits : MempoolLimits) : Mempool :=
  ⟨∅, ∅, ∅, ∅, ∅, 0, 0, 0, limits.normalized, none⟩

def new : Mempool :=
  ⟨∅, ∅, ∅, ∅, ∅, 0, 0, 0, .default, none⟩

/-- The entries by ascending identifiers. -/
def entriesInOrder (pool : Mempool) : List MempoolEntry :=
  pool.entries.toList.map Prod.snd

def wouldExceedLimits (pool : Mempool) (entry : MempoolEntry) : Bool :=
  pool.limits.maxTransactions ≤ pool.entries.size ||
    pool.limits.maxVbytes < addUsize pool.totalVbytes entry.vsizeBytes

/-- Reserve one key after the other; when one is taken already, those of `inserted` are given
back, the last one first. -/
def reserveKeys (spent : Std.TreeSet UtxoKey) (inserted : List UtxoKey) :
    List UtxoKey → Except ValidationError Unit × Std.TreeSet UtxoKey
  | [] => (.ok (), spent)
  | key :: rest =>
      if spent.contains key then
        (.error .mempoolConflict, inserted.reverse.foldl Std.TreeSet.erase spent)
      else reserveKeys (spent.insert key) (inserted ++ [key]) rest

def reserveInputs (pool : Mempool) (entry : MempoolEntry) :
    Except ValidationError Unit × Mempool :=
  let (result, spent) := reserveKeys pool.spentInputs [] entry.inputKeys
  (result, { pool with spentInputs := spent })

def releaseInputs (pool : Mempool) (entry : MempoolEntry) : Mempool :=
  { pool with spentInputs := entry.inputKeys.foldl Std.TreeSet.erase pool.spentInputs }

def invalidateFingerprint (pool : Mempool) : Mempool :=
  { pool with fingerprintCache := none }

def resetDerivedState (pool : Mempool) : Mempool :=
  { pool with
    miningOrder := ∅
    parentsByTxid := ∅
    childrenByTxid := ∅
    spentInputs := ∅
    totalFeeAtoms := 0
    totalRawBytes := 0
    totalVbytes := 0 }

/-- The transactions in the pool that an entry spends from. -/
def parentsInPool (pool : Mempool) (entry : MempoolEntry) : List (Bytes 48) :=
  (entry.transaction.inputs.map TxInput.previousTxid).filter pool.entries.contains

def linkRelations (pool : Mempool) (txid : Bytes 48) (entry : MempoolEntry) : Mempool :=
  let (parents, children) := KeyRelation.link (pool.parentsByTxid, pool.childrenByTxid) txid
    (pool.parentsInPool entry)
  { pool with parentsByTxid := parents, childrenByTxid := children }

def unlinkRelations (pool : Mempool) (txid : Bytes 48) : Mempool :=
  let (parents, children) := KeyRelation.unlink (pool.parentsByTxid, pool.childrenByTxid) txid
  { pool with parentsByTxid := parents, childrenByTxid := children }

/-- Add an entry to the totals and to the mining order. -/
def countEntry (pool : Mempool) (entry : MempoolEntry) : Mempool :=
  { pool with
    totalFeeAtoms := pool.totalFeeAtoms.saturatingAdd entry.feeAtoms
    totalRawBytes := addUsize pool.totalRawBytes entry.rawSizeBytes
    totalVbytes := addUsize pool.totalVbytes entry.vsizeBytes
    miningOrder := pool.miningOrder.insert (.ofEntry entry) }

/-- Take the inputs of an entry, whoever else has them. -/
def takeInputs (pool : Mempool) (entry : MempoolEntry) : Mempool :=
  { pool with spentInputs := entry.inputKeys.foldl Std.TreeSet.insert pool.spentInputs }

def rebuildDerivedStateFromEntries (pool : Mempool) : Mempool :=
  let counted := pool.entriesInOrder.foldl
    (fun pool entry => (pool.countEntry entry).takeInputs entry) pool.resetDerivedState
  counted.entries.toList.foldl (fun pool filed => pool.linkRelations filed.1 filed.2) counted

def insertEntry (pool : Mempool) (txid : Bytes 48) (entry : MempoolEntry) : Mempool :=
  let linked := (pool.countEntry entry).linkRelations txid entry
  { linked with entries := linked.entries.insert txid entry }

def removeEntry (pool : Mempool) (txid : Bytes 48) : Option (MempoolEntry × Mempool) :=
  pool.entries[txid]?.map fun entry =>
    let unlinked := { pool with entries := pool.entries.erase txid }.unlinkRelations entry.txid
    (entry, { unlinked with
      miningOrder := unlinked.miningOrder.erase (.ofEntry entry)
      totalFeeAtoms := unlinked.totalFeeAtoms.saturatingSub entry.feeAtoms
      totalRawBytes := unlinked.totalRawBytes - entry.rawSizeBytes
      totalVbytes := unlinked.totalVbytes - entry.vsizeBytes })

section

variable (crypto : Crypto)

def validateEntry (pool : Mempool) (entry : MempoolEntry) (network : Network)
    (spendHeight : UInt64) (lookup : UtxoKey → Option UtxoEntry) :
    Except ValidationError UInt64 := do
  let fee ← validateTransactionWithContextForMempool crypto entry.transaction entry.feeAtoms
    network spendHeight lookup
  rejectWhen (entry.inputKeys.any pool.spentInputs.contains) .mempoolConflict
  pure fee

def admitEntry (pool : Mempool) (entry : MempoolEntry) (network : Network) (spendHeight : UInt64)
    (lookup : UtxoKey → Option UtxoEntry) : Except ValidationError (Bytes 48) × Mempool :=
  if pool.entries.contains entry.txid then (.error .mempoolConflict, pool)
  else if pool.wouldExceedLimits entry then (.error .mempoolConflict, pool)
  else
    match pool.validateEntry crypto entry network spendHeight lookup with
    | .error err => (.error err, pool)
    | .ok _ =>
        match pool.reserveInputs entry with
        | (.error err, pool) => (.error err, pool)
        | (.ok _, pool) =>
            (.ok entry.txid, (pool.insertEntry entry.txid entry).invalidateFingerprint)

/-- Keep an entry that is still valid and free of conflicts with those kept before it. -/
def keepValid (network : Network) (spendHeight : UInt64) (lookup : UtxoKey → Option UtxoEntry)
    (pool : Mempool) (filed : Bytes 48 × MempoolEntry) : Mempool :=
  match pool.validateEntry crypto filed.2 network spendHeight lookup with
  | .error _ => pool
  | .ok _ =>
      match pool.reserveInputs filed.2 with
      | (.error _, pool) => pool
      | (.ok _, pool) => { pool with entries := pool.entries.insert filed.1 filed.2 }

def revalidate (pool : Mempool) (network : Network) (spendHeight : UInt64)
    (lookup : UtxoKey → Option UtxoEntry) : Mempool :=
  let kept := pool.entries.toList.foldl (keepValid crypto network spendHeight lookup)
    { pool with entries := ∅ }.resetDerivedState
  kept.rebuildDerivedStateFromEntries.invalidateFingerprint

/-- Drop a transaction that was confirmed, and tell whether it was there. -/
def removeConfirmed (state : Bool × Mempool) (txid : Bytes 48) : Bool × Mempool :=
  match state.2.removeEntry txid with
  | none => state
  | some (entry, pool) => (true, pool.releaseInputs entry)

def removeBlockTransactions (pool : Mempool) (block : Block) : Mempool :=
  let (removedAny, pool) :=
    (block.transactions.map (Transaction.txid crypto)).foldl removeConfirmed (false, pool)
  if removedAny then pool.invalidateFingerprint else pool

/-! The fingerprint. -/

def freshFingerprint (pool : Mempool) (network : Network) : Bytes 32 :=
  crypto.sha3_256 (ascii network.id ++ be64 (UInt64.ofNat pool.entries.size) ++
    be64 pool.totalFeeAtoms ++ pool.entries.keys.flatMap Bytes.toList ++
    pool.spentInputs.toList.flatMap fun key => key.txid.toList ++ be32 key.outputIndex)

/-- The fingerprint, from the cache when that was made for the same network. -/
def fingerprint (pool : Mempool) (network : Network) : Bytes 32 × Mempool :=
  match pool.fingerprintCache.filter (·.network = network) with
  | some cache => (cache.fingerprint, pool)
  | none =>
      let fingerprint := pool.freshFingerprint crypto network
      (fingerprint, { pool with fingerprintCache := some ⟨network, fingerprint⟩ })

end

end Mempool

end Atho
