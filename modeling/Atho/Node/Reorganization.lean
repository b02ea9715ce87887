import Atho.Library.Provenance
import Atho.Node.Node
import Atho.Node.PoolConsistency

/-! The mempool across a reorganization: what becomes of the entries, and of the
transactions of the blocks that were disconnected. -/

namespace Atho

namespace Node

variable {σ : Type} {crypto : Crypto} {chainstate : Chainstate σ} {pool : Mempool}

/-- The entry of a transaction at the tip of a chainstate. -/
structure EntryAt (crypto : Crypto) (chainstate : Chainstate σ) (tx : Transaction)
    (entry : MempoolEntry) : Prop where
  fee : transactionFeeFromLookup tx chainstate.utxos.get = some entry.feeAtoms
  entry_eq : entry = .new crypto tx entry.feeAtoms

/-- An entry that the pool would validate at the tip. -/
abbrev ValidAt (crypto : Crypto) (chainstate : Chainstate σ) (entry : MempoolEntry) : Prop :=
  Mempool.ValidEntry crypto chainstate.network chainstate.height chainstate.utxos.get entry

abbrev AdmissibleAt (crypto : Crypto) (chainstate : Chainstate σ) (pool : Mempool)
    (entry : MempoolEntry) : Prop :=
  pool.Admissible crypto entry chainstate.network chainstate.height chainstate.utxos.get

theorem reoffer_cases (crypto : Crypto) (chainstate : Chainstate σ) (pool : Mempool)
    (tx : Transaction) :
    (∃ entry, EntryAt crypto chainstate tx entry ∧ AdmissibleAt crypto chainstate pool entry ∧
      reoffer crypto chainstate pool tx = pool.accept entry) ∨
    ((∀ entry, EntryAt crypto chainstate tx entry →
        ¬AdmissibleAt crypto chainstate pool entry) ∧
      reoffer crypto chainstate pool tx = pool) := by
  rw [reoffer]
  split
  · next hfee =>
      refine .inr ⟨fun entry hentry => ?_, rfl⟩
      rw [hentry.fee] at hfee
      cases hfee
  · next feeAtoms hfee =>
      have hunique : ∀ entry, EntryAt crypto chainstate tx entry →
          entry = .new crypto tx feeAtoms := by
        intro entry hentry
        have heq := hentry.fee
        rw [hfee, Option.some.injEq] at heq
        rw [hentry.entry_eq, ← heq]
      rcases Mempool.admit_cases crypto pool (.new crypto tx feeAtoms) chainstate.network
        chainstate.height chainstate.utxos.get with ⟨hadmissible, heq⟩ | ⟨hrefused, err, heq⟩
      · exact .inl ⟨_, ⟨hfee, rfl⟩, hadmissible, by rw [heq]⟩
      · refine .inr ⟨fun entry hentry => ?_, by rw [heq]⟩
        rw [hunique entry hentry]
        exact hrefused

theorem consistent_reoffer (hpool : pool.Consistent crypto) (tx : Transaction) :
    (reoffer crypto chainstate pool tx).Consistent crypto := by
  rw [reoffer]
  split
  · exact hpool
  · exact hpool.call (.admitEntry _ _ _ _)

theorem consistent_foldl_reoffer (hpool : pool.Consistent crypto) (txs : List Transaction) :
    (txs.foldl (reoffer crypto chainstate) pool).Consistent crypto := by
  induction txs generalizing pool with
  | nil => exact hpool
  | cons tx txs ih => exact ih (consistent_reoffer hpool tx)

theorem consistent_removeBranch (hpool : pool.Consistent crypto) (branch : List Block) :
    (branch.foldl (Mempool.removeBlockTransactions crypto) pool).Consistent crypto := by
  induction branch generalizing pool with
  | nil => exact hpool
  | cons block branch ih => exact ih (hpool.call (.removeBlockTransactions block))

theorem EntryAt.unique {tx : Transaction} {entry other : MempoolEntry}
    (hentry : EntryAt crypto chainstate tx entry) (hother : EntryAt crypto chainstate tx other) :
    entry = other := by
  have hfee := hentry.fee
  rw [hother.fee, Option.some.injEq] at hfee
  rw [hentry.entry_eq, hother.entry_eq, hfee]

theorem mem_reoffer {tx : Transaction} {txid : Bytes 48} {entry : MempoolEntry} :
    (reoffer crypto chainstate pool tx).entries[txid]? = some entry ↔
      pool.entries[txid]? = some entry ∨ (EntryAt crypto chainstate tx entry ∧
        AdmissibleAt crypto chainstate pool entry ∧ entry.txid = txid) := by
  rcases reoffer_cases crypto chainstate pool tx with
    ⟨accepted, haccepted, hadmissible, heq⟩ | ⟨hrefused, heq⟩
  · have hlookup : (reoffer crypto chainstate pool tx).entries[txid]? =
        if accepted.txid = txid then some accepted else pool.entries[txid]? := by
      rw [heq]
      change (pool.entries.insert accepted.txid accepted)[txid]? = _
      rw [Std.TreeMap.getElem?_insert]
      simp
    rw [hlookup]
    split
    · next htxid =>
        subst htxid
        rw [hadmissible.fresh]
        constructor
        · rintro ⟨⟩
          exact .inr ⟨haccepted, hadmissible, rfl⟩
        · rintro (habsurd | ⟨hentry, -, -⟩)
          · cases habsurd
          · rw [hentry.unique haccepted]
    · next htxid =>
        refine ⟨.inl, fun hmem => hmem.resolve_right fun hnew => htxid ?_⟩
        rw [haccepted.unique hnew.1, hnew.2.2]
  · rw [heq]
    exact ⟨.inl, fun hmem => hmem.resolve_right fun hnew => hrefused entry hnew.1 hnew.2.1⟩

/-- What stands in the pool after the transactions were offered: what stood there before,
and each transaction that was admissible at its turn. -/
theorem mem_foldl_reoffer {txs : List Transaction} {txid : Bytes 48} {entry : MempoolEntry} :
    (txs.foldl (reoffer crypto chainstate) pool).entries[txid]? = some entry ↔
      pool.entries[txid]? = some entry ∨
        ∃ before tx behind, txs = before ++ tx :: behind ∧ EntryAt crypto chainstate tx entry ∧
          AdmissibleAt crypto chainstate (before.foldl (reoffer crypto chainstate) pool) entry ∧
          entry.txid = txid :=
  @holds_foldl_iff _ _ (reoffer crypto chainstate)
    (fun pool => pool.entries[txid]? = some entry)
    (fun pool tx => EntryAt crypto chainstate tx entry ∧
      AdmissibleAt crypto chainstate pool entry ∧ entry.txid = txid)
    (fun _ _ => mem_reoffer) txs pool

/-! The whole call. -/

theorem mem_revalidateMempoolIfNeeded {node : Node σ} (hpool : node.mempool.Consistent crypto)
    {txid : Bytes 48} {entry : MempoolEntry} :
    (node.revalidateMempoolIfNeeded crypto).mempool.entries[txid]? = some entry ↔
      node.mempool.entries[txid]? = some entry ∧ ValidAt crypto node.chainstate entry := by
  rw [revalidateMempoolIfNeeded]
  split
  · next hempty =>
      have hnone : node.mempool.entries[txid]? = none :=
        Std.TreeMap.getElem?_of_isEmpty hempty
      simp [hnone]
  · obtain ⟨-, -, -, hentries⟩ := Mempool.revalidate_spec hpool.toSeparate
    exact hentries txid entry

theorem chainstate_revalidateMempoolIfNeeded (crypto : Crypto) (node : Node σ) :
    (node.revalidateMempoolIfNeeded crypto).chainstate = node.chainstate := by
  rw [revalidateMempoolIfNeeded]
  split <;> rfl

/-- The pool that is left when the transactions of a branch are taken out. -/
def confirmedPool (crypto : Crypto) (node : Node σ) (branch : List Block) : Mempool :=
  branch.foldl (Mempool.removeBlockTransactions crypto) node.mempool

variable {host : Host σ} {now : UInt64} {node next : Node σ} {branch : List Block}
  {selection : ChainSelectionResult}

theorem considerBranch_reorged
    (hconsider : node.considerBranch host now branch = (.ok selection, next))
    (hreorged : selection.outcome = .reorged) :
    next = revalidateMempoolIfNeeded host.crypto ⟨next.chainstate,
      (disconnectedTransactions selection.disconnected).foldl
        (reoffer host.crypto next.chainstate) (node.confirmedPool host.crypto branch)⟩ := by
  rw [considerBranch] at hconsider
  split at hconsider
  · cases hconsider
  · next chosen chainstate hselect =>
      dsimp only at hconsider
      split at hconsider
      · next hkept =>
          cases hconsider
          rw [hreorged] at hkept
          cases hkept
      · obtain ⟨hchosen, hnext⟩ := Prod.mk.inj hconsider
        cases hchosen
        rw [if_pos hreorged] at hnext
        have hchain := congrArg Node.chainstate hnext
        rw [chainstate_revalidateMempoolIfNeeded] at hchain
        subst hchain
        exact hnext.symm

/-- A transaction of a disconnected block that could be spent again: it is valid at the
new tip, the branch does not confirm it, no entry of the pool spends its inputs, and the
pool has room for it. -/
structure Spendable (crypto : Crypto) (branch disconnected : List Block) (next : Node σ)
    (tx : Transaction) (entry : MempoolEntry) : Prop where
  disconnected : tx ∈ disconnectedTransactions disconnected
  entryAt : EntryAt crypto next.chainstate tx entry
  valid : ValidAt crypto next.chainstate entry
  unconfirmed : ∀ block ∈ branch,
    tx.txid crypto ∉ block.transactions.map (Transaction.txid crypto)
  compatible : ∀ (txid : Bytes 48) (other : MempoolEntry),
    next.mempool.entries[txid]? = some other → txid ≠ tx.txid crypto →
      ∀ key ∈ entry.inputKeys, key ∉ other.inputKeys
  count : next.mempool.entries.size < next.mempool.limits.maxTransactions
  vbytes : next.mempool.sum .vbytes + entry.vsizeBytes ≤ next.mempool.limits.maxVbytes

/-- There is a place for a transaction, in the pool that still holds what revalidation
will drop: a valid entry of its identifier, or room at the turn of a disconnected
transaction of that identifier. -/
def FindsPlace (crypto : Crypto) (chainstate : Chainstate σ) (pool : Mempool)
    (disconnected : List Block) (txid : Bytes 48) : Prop :=
  (∃ entry, pool.entries[txid]? = some entry ∧ ValidAt crypto chainstate entry) ∨
    ∃ before tx behind entry, disconnectedTransactions disconnected = before ++ tx :: behind ∧
      EntryAt crypto chainstate tx entry ∧
      AdmissibleAt crypto chainstate (before.foldl (reoffer crypto chainstate) pool) entry ∧
      entry.txid = txid

/-! The pool of a node over a run. -/

theorem consistent_revalidateMempoolIfNeeded {node : Node σ}
    (hpool : node.mempool.Consistent crypto) :
    (node.revalidateMempoolIfNeeded crypto).mempool.Consistent crypto := by
  rw [revalidateMempoolIfNeeded]
  split
  · exact hpool
  · exact hpool.call (.revalidate _ _ _)

theorem consistent_call (hpool : node.mempool.Consistent host.crypto) (step : Call) :
    (node.call host step).mempool.Consistent host.crypto := by
  cases step with
  | importSnapshotBundle bundle =>
      rw [call, importSnapshotBundle]
      split
      · exact hpool
      · exact consistent_revalidateMempoolIfNeeded hpool
  | connectBlock now block =>
      rw [call, connectBlock]
      split
      · exact hpool
      · exact hpool
      · exact consistent_revalidateMempoolIfNeeded
          (hpool.call (.removeBlockTransactions block))
  | admitTransaction entry =>
      have hadmit := hpool.call (.admitEntry entry node.chainstate.network
        node.chainstate.height node.chainstate.utxos.get)
      rw [call, admitTransaction]
      rw [Mempool.call] at hadmit
      split <;> next heq => rwa [heq] at hadmit
  | considerBranch now branch =>
      rw [call, considerBranch]
      split
      · exact hpool
      · dsimp only
        split
        · exact hpool
        · refine consistent_revalidateMempoolIfNeeded ?_
          dsimp only
          split
          · exact consistent_foldl_reoffer (consistent_removeBranch hpool branch) _
          · exact consistent_removeBranch hpool branch

theorem consistent_run (hpool : node.mempool.Consistent host.crypto) (calls : List Call) :
    (node.run host calls).mempool.Consistent host.crypto := by
  induction calls generalizing node with
  | nil => exact hpool
  | cons step calls ih => exact ih (consistent_call hpool step)

theorem mem_considerBranch (hpool : node.mempool.Consistent host.crypto)
    (hconsider : node.considerBranch host now branch = (.ok selection, next))
    (hreorged : selection.outcome = .reorged) {txid : Bytes 48} {entry : MempoolEntry} :
    next.mempool.entries[txid]? = some entry ↔
      ((disconnectedTransactions selection.disconnected).foldl
        (reoffer host.crypto next.chainstate)
          (node.confirmedPool host.crypto branch)).entries[txid]? = some entry ∧
        ValidAt host.crypto next.chainstate entry := by
  rw [considerBranch_reorged hconsider hreorged,
    mem_revalidateMempoolIfNeeded (consistent_foldl_reoffer (consistent_removeBranch hpool branch) _),
    chainstate_revalidateMempoolIfNeeded]

theorem entry_iff_findsPlace (hpool : node.mempool.Consistent host.crypto)
    (hconsider : node.considerBranch host now branch = (.ok selection, next))
    (hreorged : selection.outcome = .reorged) {txid : Bytes 48} :
    next.mempool.entries[txid]? ≠ none ↔ FindsPlace host.crypto next.chainstate
      (node.confirmedPool host.crypto branch) selection.disconnected txid := by
  rw [Option.ne_none_iff_exists']
  simp only [mem_considerBranch hpool hconsider hreorged, mem_foldl_reoffer]
  constructor
  · rintro ⟨entry, hstood | ⟨before, tx, behind, hsplit, hentry, hadmissible, htxid⟩, hvalid⟩
    · exact .inl ⟨entry, hstood, hvalid⟩
    · exact .inr ⟨before, tx, behind, entry, hsplit, hentry, hadmissible, htxid⟩
  · rintro (⟨entry, hstood, hvalid⟩ | ⟨before, tx, behind, entry, hsplit, hentry, hadmissible, htxid⟩)
    · exact ⟨entry, .inl hstood, hvalid⟩
    · exact ⟨entry, .inr ⟨before, tx, behind, hsplit, hentry, hadmissible, htxid⟩,
        hadmissible.valid⟩

/-- A payment from one output of the example wallet's first address. -/
def sealedPayment (previousTxid : Bytes 48) (output : TxOutput) (commitRef : Bytes 16)
    (digest sigRefShort : Nat) (nonce : UInt64) : Transaction where
  version := 1
  inputs := [⟨previousTxid, 0, payingLock.toList⟩]
  outputs := [output]
  lockTime := 0
  witness := TxWitness.canonicalBytes
    ⟨sealedSignature Mempool.payingSecret.toList (.ofNat 48 digest),
      Mempool.payingSecret.toList ++ List.replicate 849 0,
      [⟨0, .ofNat 2 sigRefShort, commitRef⟩], []⟩
  txPowNonce := nonce
  txPowBits := 12

/-- The payment as its block carries it. -/
def parentPayment : Transaction :=
  sealedPayment (.zero 48) ⟨900000, payingLock.toList⟩
    (.ofNat 16 0x839f05316514416983f570583daad299)
    0xa0268ffee0dc7b3bd911328c3140c06d1fe974c530ae7f32b15468b56693f14b0794f05e38def1154ef43fb5f3cc1927
    0x7c2a 2697

def childPayment : Transaction :=
  sealedPayment (parentPayment.txid .hashing) ⟨800000, beBytes 32 7⟩ (.zero 16)
    0x5d31ef266ebc9de8a6d7c4210dbca7e2d7c476555e68dca8da06567cd29ae0f321142ef8e141a2a507e6c80243d994f8
    0x8775 3595

def sealingHost : Host Unit :=
  { Chainstate.exampleHost with crypto := sealingSha3.toCrypto }

/-- A bundle of the genesis block with one coin of the wallet. -/
def fundedBundle : ChainSnapshotBundle where
  snapshot := ⟨0, genesisHash .hashing .testnet, some (genesisBlock .hashing .testnet).header⟩
  utxos := [⟨.testnet, .zero 48, 0, 1000000, payingLock.toList, 0, false⟩]
  blocks := [genesisBlock .hashing .testnet]

def parentBlock : Block where
  header :=
    { (genesisBlock .hashing .testnet).header with
      height := 1
      previousBlockHash := genesisHash .hashing .testnet
      merkleRoot := .ofNat 48
        0xcbefdb377e77bafd99a1634908c63f9437ae863ba67d3e17a91a78084fff92551e8aaa968b0058291b5feb577317299e
      witnessRoot := .ofNat 48
        0x45e8803c2ec15ffdb703b59aa313330eb593b7cf4443f04b19b543eca35a9894b2f01f984e0a38a0a77e84527e9e4cb4
      timestamp := 1773360589
      nonce := 23496 }
  transactions :=
    [{ version := 1, inputs := [], outputs := [⟨5000100000, List.replicate 32 1⟩], lockTime := 0,
       witness := [], txPowNonce := 0, txPowBits := 0 },
      parentPayment]

/-- Two blocks that replace it, with nothing but their rewards. -/
def barrenBranch : List Block :=
  [rewardBlock .testnet 1 (List.replicate 32 2) 1773360589 27523 (2 ^ 368 - 1)
      0x00000e524958487f70cfe350a65093d40e70bd15e2611451995c59c0d5b126e1aea7f51c4b099ea2393e9cfff45f9eb9,
    rewardBlock .testnet 2 (List.replicate 32 3) 1773360689 16631 (2 ^ 368 - 1)
      0x0000eab1c699b553582da852141ce1b69110a6591d4196c26d5f52618f434ff703b6487e457021596ebcef7743807dd4]

/-- A node with the parent in its chain and the child in its pool, which takes so many
transactions. -/
def childNode (maxTransactions : Nat) : Node Unit :=
  run sealingHost ⟨.fresh sealingHost .testnet, .withLimits ⟨maxTransactions, 1000000⟩⟩
    [.importSnapshotBundle fundedBundle, .connectBlock 1773361000 parentBlock,
      .admitTransaction (.new sealingSha3.toCrypto childPayment 100000)]

/-- Where the child fills the pool, the parent is refused, and the child is dropped
after that. -/
theorem childNode_considerBranch :
    ∃ next : Node Unit,
      (childNode 1).considerBranch sealingHost 1773361000 barrenBranch =
        (.ok ⟨.reorged, [parentBlock]⟩, next) ∧
      next.mempool.entries.isEmpty = true ∧
      Spendable sealingHost.crypto barrenBranch [parentBlock] next parentPayment
        (.new sealingHost.crypto parentPayment 100000) := by
  have hrun : let run := (childNode 1).considerBranch sealingHost 1773361000 barrenBranch
      run.1 = .ok ⟨.reorged, [parentBlock]⟩ ∧ run.2.mempool.entries.isEmpty = true ∧
      run.2.mempool.entries.size = 0 ∧ run.2.mempool.limits = ⟨1, 1000000⟩ ∧
      run.2.mempool.sum .vbytes = 0 ∧
      transactionFeeFromLookup parentPayment run.2.chainstate.utxos.get = some 100000 ∧
      validateTransactionWithContextForMempool sealingHost.crypto parentPayment 100000
        run.2.chainstate.network run.2.chainstate.height run.2.chainstate.utxos.get =
          .ok 100000 ∧
      (MempoolEntry.new sealingHost.crypto parentPayment 100000).vsizeBytes ≤ 1000000 ∧
      ∀ block ∈ barrenBranch, parentPayment.txid sealingHost.crypto ∉
        block.transactions.map (Transaction.txid sealingHost.crypto) := by
    decide +kernel
  generalize (childNode 1).considerBranch sealingHost 1773361000 barrenBranch = run at hrun ⊢
  obtain ⟨result, next⟩ := run
  obtain ⟨rfl, hempty, hsize, hlimits, hsum, hfee, hvalid, hfits, hunconfirmed⟩ := hrun
  refine ⟨next, rfl, hempty, ⟨?_, ⟨hfee, rfl⟩, ⟨_, hvalid⟩, hunconfirmed, ?_, ?_, ?_⟩⟩
  · simp [disconnectedTransactions, parentBlock]
  · intro txid other hother
    rw [Std.TreeMap.getElem?_of_isEmpty hempty] at hother
    cases hother
  · rw [hlimits, hsize]
    exact Nat.zero_lt_one
  · rw [hlimits, hsum, Nat.zero_add]
    exact hfits

end Node

end Atho
