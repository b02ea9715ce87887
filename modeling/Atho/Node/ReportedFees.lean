import Atho.P2p.Protocol
import Atho.Storage.Image

/-! The fees that the block archive reports. They come in beside a block, and are filed
with its record. -/

namespace Atho

/-- What one transaction puts in over what it pays out, against the set it is applied to. -/
def UtxoSet.transactionFee (set : UtxoSet) (tx : Transaction) : Int :=
  (tx.inputs.map fun input =>
      ((set.get input.key).elim 0 fun entry => entry.valueAtoms.toNat : Int)).sum -
    (tx.outputs.map fun output => (output.valueAtoms.toNat : Int)).sum

/-- The fees of the transactions other than coinbases, each against the set that those
before it leave. -/
def UtxoSet.feesFrom (crypto : Crypto) (height : UInt64) (set : UtxoSet) :
    List Transaction → Int
  | [] => 0
  | tx :: rest =>
      (if tx.isCoinbase then 0 else set.transactionFee tx) +
        feesFrom crypto height (set.applyTransaction crypto height ⟨[], []⟩ tx).2 rest

def UtxoSet.blockFees (crypto : Crypto) (set : UtxoSet) (block : Block) : Int :=
  set.feesFrom crypto block.header.height block.transactions

/-- The fee fields of an archive record. -/
structure RecordFees where
  total : UInt64
  miner : UInt64
  deriving DecidableEq

def RelayBlock.recordFees (block : RelayBlock) : RecordFees :=
  ⟨block.feesTotalAtoms, block.feesMinerAtoms⟩

/-- A chainstate with its database; `fees` are the fee fields of the record that is filed
under a hash. -/
structure FeeChainstate where
  state : Chainstate Database
  fees : Bytes 48 → RecordFees

theorem Tables.mem_markPruned {tables : Tables} {blockHash : Bytes 48}
    (records : List BlockArchiveRecord) (hmem : blockHash ∈ tables.blocks) :
    blockHash ∈ (tables.markPruned records).blocks := by
  induction records using List.reverseRecOn with
  | nil => exact hmem
  | append_singleton records record ih =>
      simp only [markPruned, List.foldl_append, List.foldl_cons, List.foldl_nil,
        Finmap.mem_insert]
      exact .inr ih

namespace Chainstate

def archived (state : Chainstate Database) (blockHash : Bytes 48) : Bool :=
  state.storage.any fun db => (db.tables.blocks.lookup blockHash).isSome

variable {crypto : Crypto} {target : Option Nat} {pruneDepth reorgDepth : Option UInt64}
  {now : UInt64} {state next : Chainstate Database} {db : Database} {block : Block}

theorem archived_of_storage (hstorage : state.storage = some db) (blockHash : Bytes 48) :
    state.archived blockHash = (db.tables.blocks.lookup blockHash).isSome := by
  simp [archived, hstorage]

theorem connectBlock_commits (hstorage : state.storage = some db)
    (hconnect : state.connectBlock (Database.host crypto target pruneDepth reorgDepth) now block =
      (.ok (), next)) :
    ∃ snapshot written stored,
      Database.Commits crypto snapshot none db written (some (block.header.height, block)) ∧
        written.Prunes target stored ∧ next.storage = some stored := by
  unfold connectBlock at hconnect
  split at hconnect
  · cases hconnect
  · split at hconnect
    · cases hconnect
    · next undo utxos happly =>
        dsimp only at hconnect
        split at hconnect
        · cases hconnect
        · next persisted hpersist =>
            obtain ⟨written, hcommit, rfl⟩ := persist_eq hstorage hpersist
            cases hconnect
            obtain ⟨stored, hprune, hpruned⟩ := pruneHistory_stored crypto target pruneDepth
              reorgDepth (state.pushBlock crypto block undo utxos) written
              (state.history ++ [.connected block])
            exact ⟨_, written, stored, Database.commitChainstate_ok hcommit, hprune,
              congrArg Chainstate.storage hpruned⟩

theorem archived_of_connectBlock (hstorage : state.storage = some db)
    (hconnect : state.connectBlock (Database.host crypto target pruneDepth reorgDepth) now block =
      (.ok (), next)) :
    next.archived (block.header.blockHash crypto) = true := by
  obtain ⟨snapshot, written, stored, hcommits, hprunes, hstored⟩ :=
    connectBlock_commits hstorage hconnect
  obtain ⟨-, records, htables, -⟩ := hprunes.frame
  rw [archived_of_storage hstored, Finmap.lookup_isSome, htables]
  refine Tables.mem_markPruned records ?_
  rw [← Finmap.lookup_isSome]
  cases hcommits with
  | known _ hexisting _ hwritten => simp [hwritten, hexisting]
  | fresh _ _ _ _ hwritten _ => simp [hwritten, Tables.withBlock]

end Chainstate

namespace FeeChainstate

/-- No check reads the fees. The record that the commit writes takes them from the block,
and a record that is there already stays as it is. -/
def connectBlock (host : Host Database) (now : UInt64) (chain : FeeChainstate)
    (block : RelayBlock) : Except StorageError Unit × FeeChainstate :=
  let blockHash := block.header.blockHash host.crypto
  let (result, next) := chain.state.connectBlock host now block.toBlock
  let written := !chain.state.archived blockHash && next.archived blockHash
  (result, ⟨next, if written then Function.update chain.fees blockHash block.recordFees
    else chain.fees⟩)

/-- The fees of the record under a hash. -/
def recordFees (chain : FeeChainstate) (blockHash : Bytes 48) : Option RecordFees :=
  if chain.state.archived blockHash then some (chain.fees blockHash) else none

/-- Raw or rebuilt, a loaded block gets the fees of its record. -/
def loadBlock (crypto : Crypto) (chain : FeeChainstate) (blockHash : Bytes 48) :
    Except StorageError (Option RelayBlock) :=
  match chain.state.storage with
  | none => .ok none
  | some db =>
      (db.loadBlock crypto blockHash).map (Option.map fun block =>
        ⟨block, (chain.fees blockHash).total, (chain.fees blockHash).miner⟩)

/-- What the archive reports under a hash is what the block of that hash pays. -/
def Reports (crypto : Crypto) (chain : FeeChainstate) (blockHash : Bytes 48) (paid : Int) :
    Prop :=
  (chain.recordFees blockHash).map (fun fees => (fees.total.toNat : Int)) = some paid ∧
    ∀ loaded, chain.loadBlock crypto blockHash = .ok (some loaded) →
      (loaded.feesTotalAtoms.toNat : Int) = paid

variable {crypto : Crypto} {target : Option Nat} {pruneDepth reorgDepth : Option UInt64}
  {now : UInt64} {chain next : FeeChainstate} {block : RelayBlock}

theorem fees_of_connectBlock (hstorage : chain.state.storage.isSome)
    (hconnect : chain.connectBlock (Database.host crypto target pruneDepth reorgDepth) now
      block = (.ok (), next)) :
    next.state.archived (block.header.blockHash crypto) = true ∧
      next.fees (block.header.blockHash crypto) =
        if chain.state.archived (block.header.blockHash crypto) then
          chain.fees (block.header.blockHash crypto)
        else block.recordFees := by
  obtain ⟨db, hdb⟩ := Option.isSome_iff_exists.mp hstorage
  simp only [connectBlock, Prod.mk.injEq] at hconnect
  obtain ⟨hresult, rfl⟩ := hconnect
  have harchived := Chainstate.archived_of_connectBlock hdb
    (Prod.ext hresult rfl : _ = (Except.ok (), _))
  refine ⟨harchived, ?_⟩
  have hcrypto : (Database.host crypto target pruneDepth reorgDepth).crypto = crypto := rfl
  simp only [hcrypto, harchived, Bool.and_true, Bool.not_eq_true']
  cases chain.state.archived (block.header.blockHash crypto) <;> simp

theorem feesTotalAtoms_of_loadBlock {blockHash : Bytes 48} {loaded : RelayBlock}
    (hload : chain.loadBlock crypto blockHash = .ok (some loaded)) :
    loaded.feesTotalAtoms = (chain.fees blockHash).total := by
  unfold loadBlock at hload
  split at hload
  · cases hload
  · next db hdb =>
      cases hfound : db.loadBlock crypto blockHash with
      | error err => simp [hfound, Except.map] at hload
      | ok found =>
          cases found with
          | none => simp [hfound, Except.map] at hload
          | some block =>
              simp only [hfound, Except.map, Option.map_some, Except.ok.injEq,
                Option.some.injEq] at hload
              rw [← hload]

theorem reports_iff {blockHash : Bytes 48} {paid : Int}
    (harchived : chain.state.archived blockHash = true) :
    chain.Reports crypto blockHash paid ↔ ((chain.fees blockHash).total.toNat : Int) = paid := by
  constructor
  · rintro ⟨hrecord, -⟩
    simpa [recordFees, harchived] using hrecord
  · intro hpaid
    refine ⟨by simpa [recordFees, harchived] using hpaid, fun loaded hload => ?_⟩
    rw [feesTotalAtoms_of_loadBlock hload, hpaid]

/-- The archive reports the fees of an accepted block exactly when the record that it had
already says them, or when it had none and the sender of the block says them. -/
theorem reports_paid_fees_iff (crypto : Crypto) (target : Option Nat)
    (pruneDepth reorgDepth : Option UInt64) (now : UInt64) (chain next : FeeChainstate)
    (block : RelayBlock) (hstorage : chain.state.storage.isSome)
    (hconnect : chain.connectBlock (Database.host crypto target pruneDepth reorgDepth) now
      block = (.ok (), next)) :
    next.Reports crypto (block.header.blockHash crypto)
        (chain.state.utxos.blockFees crypto block.toBlock) ↔
      (((chain.recordFees (block.header.blockHash crypto)).getD block.recordFees).total.toNat
        : Int) = chain.state.utxos.blockFees crypto block.toBlock := by
  obtain ⟨harchived, hfees⟩ := fees_of_connectBlock hstorage hconnect
  rw [reports_iff harchived, hfees, recordFees]
  split <;> simp

def feeRegnet : FeeChainstate :=
  ⟨Chainstate.storedRegnet, fun _ => ⟨0, 0⟩⟩

def claimsNothing : RelayBlock := ⟨firstBlock, 0, 0⟩

def claimsSeven : RelayBlock := ⟨firstBlock, 7, 7⟩

/-- A block with a coinbase alone pays nothing, and says so. -/
theorem honest_sender_reported :
    (feeRegnet.connectBlock Chainstate.regnetHost exampleClock claimsNothing).2.Reports .hashing
      (claimsNothing.header.blockHash .hashing) 0 := by
  have hpaid : feeRegnet.state.utxos.blockFees .hashing claimsNothing.toBlock = 0 := by
    decide +kernel
  obtain ⟨hstorage, hok, hnone⟩ : feeRegnet.state.storage.isSome ∧
      (feeRegnet.connectBlock Chainstate.regnetHost exampleClock claimsNothing).1 = .ok () ∧
      feeRegnet.recordFees (claimsNothing.header.blockHash .hashing) = none := by
    decide +kernel
  generalize hrun : feeRegnet.connectBlock Chainstate.regnetHost exampleClock claimsNothing =
    run at hok ⊢
  obtain ⟨result, next⟩ := run
  subst hok
  have hiff := reports_paid_fees_iff .hashing none none none exampleClock feeRegnet next
    claimsNothing hstorage hrun
  rw [hpaid, hnone] at hiff
  exact hiff.mpr rfl

/-- The same block from a sender that makes seven atoms up is accepted, and the archive
reports them. -/
theorem made_up_fees_reported :
    feeRegnet.state.utxos.blockFees .hashing claimsSeven.toBlock = 0 ∧
    (feeRegnet.connectBlock Chainstate.regnetHost exampleClock claimsSeven).1 = .ok () ∧
    (feeRegnet.connectBlock Chainstate.regnetHost exampleClock claimsSeven).2.recordFees
      (claimsSeven.header.blockHash .hashing) = some ⟨7, 7⟩ ∧
    ((feeRegnet.connectBlock Chainstate.regnetHost exampleClock claimsSeven).2.loadBlock
      .hashing (claimsSeven.header.blockHash .hashing)).toOption = some (some claimsSeven) := by
  decide +kernel

end FeeChainstate

end Atho
