import Atho.Storage.Validation

/-! Validation of blocks: header, commitments, and the body against an overlay
of the UTXO set. -/

namespace Atho

def maxFutureBlockTimestampDriftSecs : UInt64 := 2 * 60 * 60

/-! Coinbase transactions. -/

def validateCoinbaseTransactionShapeWithSchedule (tx : Transaction) (height : UInt64)
    (schedule : List ScheduledActivation) : Except ValidationError Unit := do
  rejectWhen (!tx.isCoinbase) .invalidCoinbase
  rejectWhen (!isSupportedTransactionVersionWithSchedule tx.version height schedule)
    .invalidTransactionVersion
  match tx.outputs with
  | [output] => do
      let _ ← canonicalPaymentLock output.lockingScript
      rejectWhen (!tx.witness.isEmpty || tx.txPowNonce != 0 || tx.txPowBits != 0)
        .invalidCoinbase
  | _ => .error .invalidCoinbase

def validateCoinbaseTransactionWithSchedule (tx : Transaction) (expectedRewardAtoms : UInt64)
    (height : UInt64) (schedule : List ScheduledActivation) : Except ValidationError Unit := do
  validateCoinbaseTransactionShapeWithSchedule tx height schedule
  let outputTotal ← okOr tx.checkedOutputValueAtoms ValidationError.coinbaseRewardMismatch
  rejectWhen (outputTotal ≠ expectedRewardAtoms) .coinbaseRewardMismatch

/-! Headers and commitments. -/

def validateBlockSizeMetrics (block : Block) : Except ValidationError Unit :=
  let sizeMetrics := block.sizeMetrics
  rejectWhen (maxBlockRawBytes < sizeMetrics.rawSizeBytes ∨
    maxBlockVbytes < sizeMetrics.vsizeBytes ∨ maxBlockWeight < sizeMetrics.weightBytes)
    .blockTooLarge

def validateBlockCommonHeaderWithSchedule (block : Block) (height : UInt64)
    (network : Network) (schedule : List ScheduledActivation) : Except ValidationError Unit := do
  rejectWhen block.transactions.isEmpty .emptyBlock
  rejectWhen (!isSupportedBlockVersionWithSchedule block.header.version height schedule)
    .invalidBlockVersion
  rejectWhen (block.header.networkId ≠ network) .blockNetworkMismatch
  rejectWhen (block.header.height ≠ height) .invalidBlockHeight
  rejectWhen (block.header.timestamp = 0) .invalidBlockTimestamp

def validateBlockStaticHeaderPrecheckWithSchedule (block : Block) (height : UInt64)
    (network : Network) (schedule : List ScheduledActivation) : Except ValidationError Unit := do
  validateBlockCommonHeaderWithSchedule block height network schedule
  validateBlockSizeMetrics block
  rejectWhen (!targetWithinBounds block.header.difficultyTargetOrBits) .blockTargetOutOfBounds

/-- `now` is the clock that `current_unix_timestamp_seconds` reads. -/
def validateContextualHeaderPrecheck (crypto : Crypto) (now : UInt64) (block : Block)
    (expectedPreviousHash expectedTarget : Bytes 48) (previousBlocks : List Block) :
    Except ValidationError Unit := do
  rejectWhen (block.header.previousBlockHash ≠ expectedPreviousHash) .blockParentHashMismatch
  rejectWhen ((minimumNextBlockTimestamp previousBlocks).any fun minimum =>
    block.header.timestamp < minimum) .invalidBlockTimestamp
  rejectWhen (now.saturatingAdd maxFutureBlockTimestampDriftSecs < block.header.timestamp)
    .invalidBlockTimestamp
  rejectWhen (block.header.difficultyTargetOrBits ≠ expectedTarget) .blockTargetOutOfBounds
  rejectWhen (!meetsTarget (block.header.blockHash crypto) expectedTarget) .proofOfWorkInvalid

def validateBlockBodyCommitments (crypto : Crypto) (block : Block) :
    Except ValidationError Unit := do
  rejectWhen (block.merkleRoot crypto ≠ block.header.merkleRoot) .blockMerkleRootMismatch
  rejectWhen (block.computeWitnessRoot crypto ≠ block.header.witnessRoot)
    .blockWitnessRootMismatch

/-! Bodies. -/

def txidsAreUnique (crypto : Crypto) (transactions : List Transaction) : Bool :=
  decide (transactions.map (Transaction.txid crypto)).Nodup

def blockInputsAreUnique (transactions : List Transaction) : Bool :=
  decide (transactions.flatMap fun tx => tx.inputs.map TxInput.key).Nodup

def prepareTransactions (crypto : Crypto) (network : Network) (height : UInt64)
    (schedule : List ScheduledActivation) :
    List Transaction → Except ValidationError (List PreparedTransactionValidation)
  | [] => .ok []
  | tx :: rest => do
      let prepared ← prepareTransactionValidation crypto tx (minimumRequiredFeeAtoms network tx)
        network height schedule
      let preparedRest ← prepareTransactions crypto network height schedule rest
      pure (prepared :: preparedRest)

def collectPreparedBlockTransactionsWithSchedule (crypto : Crypto) (coinbase : Transaction)
    (rest : List Transaction) (height : UInt64) (network : Network)
    (schedule : List ScheduledActivation) :
    Except ValidationError (List PreparedTransactionValidation) := do
  validateCoinbaseTransactionShapeWithSchedule coinbase height schedule
  rejectWhen (!txidsAreUnique crypto (coinbase :: rest)) .duplicateTransactionId
  rejectWhen (!blockInputsAreUnique (coinbase :: rest)) .mempoolConflict
  prepareTransactions crypto network height schedule rest

/-- The UTXO set as the body of a block has changed it so far. An added entry
never hides one of the set that has not been removed. -/
structure UtxoOverlay where
  base : UtxoSet
  added : Finmap fun _ : UtxoKey => UtxoEntry
  removed : Finset UtxoKey
  added_fresh : ∀ {key}, key ∈ added → key ∈ removed ∨ base.get key = none

namespace UtxoOverlay

def new (base : UtxoSet) : UtxoOverlay where
  base := base
  added := ∅
  removed := ∅
  added_fresh hmem := absurd hmem Finmap.notMem_empty

def get (overlay : UtxoOverlay) (key : UtxoKey) : Option UtxoEntry :=
  match overlay.added.lookup key with
  | some entry => some entry
  | none => if key ∈ overlay.removed then none else overlay.base.get key

def remove (overlay : UtxoOverlay) (key : UtxoKey) :
    Except ValidationError (UtxoEntry × UtxoOverlay) :=
  match overlay.added.lookup key with
  | some entry =>
      .ok (entry,
        { overlay with
          added := overlay.added.erase key
          added_fresh := fun hmem => overlay.added_fresh (Finmap.mem_erase.mp hmem).2 })
  | none =>
      if key ∈ overlay.removed then .error .missingUtxo
      else
        match overlay.base.get key with
        | none => .error .missingUtxo
        | some entry =>
            .ok (entry,
              { overlay with
                removed := insert key overlay.removed
                added_fresh := fun hmem =>
                  (overlay.added_fresh hmem).imp (Finset.mem_insert_of_mem ·) id })

def insert (overlay : UtxoOverlay) (entry : UtxoEntry) : Except ValidationError UtxoOverlay :=
  if hclash : entry.key ∈ overlay.added ∨
      (entry.key ∉ overlay.removed ∧ (overlay.base.get entry.key).isSome) then
    .error .mempoolConflict
  else
    .ok { overlay with
      added := overlay.added.insert entry.key entry
      added_fresh := by
        intro key hmem
        simp only [not_or, not_and, Option.not_isSome_iff_eq_none] at hclash
        rcases Finmap.mem_insert.mp hmem with rfl | hmem
        · by_cases hremoved : entry.key ∈ overlay.removed
          · exact .inl hremoved
          · exact .inr (hclash.2 hremoved)
        · exact overlay.added_fresh hmem }

end UtxoOverlay

/-- Spend the inputs of one transaction; `seen` holds the inputs spent so far. -/
def overlaySpendInputs : (overlay : UtxoOverlay) → (seen : Finset UtxoKey) → List TxInput →
    Except ValidationError (UtxoOverlay × Finset UtxoKey)
  | overlay, seen, [] => .ok (overlay, seen)
  | overlay, seen, input :: rest => do
      rejectWhen (input.key ∈ seen) .mempoolConflict
      let (_, overlay) ← overlay.remove input.key
      overlaySpendInputs overlay (insert input.key seen) rest

def overlayInsertOutputs : (overlay : UtxoOverlay) → List UtxoEntry →
    Except ValidationError UtxoOverlay
  | overlay, [] => .ok overlay
  | overlay, entry :: rest => do
      let overlay ← overlay.insert entry
      overlayInsertOutputs overlay rest

def witnessCommitRefsMatch (crypto : Crypto) (blockWitnessRoot : Bytes 48)
    (prepared : PreparedTransactionValidation) : Bool :=
  prepared.signerGroups.all fun group => group.inputRefs.all fun inputRef =>
    inputRef.witnessCommitRef =
      deriveWitnessCommitRef crypto prepared.txid blockWitnessRoot inputRef.inputIndex

/-- The outputs of a transaction after the first, as the overlay files them. -/
def overlayOutputs (tx : Transaction) (txid : Bytes 48) (network : Network)
    (height : UInt64) : List UtxoEntry :=
  tx.outputs.mapIdx fun outputIndex output =>
    { network := network
      txid := txid
      outputIndex := UInt32.ofNat outputIndex
      valueAtoms := output.valueAtoms
      lockingScript := output.lockingScript
      createdHeight := height
      isCoinbase := false }

structure BodyState where
  overlay : UtxoOverlay
  seen : Finset UtxoKey
  sumFees : UInt64

def validateBodyTransaction (crypto : Crypto) (network : Network) (height : UInt64)
    (blockWitnessRoot : Bytes 48) (state : BodyState) (tx : Transaction)
    (prepared : PreparedTransactionValidation) : Except ValidationError BodyState := do
  let fee ← validateTransactionWithContextMinimumFeePrepared crypto tx prepared
    (minimumRequiredFeeAtoms network tx) network height state.overlay.get
  let (overlay, seen) ← overlaySpendInputs state.overlay state.seen tx.inputs
  rejectWhen (!witnessCommitRefsMatch crypto blockWitnessRoot prepared)
    .witnessInputReferenceMismatch
  let sumFees ← okOr (state.sumFees.checkedAdd fee) ValidationError.feeMismatch
  let overlay ← overlayInsertOutputs overlay
    (overlayOutputs tx prepared.txid network height)
  pure ⟨overlay, seen, sumFees⟩

def validateBody (crypto : Crypto) (network : Network) (height : UInt64)
    (blockWitnessRoot : Bytes 48) : (state : BodyState) →
      List (Transaction × PreparedTransactionValidation) → Except ValidationError BodyState
  | state, [] => .ok state
  | state, (tx, prepared) :: rest => do
      let state ← validateBodyTransaction crypto network height blockWitnessRoot state tx prepared
      validateBody crypto network height blockWitnessRoot state rest

def verifyTransactionSignatures (crypto : Crypto) (network : Network) :
    List (Transaction × PreparedTransactionValidation) → Except ValidationError Unit
  | [] => .ok ()
  | (tx, prepared) :: rest => do
      verifySignerGroups crypto tx network prepared.signerGroups
      verifyTransactionSignatures crypto network rest

structure BlockValidationContext where
  height : UInt64
  network : Network
  expectedPreviousHash : Bytes 48
  expectedTarget : Bytes 48
  previousBlocks : List Block
  utxos : UtxoSet

/-- The body checks, giving the overlay that the loop ends with. -/
def validateBlockBody (crypto : Crypto) (block : Block) (coinbase : Transaction)
    (rest : List Transaction) (context : BlockValidationContext)
    (schedule : List ScheduledActivation) : Except ValidationError UtxoOverlay := do
  let prepared ← collectPreparedBlockTransactionsWithSchedule crypto coinbase rest
    context.height context.network schedule
  let state ← validateBody crypto context.network context.height block.header.witnessRoot
    ⟨.new context.utxos, ∅, 0⟩ (rest.zip prepared)
  let expectedReward ← okOr
    ((blockSubsidyAtomsForNetwork context.network context.height).checkedAdd state.sumFees)
    ValidationError.coinbaseRewardMismatch
  validateCoinbaseTransactionWithSchedule coinbase expectedReward context.height schedule
  verifyTransactionSignatures crypto context.network (rest.zip prepared)
  pure state.overlay

/-- Block validation, keeping the final overlay that the source drops. -/
def validateBlockOverlay (crypto : Crypto) (now : UInt64) (block : Block)
    (context : BlockValidationContext) (schedule : List ScheduledActivation) :
    Except ValidationError UtxoOverlay := do
  validateBlockStaticHeaderPrecheckWithSchedule block context.height context.network schedule
  validateContextualHeaderPrecheck crypto now block context.expectedPreviousHash
    context.expectedTarget context.previousBlocks
  validateBlockBodyCommitments crypto block
  match block.transactions with
  | [] => .error .emptyBlock
  | coinbase :: rest => validateBlockBody crypto block coinbase rest context schedule

def validateBlockWithContextAndSchedule (crypto : Crypto) (now : UInt64) (block : Block)
    (context : BlockValidationContext) (schedule : List ScheduledActivation) :
    Except ValidationError Unit := do
  let _ ← validateBlockOverlay crypto now block context schedule
  pure ()

def validateBlockWithContext (crypto : Crypto) (now : UInt64) (block : Block)
    (height : UInt64) (network : Network) (expectedPreviousHash expectedTarget : Bytes 48)
    (previousBlocks : List Block) (utxos : UtxoSet) : Except ValidationError Unit :=
  validateBlockWithContextAndSchedule crypto now block
    ⟨height, network, expectedPreviousHash, expectedTarget, previousBlocks, utxos⟩
    scheduledActivations

end Atho
