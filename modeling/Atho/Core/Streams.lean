import Atho.Core.BlockCodec
import Atho.Library.Streaming

/-! The layouts that the source writes out more than once: sizes computed without
encoding, hashes fed field by field, and the header copied into a buffer. Sizes are
natural numbers: no value in memory has an encoding of 2^64 bytes. -/

namespace Atho

/-! Compact sizes. -/

def compactSizeLen (value : Nat) : Nat :=
  if value ≤ 0xfc then 1
  else if value ≤ 0xffff then 3
  else if value ≤ 0xffffffff then 5
  else 9

def writeCompactSize (value : Nat) : List UInt8 :=
  if value ≤ 0xfc then [UInt8.ofNat value]
  else if value ≤ 0xffff then 0xfd :: le16 (UInt16.ofNat value)
  else if value ≤ 0xffffffff then 0xfe :: le32 (UInt32.ofNat value)
  else 0xff :: le64 (UInt64.ofNat value)

@[simp] theorem length_writeCompactSize (value : Nat) :
    (writeCompactSize value).length = compactSizeLen value := by
  unfold writeCompactSize compactSizeLen
  split_ifs <;> simp

/-- A byte string behind the compact size of its length. -/
def compactPrefixed (bytes : List UInt8) : List UInt8 :=
  writeCompactSize bytes.length ++ bytes

@[simp] theorem length_compactPrefixed (bytes : List UInt8) :
    (compactPrefixed bytes).length = compactSizeLen bytes.length + bytes.length := by
  simp [compactPrefixed]

/-! Transactions. -/

def TxInput.compactBytes (input : TxInput) : List UInt8 :=
  input.previousTxid.toList ++ le32 input.outputIndex ++ compactPrefixed input.unlockingScript

def TxOutput.compactBytes (output : TxOutput) : List UInt8 :=
  le64 output.valueAtoms ++ compactPrefixed output.lockingScript

theorem TxInput.length_compactBytes (input : TxInput) : input.compactBytes.length =
    48 + 4 + compactSizeLen input.unlockingScript.length + input.unlockingScript.length := by
  simp [TxInput.compactBytes]
  omega

theorem TxOutput.length_compactBytes (output : TxOutput) : output.compactBytes.length =
    8 + compactSizeLen output.lockingScript.length + output.lockingScript.length := by
  simp [TxOutput.compactBytes]
  omega

section

variable {σ : Type} (digest : Digest σ)

/-- The loop over the inputs, which every hasher has. -/
def updateInputs (hasher : σ) (inputs : List TxInput) : σ :=
  inputs.foldl
    (fun hasher input => digest.feed hasher
      [input.previousTxid.toList, le32 input.outputIndex,
        le32 (UInt32.ofNat input.unlockingScript.length), input.unlockingScript])
    (digest.update hasher (le32 (UInt32.ofNat inputs.length)))

def updateOutputs (hasher : σ) (outputs : List TxOutput) : σ :=
  outputs.foldl
    (fun hasher output => digest.feed hasher
      [le64 output.valueAtoms, le32 (UInt32.ofNat output.lockingScript.length),
        output.lockingScript])
    (digest.update hasher (le32 (UInt32.ofNat outputs.length)))

theorem updateInputs_eq (hasher : σ) (inputs : List TxInput) :
    updateInputs digest hasher inputs =
      digest.update hasher (countPrefixed TxInput.bytes inputs) := by
  rw [updateInputs, digest.foldl_update TxInput.bytes ?_, countPrefixed, digest.update_append]
  intro hasher input
  rw [digest.feed_eq_update]
  simp [TxInput.bytes, lengthPrefixed]

theorem updateOutputs_eq (hasher : σ) (outputs : List TxOutput) :
    updateOutputs digest hasher outputs =
      digest.update hasher (countPrefixed TxOutput.bytes outputs) := by
  rw [updateOutputs, digest.foldl_update TxOutput.bytes ?_, countPrefixed, digest.update_append]
  intro hasher output
  rw [digest.feed_eq_update]
  simp [TxOutput.bytes, lengthPrefixed]

/-- The part of the commitment that one signer group makes up. -/
def WitnessSignerGroup.updateCommitmentHasher (group : WitnessSignerGroup) (hasher : σ) : σ :=
  group.inputRefs.foldl
    (fun hasher inputRef =>
      digest.feed hasher [le32 inputRef.inputIndex, inputRef.sigRefShort.toList])
    (digest.feed hasher
      [le32 (UInt32.ofNat group.signature.length), group.signature,
        le32 (UInt32.ofNat group.pubkey.length), group.pubkey,
        le32 (UInt32.ofNat group.inputRefs.length)])

def TxWitness.updateCommitmentHasher (witness : TxWitness) (hasher : σ) : σ :=
  witness.additionalSigners.foldl
    (fun hasher group => group.updateCommitmentHasher digest hasher)
    (digest.update (witness.primary.updateCommitmentHasher digest hasher)
      (le32 (UInt32.ofNat witness.additionalSigners.length)))

theorem WitnessSignerGroup.updateCommitmentHasher_eq (group : WitnessSignerGroup) (hasher : σ) :
    group.updateCommitmentHasher digest hasher =
      digest.update hasher (group.bytesWith WitnessInputRef.commitmentBytes) := by
  rw [updateCommitmentHasher, digest.foldl_update WitnessInputRef.commitmentBytes ?_,
    digest.feed_eq_update, ← digest.update_append]
  · simp [WitnessSignerGroup.bytesWith, lengthPrefixed, countPrefixed]
  · intro hasher inputRef
    rw [digest.feed_eq_update]
    simp [WitnessInputRef.commitmentBytes]

theorem TxWitness.updateCommitmentHasher_eq (witness : TxWitness) (hasher : σ) :
    witness.updateCommitmentHasher digest hasher =
      digest.update hasher witness.commitmentBytes := by
  rw [updateCommitmentHasher, digest.foldl_update _
      fun hasher group => group.updateCommitmentHasher_eq digest hasher,
    WitnessSignerGroup.updateCommitmentHasher_eq, ← digest.update_append,
    ← digest.update_append]
  simp [TxWitness.commitmentBytes, TxWitness.bytesWith, countPrefixed]

namespace Transaction

def updateBaseHasher (tx : Transaction) (hasher : σ) : σ :=
  let hasher := digest.update hasher (le16 tx.version)
  let hasher := updateInputs digest hasher tx.inputs
  let hasher := updateOutputs digest hasher tx.outputs
  digest.update hasher (le32 tx.lockTime)

def updateFullHasher (tx : Transaction) (hasher : σ) : σ :=
  let hasher := digest.update hasher (le16 tx.version)
  let hasher := digest.update hasher [0x00, 0x01]
  let hasher := updateInputs digest hasher tx.inputs
  let hasher := updateOutputs digest hasher tx.outputs
  let hasher := digest.update hasher (le32 (UInt32.ofNat tx.witness.length))
  let hasher := digest.update hasher tx.witness
  let hasher := digest.update hasher (le32 tx.lockTime)
  let hasher := digest.update hasher (le64 tx.txPowNonce)
  digest.update hasher [tx.txPowBits]

/-- The updates of `witness_commitment_hash`. -/
def updateWitnessCommitmentHasher (tx : Transaction) (hasher : σ) : σ :=
  let hasher := tx.updateBaseHasher digest hasher
  let hasher :=
    if tx.bare then hasher
    else if tx.witness.isEmpty then digest.update hasher [0]
    else match tx.witnessPayload with
      | some witness => witness.updateCommitmentHasher digest (digest.update hasher [1])
      | none => digest.feed hasher
          [[2], le32 (UInt32.ofNat tx.witness.length), tx.witness]
  if !tx.bare then digest.feed hasher [le64 tx.txPowNonce, [tx.txPowBits]] else hasher

theorem updateBaseHasher_eq (tx : Transaction) (hasher : σ) :
    tx.updateBaseHasher digest hasher = digest.update hasher tx.baseBytes := by
  simp only [updateBaseHasher, updateInputs_eq, updateOutputs_eq, baseBytes,
    digest.update_append]

theorem updateFullHasher_eq (tx : Transaction) (hasher : σ) :
    tx.updateFullHasher digest hasher = digest.update hasher tx.fullBytes := by
  simp only [updateFullHasher, updateInputs_eq, updateOutputs_eq, fullBytes, lengthPrefixed,
    digest.update_append]

theorem updateWitnessCommitmentHasher_eq (tx : Transaction) (hasher : σ) :
    tx.updateWitnessCommitmentHasher digest hasher =
      digest.update hasher (tx.baseBytes ++ tx.witnessCommitmentSuffix) := by
  rw [updateWitnessCommitmentHasher, updateBaseHasher_eq, digest.update_append,
    witnessCommitmentSuffix]
  generalize digest.update hasher tx.baseBytes = hasher
  cases hbare : tx.bare
  · cases hempty : tx.witness.isEmpty
    · cases tx.witnessPayload with
      | none => simp [digest.feed_eq_update, lengthPrefixed, ← digest.update_append]
      | some witness =>
          simp [digest.feed_eq_update, TxWitness.updateCommitmentHasher_eq,
            ← digest.update_append]
    · simp [digest.feed_eq_update, ← digest.update_append]
  · simp [digest.update_nil]

def compactSizeBytes (tx : Transaction) : Nat :=
  2 + compactSizeLen tx.inputs.length +
    (tx.inputs.map fun input => 48 + 4 + compactSizeLen input.unlockingScript.length +
      input.unlockingScript.length).sum +
    compactSizeLen tx.outputs.length +
    (tx.outputs.map fun output => 8 + compactSizeLen output.lockingScript.length +
      output.lockingScript.length).sum +
    4 + compactSizeLen tx.witness.length + tx.witness.length + txPowNonceBytes + txPowBitsBytes

def compactBytes (tx : Transaction) : List UInt8 :=
  le16 tx.version ++
    writeCompactSize tx.inputs.length ++ tx.inputs.flatMap TxInput.compactBytes ++
    writeCompactSize tx.outputs.length ++ tx.outputs.flatMap TxOutput.compactBytes ++
    le32 tx.lockTime ++ compactPrefixed tx.witness ++ le64 tx.txPowNonce ++ [tx.txPowBits]

theorem length_compactBytes (tx : Transaction) :
    tx.compactBytes.length = tx.compactSizeBytes := by
  simp only [compactBytes, List.length_append, length_le16, length_le32, length_le64,
    length_writeCompactSize, length_compactPrefixed,
    length_flatMap_of_length TxInput.length_compactBytes,
    length_flatMap_of_length TxOutput.length_compactBytes, compactSizeBytes, txPowNonceBytes,
    txPowBitsBytes, List.length_cons, List.length_nil]
  omega

end Transaction

end

/-! Blocks. -/

/-- The buffer `block_hash` fills and hashes. -/
def BlockHeader.hashBuffer (header : BlockHeader) : List UInt8 :=
  ([le16 header.version, [header.networkId.consensusId], le64 header.height,
      header.previousBlockHash.toList, header.merkleRoot.toList, header.witnessRoot.toList,
      header.foundersHashSha3_384.toList, header.foundersHashSha3_512.toList,
      le64 header.timestamp, header.difficultyTargetOrBits.toList,
      le64 header.nonce].foldl
    FilledBuffer.copyFromSlice (.new BlockHeader.canonicalSizeBytes)).bytes

theorem BlockHeader.hashBuffer_eq (header : BlockHeader) :
    header.hashBuffer = header.canonicalBytes := by
  rw [hashBuffer, @FilledBuffer.foldl_copyFromSlice _ [] _ ?_]
  · simp [canonicalBytes]
  · simpa [canonicalSizeBytes] using FilledBuffer.holds_new canonicalSizeBytes

namespace Block

def baseBytes (block : Block) : List UInt8 :=
  block.header.canonicalBytes ++
    countPrefixed (fun tx => lengthPrefixed tx.baseBytes) block.transactions

/-- The canonical bytes are the full ones. -/
def fullBytes (block : Block) : List UInt8 :=
  block.canonicalBytes

def compactBytes (block : Block) : List UInt8 :=
  block.header.canonicalBytes ++ writeCompactSize block.transactions.length ++
    block.transactions.flatMap fun tx => compactPrefixed tx.compactBytes

def baseSizeBytes (block : Block) : Nat :=
  BlockHeader.canonicalSizeBytes + 4 +
    (block.transactions.map fun tx => 4 + tx.baseSizeBytes).sum

def fullSizeBytes (block : Block) : Nat :=
  BlockHeader.canonicalSizeBytes + 4 +
    (block.transactions.map fun tx => 4 + tx.fullSizeBytes).sum

def compactSizeBytes (block : Block) : Nat :=
  block.transactions.foldl
    (fun total tx => total + compactSizeLen tx.compactSizeBytes + tx.compactSizeBytes)
    (BlockHeader.canonicalSizeBytes + compactSizeLen block.transactions.length)

theorem length_baseBytes (block : Block) : block.baseBytes.length = block.baseSizeBytes := by
  have hsizes : ∀ tx : Transaction,
      (lengthPrefixed tx.baseBytes).length = 4 + tx.baseSizeBytes := by
    intro tx
    simp [lengthPrefixed, Transaction.length_baseBytes]
  simp only [baseBytes, countPrefixed, List.length_append, length_le32,
    BlockHeader.length_canonicalBytes, length_flatMap_of_length hsizes, baseSizeBytes]
  omega

theorem length_fullBytes (block : Block) : block.fullBytes.length = block.fullSizeBytes :=
  block.length_canonicalBytes

theorem length_compactBytes (block : Block) :
    block.compactBytes.length = block.compactSizeBytes := by
  have hsizes : ∀ tx : Transaction, (compactPrefixed tx.compactBytes).length =
      compactSizeLen tx.compactSizeBytes + tx.compactSizeBytes := by
    intro tx
    rw [length_compactPrefixed, tx.length_compactBytes]
  have hfold : ∀ (total : Nat) (transactions : List Transaction),
      transactions.foldl
        (fun total tx => total + compactSizeLen tx.compactSizeBytes + tx.compactSizeBytes) total =
      total + (transactions.map fun tx =>
        compactSizeLen tx.compactSizeBytes + tx.compactSizeBytes).sum := by
    intro total transactions
    induction transactions generalizing total with
    | nil => rfl
    | cons tx transactions ih =>
        rw [List.foldl_cons, ih, List.map_cons, List.sum_cons]
        omega
  simp only [compactBytes, List.length_append, BlockHeader.length_canonicalBytes,
    length_writeCompactSize, length_flatMap_of_length hsizes, compactSizeBytes, hfold]

theorem sizeMetrics_eq (block : Block) :
    block.sizeMetrics =
      ⟨block.baseSizeBytes, block.fullSizeBytes,
        block.baseSizeBytes * 3 + block.fullSizeBytes,
        (block.baseSizeBytes * 3 + block.fullSizeBytes + 3) / 4⟩ := rfl

end Block

/-- Every size function returns the length of the bytes it stands for, every hasher is
fed the bytes of the encoder it repeats, and the buffer a header is hashed from holds
its canonical bytes. -/
theorem sizes_and_streams_match_encoders :
    (∀ tx : Transaction,
      tx.baseSizeBytes = tx.baseBytes.length ∧ tx.fullSizeBytes = tx.fullBytes.length ∧
      tx.compactSizeBytes = tx.compactBytes.length ∧
      ∀ {σ : Type} (digest : Digest σ) (hasher : σ),
        tx.updateBaseHasher digest hasher = digest.update hasher tx.baseBytes ∧
        tx.updateFullHasher digest hasher = digest.update hasher tx.fullBytes) ∧
    (∀ block : Block,
      block.baseSizeBytes = block.baseBytes.length ∧
      block.fullSizeBytes = block.fullBytes.length ∧
      block.compactSizeBytes = block.compactBytes.length ∧
      block.sizeMetrics =
        { baseSizeBytes := block.baseBytes.length
          rawSizeBytes := block.fullBytes.length
          weightBytes := block.baseBytes.length * 3 + block.fullBytes.length
          vsizeBytes := (block.baseBytes.length * 3 + block.fullBytes.length + 3) / 4 }) ∧
    ∀ header : BlockHeader, header.hashBuffer = header.canonicalBytes := by
  refine ⟨fun tx => ⟨tx.length_baseBytes.symm, tx.length_fullBytes.symm,
      tx.length_compactBytes.symm, fun digest hasher =>
        ⟨tx.updateBaseHasher_eq digest hasher, tx.updateFullHasher_eq digest hasher⟩⟩,
    fun block => ⟨block.length_baseBytes.symm, block.length_fullBytes.symm,
      block.length_compactBytes.symm, ?_⟩, BlockHeader.hashBuffer_eq⟩
  rw [block.sizeMetrics_eq, block.length_baseBytes, block.length_fullBytes]

end Atho
