import Atho.Core.TxPolicy
import Atho.Storage.Utxo

/-! Validation of transactions: structure and witness references, UTXO context,
and signatures. -/

namespace Atho

def deriveSigRefShort (crypto : Crypto) (txid : Bytes 48) (signature : List UInt8)
    (inputIndex : UInt32) : Bytes 2 :=
  (crypto.sha3_256 (ascii "ATHO_SIG_REF_SHORT_V1" ++ txid.toList ++ signature ++
    be32 inputIndex)).truncate 2 (by decide)

def deriveWitnessCommitRef (crypto : Crypto) (txid blockWitnessRoot : Bytes 48)
    (inputIndex : UInt32) : Bytes 16 :=
  (crypto.sha3_256 (ascii "ATHO_WITNESS_COMMIT_REF_V1" ++ txid.toList ++ be32 inputIndex ++
    blockWitnessRoot.toList)).truncate 16 (by decide)

/-! Signatures. -/

/-- A group with one reference per input signs the digest over all inputs. -/
def signerGroupDigest (crypto : Crypto) (tx : Transaction) (network : Network)
    (inputIndexes : List UInt32) : Bytes 48 :=
  if inputIndexes.length = tx.inputs.length then transactionSigningDigest crypto network tx
  else transactionSigningDigestForInputIndexes crypto network tx inputIndexes

def verifySignerGroup (crypto : Crypto) (tx : Transaction) (network : Network)
    (group : WitnessSignerGroup) : Except ValidationError Unit := do
  rejectWhen (group.pubkey.length ≠ falcon512PublicKeyBytes) .invalidWitness
  rejectWhen (group.signature.length ≠ falcon512SignatureBytes) .invalidWitness
  let inputIndexes := group.inputRefs.map WitnessInputRef.inputIndex
  let verified ← okOr
    (crypto.falconVerify .transaction group.pubkey
      (signerGroupDigest crypto tx network inputIndexes) group.signature)
    ValidationError.invalidWitness
  rejectWhen (!verified) .invalidWitness

def verifySignerGroups (crypto : Crypto) (tx : Transaction) (network : Network) :
    List WitnessSignerGroup → Except ValidationError Unit
  | [] => .ok ()
  | group :: rest => do
      verifySignerGroup crypto tx network group
      verifySignerGroups crypto tx network rest

/-! Structure. -/

/-- The groups of a witness and, for each input, the position of the group that
refers to it; an input not referred to yet has none. -/
structure PreparedTransactionValidation where
  txid : Bytes 48
  signerGroups : List WitnessSignerGroup
  signerGroupByInput : List (Option Nat)
  deriving DecidableEq

def canonicalPaymentLock (lockingScript : List UInt8) : Except ValidationError (Bytes 32) :=
  okOr (paymentDigestFromLockingScript lockingScript) .legacyLockFormatRejected

/-- File the references of one group, each above the one before. -/
def assignInputRefs (crypto : Crypto) (txid : Bytes 48) (signature : List UInt8)
    (groupIndex : Nat) : (previous : Option UInt32) → (byInput : List (Option Nat)) →
      List WitnessInputRef → Except ValidationError (List (Option Nat))
  | _, byInput, [] => .ok byInput
  | previous, byInput, inputRef :: rest => do
      let inputIndex := inputRef.inputIndex.toNat
      rejectWhen (byInput.length ≤ inputIndex) .invalidWitness
      rejectWhen (previous.any fun previous => inputRef.inputIndex ≤ previous) .invalidWitness
      rejectWhen (byInput[inputIndex]? ≠ some none) .witnessInputReferenceMismatch
      rejectWhen (inputRef.sigRefShort ≠
        deriveSigRefShort crypto txid signature inputRef.inputIndex)
        .witnessInputReferenceMismatch
      assignInputRefs crypto txid signature groupIndex (some inputRef.inputIndex)
        (byInput.set inputIndex (some groupIndex)) rest

/-- File the references of all groups, whose first references must ascend. -/
def assignSignerGroups (crypto : Crypto) (txid : Bytes 48) :
    (groupIndex : Nat) → (previousFirst : Option UInt32) → (byInput : List (Option Nat)) →
      List WitnessSignerGroup → Except ValidationError (List (Option Nat))
  | _, _, byInput, [] => .ok byInput
  | groupIndex, previousFirst, byInput, group :: rest => do
      rejectWhen (group.signature.isEmpty || group.pubkey.isEmpty || group.inputRefs.isEmpty)
        .invalidWitness
      let first ← okOr (group.inputRefs.head?.map WitnessInputRef.inputIndex)
        ValidationError.invalidWitness
      rejectWhen (previousFirst.any fun previous => first ≤ previous) .invalidWitness
      let byInput ← assignInputRefs crypto txid group.signature groupIndex none byInput
        group.inputRefs
      assignSignerGroups crypto txid (groupIndex + 1) (some first) byInput rest

def prepareTransactionValidation (crypto : Crypto) (tx : Transaction) (feeAtoms : UInt64)
    (network : Network) (height : UInt64) (schedule : List ScheduledActivation) :
    Except ValidationError PreparedTransactionValidation := do
  rejectWhen tx.isCoinbase .noInputs
  rejectWhen (!isSupportedTransactionVersionWithSchedule tx.version height schedule)
    .invalidTransactionVersion
  rejectWhen tx.outputs.isEmpty .noOutputs
  rejectWhen (maximumStandardOutputs network tx < tx.outputs.length) .tooManyOutputs
  rejectWhen (maxTransactionRawBytes < tx.fullSizeBytes ∨ maxTransactionVbytes < tx.vsizeBytes)
    .transactionTooLarge
  rejectWhen (tx.outputs.any fun output => output.valueAtoms == 0) .zeroValueOutput
  rejectWhen (¬ (tx.inputs.map TxInput.key).Nodup) .duplicateInput
  rejectWhen (feeAtoms < minimumRequiredFeeAtoms network tx) .feeBelowMinimum
  rejectWhen (tx.outputs.any fun output =>
    output.valueAtoms < minimumOutputAmountAtoms network tx) .dustOutput
  rejectWhen (tx.outputs.any fun output =>
    (paymentDigestFromLockingScript output.lockingScript).isNone) .legacyLockFormatRejected
  let witness ← okOr tx.witnessPayload ValidationError.invalidWitness
  rejectWhen (witness.signerGroupCount = 0) .invalidWitness
  rejectWhen (witness.totalInputRefs ≠ tx.inputs.length) .invalidWitness
  let txid := tx.txid crypto
  let byInput ← assignSignerGroups crypto txid 0 none
    (List.replicate tx.inputs.length none) witness.signerGroups
  rejectWhen (byInput.contains none) .witnessInputReferenceMismatch
  pure ⟨txid, witness.signerGroups, byInput⟩

/-! UTXO context. -/

namespace PreparedTransactionValidation

/-- The group that refers to an input. -/
def signerGroup (prepared : PreparedTransactionValidation) (index : Nat) :
    Option WitnessSignerGroup :=
  (prepared.signerGroupByInput[index]?.join).bind fun group => prepared.signerGroups[group]?

def signerPubkey (prepared : PreparedTransactionValidation) (index : Nat) : List UInt8 :=
  ((prepared.signerGroup index).map WitnessSignerGroup.pubkey).getD []

end PreparedTransactionValidation

def validateInput (crypto : Crypto) (prepared : PreparedTransactionValidation)
    (network : Network) (spendHeight : UInt64) (index : Nat) (input : TxInput)
    (utxo : UtxoEntry) : Except ValidationError Unit := do
  let expectedLock ← canonicalPaymentLock utxo.lockingScript
  let _ ← canonicalPaymentLock input.unlockingScript
  rejectWhen (utxo.lockingScript ≠ input.unlockingScript) .inputOwnershipMismatch
  rejectWhen (utxo.network ≠ network) .inputOwnershipMismatch
  rejectWhen (publicKeyDigest crypto utxo.network (prepared.signerPubkey index) ≠ expectedLock)
    .inputOwnershipMismatch
  rejectWhen (!utxo.isSpendableAt spendHeight) .insufficientConfirmations

def sumInputs (crypto : Crypto) (prepared : PreparedTransactionValidation)
    (network : Network) (spendHeight : UInt64) (lookup : UtxoKey → Option UtxoEntry) :
    (index : Nat) → (inputTotal : UInt64) → List TxInput → Except ValidationError UInt64
  | _, inputTotal, [] => .ok inputTotal
  | index, inputTotal, input :: rest => do
      let utxo ← okOr (lookup input.key) ValidationError.missingUtxo
      validateInput crypto prepared network spendHeight index input utxo
      let inputTotal ← okOr (inputTotal.checkedAdd utxo.valueAtoms)
        ValidationError.feeMismatch
      sumInputs crypto prepared network spendHeight lookup (index + 1) inputTotal rest

def validateTransactionWithContextCommon (crypto : Crypto) (tx : Transaction)
    (prepared : PreparedTransactionValidation) (network : Network) (spendHeight : UInt64)
    (lookup : UtxoKey → Option UtxoEntry) : Except ValidationError UInt64 := do
  let inputTotal ← sumInputs crypto prepared network spendHeight lookup 0 0 tx.inputs
  let outputTotal ← okOr tx.checkedOutputValueAtoms ValidationError.feeMismatch
  rejectWhen (inputTotal < outputTotal) .feeMismatch
  pure (inputTotal - outputTotal)

def validateTransactionPow (crypto : Crypto) (tx : Transaction) (network : Network)
    (actualFee : UInt64) : Except ValidationError Unit := do
  let requiredBits := requiredTxPowBits network tx actualFee
  rejectWhen (tx.txPowBits ≠ requiredBits) .wrongTransactionPowBits
  rejectWhen (!transactionPowIsValidForBits crypto network tx requiredBits)
    .invalidTransactionPowNonce

def validateTransactionWithContextExactFeePrepared (crypto : Crypto) (tx : Transaction)
    (prepared : PreparedTransactionValidation) (feeAtoms : UInt64) (network : Network)
    (spendHeight : UInt64) (lookup : UtxoKey → Option UtxoEntry) :
    Except ValidationError UInt64 := do
  let actualFee ← validateTransactionWithContextCommon crypto tx prepared network spendHeight
    lookup
  rejectWhen (actualFee ≠ feeAtoms) .feeMismatch
  validateTransactionPow crypto tx network actualFee
  pure actualFee

def validateTransactionWithContextMinimumFeePrepared (crypto : Crypto) (tx : Transaction)
    (prepared : PreparedTransactionValidation) (minimumFeeAtoms : UInt64) (network : Network)
    (spendHeight : UInt64) (lookup : UtxoKey → Option UtxoEntry) :
    Except ValidationError UInt64 := do
  let actualFee ← validateTransactionWithContextCommon crypto tx prepared network spendHeight
    lookup
  rejectWhen (actualFee < minimumFeeAtoms) .feeBelowMinimum
  validateTransactionPow crypto tx network actualFee
  pure actualFee

def validateTransactionWithContextAndSchedule (crypto : Crypto) (tx : Transaction)
    (feeAtoms : UInt64) (network : Network) (spendHeight : UInt64)
    (lookup : UtxoKey → Option UtxoEntry) (schedule : List ScheduledActivation) :
    Except ValidationError UInt64 := do
  let prepared ← prepareTransactionValidation crypto tx feeAtoms network spendHeight schedule
  let actualFee ← validateTransactionWithContextExactFeePrepared crypto tx prepared feeAtoms
    network spendHeight lookup
  verifySignerGroups crypto tx network prepared.signerGroups
  pure actualFee

def validateTransactionWithContext (crypto : Crypto) (tx : Transaction) (feeAtoms : UInt64)
    (network : Network) (spendHeight : UInt64) (lookup : UtxoKey → Option UtxoEntry) :
    Except ValidationError UInt64 :=
  validateTransactionWithContextAndSchedule crypto tx feeAtoms network spendHeight lookup
    scheduledActivations

/-! Relay policy. -/

def validateTransactionStandardPolicy (tx : Transaction) (network : Network) :
    Except ValidationError Unit := do
  rejectWhen (maxStandardInputs < tx.inputs.length) .transactionTooLarge
  rejectWhen (tx.outputs.any fun output => 0 < output.valueAtoms &&
    output.valueAtoms < minimumOutputAmountAtoms network tx) .dustOutput

def validateTransactionWithContextForMempool (crypto : Crypto) (tx : Transaction)
    (feeAtoms : UInt64) (network : Network) (spendHeight : UInt64)
    (lookup : UtxoKey → Option UtxoEntry) : Except ValidationError UInt64 := do
  validateTransactionStandardPolicy tx network
  validateTransactionWithContext crypto tx feeAtoms network spendHeight lookup

end Atho
