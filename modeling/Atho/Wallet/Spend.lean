import Atho.Library.Grouping
import Atho.Storage.Validation
import Atho.Wallet.Wallet

/-! Payments: choice of fee and change, grouping of inputs by key, signing and proof of
work. -/

namespace Atho

structure WalletSpendUtxo where
  previousTxid : Bytes 48
  outputIndex : UInt32
  valueAtoms : UInt64
  lockingScript : List UInt8
  deriving DecidableEq

structure WalletSpendRequest where
  selectedUtxos : List WalletSpendUtxo
  recipientDigest : Bytes 32
  amountAtoms : UInt64
  includeFeeInTotal : Bool
  transactionVersion : UInt16
  lockTime : UInt32
  changeAddress : Option WalletAddress
  deriving DecidableEq

structure WalletBuiltSpend where
  transaction : Transaction
  feeAtoms : UInt64
  changeUsed : Bool
  deriving DecidableEq

inductive WalletSpendBuildError where
  | noInputs
  | wrongNetwork
  | inputOwnershipMismatch
  | nonCanonicalLockingScript
  | amountBelowMinimumOutput
  | amountBelowFee
  | insufficientFunds
  | missingChangeAddress
  | feeLoopDidNotConverge
  | transactionTooLarge (rawSizeBytes maxRawSizeBytes vsizeBytes maxVsizeBytes : Nat)
  | amountOverflow
  | signingFailed (message : String)
  deriving DecidableEq

structure WalletSignerInputGroup where
  address : WalletAddress
  inputIndexes : List UInt32
  deriving DecidableEq

def WalletSpendUtxo.key (utxo : WalletSpendUtxo) : UtxoKey :=
  ⟨utxo.previousTxid, utxo.outputIndex⟩

/-! Amounts. -/

def recipientAndChangeAmounts (totalInputAtoms amountAtoms feeAtoms : UInt64)
    (includeFeeInTotal : Bool) (minOutput : UInt64) :
    Except WalletSpendBuildError (UInt64 × UInt64) :=
  if includeFeeInTotal then do
    rejectWhen (amountAtoms ≤ feeAtoms) .amountBelowFee
    let recipientAtoms ← okOr (amountAtoms.checkedSub feeAtoms)
      WalletSpendBuildError.amountBelowFee
    rejectWhen (recipientAtoms < minOutput) .amountBelowMinimumOutput
    let rawChange ← okOr (totalInputAtoms.checkedSub amountAtoms)
      WalletSpendBuildError.insufficientFunds
    pure (recipientAtoms, if rawChange < minOutput then 0 else rawChange)
  else do
    rejectWhen (amountAtoms < minOutput) .amountBelowMinimumOutput
    let rawChange ← okOr
      ((totalInputAtoms.checkedSub amountAtoms).bind fun value => value.checkedSub feeAtoms)
      WalletSpendBuildError.insufficientFunds
    pure (amountAtoms, if rawChange < minOutput then 0 else rawChange)

/-! Transactions without a witness. -/

def WalletSpendUtxo.input (utxo : WalletSpendUtxo) : TxInput :=
  ⟨utxo.previousTxid, utxo.outputIndex, utxo.lockingScript⟩

def buildSpendTransactionFromParts (selectedUtxos : List WalletSpendUtxo) (version : UInt16)
    (recipientDigest : Bytes 32) (recipientAtoms : UInt64)
    (changeOutput : Option (UInt64 × List UInt8)) (lockTime : UInt32) : Transaction where
  version := version
  inputs := selectedUtxos.map WalletSpendUtxo.input
  outputs := ⟨recipientAtoms, recipientDigest.toList⟩ ::
    changeOutput.toList.map fun (changeAtoms, changeScript) => ⟨changeAtoms, changeScript⟩
  lockTime := lockTime
  witness := []
  txPowNonce := 0
  txPowBits := 0

/-- The first group carries the witness, the others are its additional signers. -/
def TxWitness.ofGroups : List WitnessSignerGroup → Option TxWitness
  | [] => none
  | primary :: rest => some ⟨primary.signature, primary.pubkey, primary.inputRefs, rest⟩

def ensureStandardTransactionSize (tx : Transaction) : Except WalletSpendBuildError Unit :=
  rejectWhen (maxTransactionRawBytes < tx.fullSizeBytes || maxTransactionVbytes < tx.vsizeBytes)
    (.transactionTooLarge tx.fullSizeBytes maxTransactionRawBytes tx.vsizeBytes
      maxTransactionVbytes)

/-- Groups are ordered by their first input. -/
def WalletSignerInputGroup.firstIndex (group : WalletSignerInputGroup) : UInt32 :=
  group.inputIndexes.head?.getD (UInt32.ofNat (2 ^ 32 - 1))

def WitnessSignerGroup.firstIndex (group : WitnessSignerGroup) : UInt32 :=
  (group.inputRefs.head?.map WitnessInputRef.inputIndex).getD (UInt32.ofNat (2 ^ 32 - 1))

namespace Wallet

variable (crypto : WalletCrypto) (wallet : Wallet)

/-! Owners of inputs. -/

def allAddresses : List WalletAddress :=
  wallet.addressBook.map fun record => wallet.deriveAddress crypto record.path

/-- The address book by payment digest; a later record replaces an earlier one. -/
def knownAddress (lockingScript : List UInt8) : Option WalletAddress :=
  (wallet.allAddresses crypto).reverse.find? fun address =>
    address.paymentDigest.toList = lockingScript

def discoveredAddressForPaymentDigest (digest : List UInt8) : Option WalletAddress :=
  if digest.length ≠ 32 then none
  else
    (List.range (min wallet.restoreGapLimit (2 ^ 32))).findSome? fun index =>
      [AddressKind.receive, .change].findSome? fun kind =>
        let address := wallet.deriveAddress crypto ⟨0, kind, UInt32.ofNat index⟩
        if address.paymentDigest.toList = digest then some address else none

def ownerOf (lockingScript : List UInt8) : Option WalletAddress :=
  (wallet.knownAddress crypto lockingScript).or
    (wallet.discoveredAddressForPaymentDigest crypto lockingScript)

def signerInputGroups (selectedUtxos : List WalletSpendUtxo) :
    Except WalletSpendBuildError (List WalletSignerInputGroup) := do
  rejectWhen (selectedUtxos.any fun utxo =>
    (paymentDigestFromLockingScript utxo.lockingScript).isNone) .nonCanonicalLockingScript
  let groupedInputs := groupPositions (selectedUtxos.map WalletSpendUtxo.lockingScript)
  let groups ← groupedInputs.toList.mapM fun (lockingScript, positions) => do
    let address ← okOr (wallet.ownerOf crypto lockingScript)
      WalletSpendBuildError.inputOwnershipMismatch
    pure (⟨address, positions.map UInt32.ofNat⟩ : WalletSignerInputGroup)
  pure (groups.insertionSort fun left right => left.firstIndex ≤ right.firstIndex)

/-! Placeholders, which have the size of the signed transaction. -/

def placeholderGroup (group : WalletSignerInputGroup) : WitnessSignerGroup where
  signature := List.replicate falcon512SignatureBytes 0
  pubkey := List.replicate falcon512PublicKeyBytes 0
  inputRefs := group.inputIndexes.map fun inputIndex => ⟨inputIndex, .zero 2, .zero 16⟩

def placeholderWitnessForGroups (groups : List WalletSignerInputGroup) :
    Except WalletSpendBuildError (List UInt8) := do
  let witness ← okOr (TxWitness.ofGroups (groups.map placeholderGroup))
    WalletSpendBuildError.inputOwnershipMismatch
  pure witness.canonicalBytes

def buildPlaceholderSpendTransactionFromParts (selectedUtxos : List WalletSpendUtxo)
    (version : UInt16) (recipientDigest : Bytes 32) (recipientAtoms : UInt64)
    (changeOutput : Option (UInt64 × List UInt8)) (lockTime : UInt32) :
    Except WalletSpendBuildError Transaction := do
  let signerGroups ← wallet.signerInputGroups crypto selectedUtxos
  let witness ← placeholderWitnessForGroups signerGroups
  pure { buildSpendTransactionFromParts selectedUtxos version recipientDigest recipientAtoms
    changeOutput lockTime with witness := witness }

/-! Signing. -/

def signGroup (tx : Transaction) (group : WalletSignerInputGroup) :
    Except WalletSpendBuildError WitnessSignerGroup :=
  let keypair := wallet.keypairForPath crypto group.address.path
  let digest := transactionSigningDigestForInputIndexes crypto.toCrypto wallet.network tx
    group.inputIndexes
  match crypto.sign keypair.secretKey digest with
  | .error message => .error (.signingFailed message)
  | .ok signature => .ok
      { signature := signature
        pubkey := keypair.publicKey
        inputRefs := group.inputIndexes.map fun inputIndex =>
          ⟨inputIndex, deriveSigRefShort crypto.toCrypto (tx.txid crypto.toCrypto) signature
            inputIndex, .zero 16⟩ }

/-- Bind the references of a staged witness to the commitment of its transaction. -/
def bindWitness (tx : Transaction) : Except WalletSpendBuildError Transaction := do
  let txid := tx.txid crypto.toCrypto
  let witnessRoot := tx.witnessCommitmentHash crypto.toCrypto
  let witness ← okOr tx.witnessPayload
    (WalletSpendBuildError.signingFailed "invalid staged witness payload")
  let bound := witness.mapInputRefs fun inputRef =>
    { inputRef with
      witnessCommitRef := deriveWitnessCommitRef crypto.toCrypto txid witnessRoot
        inputRef.inputIndex }
  pure { tx with witness := bound.canonicalBytes }

def buildSignedSpendTransactionFromParts (selectedUtxos : List WalletSpendUtxo)
    (version : UInt16) (recipientDigest : Bytes 32) (recipientAtoms : UInt64)
    (changeOutput : Option (UInt64 × List UInt8)) (lockTime : UInt32) :
    Except WalletSpendBuildError Transaction := do
  let tx := buildSpendTransactionFromParts selectedUtxos version recipientDigest recipientAtoms
    changeOutput lockTime
  let signerInputGroups ← wallet.signerInputGroups crypto selectedUtxos
  let signerGroups ← signerInputGroups.mapM (wallet.signGroup crypto tx)
  let signerGroups := signerGroups.insertionSort fun left right =>
    left.firstIndex ≤ right.firstIndex
  let witness ← okOr (TxWitness.ofGroups signerGroups)
    WalletSpendBuildError.inputOwnershipMismatch
  bindWitness crypto { tx with witness := witness.canonicalBytes }

/-! The payment. -/

/-- Where the change goes, if there is any. -/
def changeOutputFor (request : WalletSpendRequest) (changeAtoms : UInt64) :
    Except WalletSpendBuildError (Option (UInt64 × List UInt8)) :=
  if 0 < changeAtoms then do
    let address ← okOr request.changeAddress WalletSpendBuildError.missingChangeAddress
    pure (some (changeAtoms, address.paymentDigest.toList))
  else pure none

/-- Sign and solve, once the fee of the placeholder is the fee that was assumed. -/
def completeSpend (request : WalletSpendRequest) (startNonce totalInputAtoms actualFee
    recipientAtoms changeAtoms : UInt64) :
    Except WalletSpendBuildError (Option WalletBuiltSpend) := do
  let changeOutput ← changeOutputFor request changeAtoms
  let transaction ← wallet.buildSignedSpendTransactionFromParts crypto request.selectedUtxos
    request.transactionVersion request.recipientDigest recipientAtoms changeOutput
    request.lockTime
  ensureStandardTransactionSize transaction
  let outputAtoms ← okOr transaction.checkedOutputValueAtoms
    WalletSpendBuildError.amountOverflow
  let finalFee ← okOr (totalInputAtoms.checkedSub outputAtoms)
    WalletSpendBuildError.insufficientFunds
  rejectWhen (finalFee < actualFee) .feeLoopDidNotConverge
  rejectWhen (0 < changeAtoms && finalFee ≠ actualFee) .feeLoopDidNotConverge
  pure ((solveTransactionPow crypto.toCrypto wallet.network transaction finalFee startNonce).map
    fun transaction => ⟨transaction, finalFee, 0 < changeAtoms⟩)

/-- One round after another with the fee that the last placeholder asked for. -/
def feeRounds (request : WalletSpendRequest) (startNonce totalInputAtoms : UInt64) :
    (rounds : Nat) → (feeAtoms : UInt64) →
      Except WalletSpendBuildError (Option WalletBuiltSpend)
  | 0, _ => .error .feeLoopDidNotConverge
  | rounds + 1, feeAtoms => do
      let (recipientAtoms, changeAtoms) ← recipientAndChangeAmounts totalInputAtoms
        request.amountAtoms feeAtoms request.includeFeeInTotal dustRelayValueAtoms
      let placeholder ← wallet.buildPlaceholderSpendTransactionFromParts crypto
        request.selectedUtxos request.transactionVersion request.recipientDigest recipientAtoms
        (if 0 < changeAtoms then some (changeAtoms, List.replicate 32 0) else none)
        request.lockTime
      ensureStandardTransactionSize placeholder
      let actualFee := minimumRequiredFeeAtoms wallet.network placeholder
      if actualFee = feeAtoms then
        wallet.completeSpend crypto request startNonce totalInputAtoms actualFee recipientAtoms
          changeAtoms
      else feeRounds request startNonce totalInputAtoms rounds actualFee

/-- A payment, or none when the search for its proof of work never ends. -/
def buildSignedPaymentTransaction (request : WalletSpendRequest) (startNonce : UInt64) :
    Except WalletSpendBuildError (Option WalletBuiltSpend) := do
  rejectWhen request.selectedUtxos.isEmpty .noInputs
  rejectWhen (request.changeAddress.any fun address => address.network ≠ wallet.network)
    .wrongNetwork
  rejectWhen (!request.includeFeeInTotal && request.amountAtoms < dustRelayValueAtoms)
    .amountBelowMinimumOutput
  let totalInputAtoms ← okOr
    (UInt64.checkedSum 0 (request.selectedUtxos.map WalletSpendUtxo.valueAtoms))
    WalletSpendBuildError.amountOverflow
  wallet.feeRounds crypto request startNonce totalInputAtoms 4 minTxFeeAtoms

end Wallet

end Atho
