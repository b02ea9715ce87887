import Atho.Core.Network

/-! Transactions and their witnesses: canonical bytes, sizes, identifiers and
the witness parser. -/

namespace Atho

/-! Witnesses. -/

structure WitnessInputRef where
  inputIndex : UInt32
  sigRefShort : Bytes 2
  witnessCommitRef : Bytes 16
  deriving DecidableEq

structure WitnessSignerGroup where
  signature : List UInt8
  pubkey : List UInt8
  inputRefs : List WitnessInputRef
  deriving DecidableEq

structure TxWitness where
  signature : List UInt8
  pubkey : List UInt8
  inputRefs : List WitnessInputRef
  additionalSigners : List WitnessSignerGroup
  deriving DecidableEq

namespace WitnessInputRef

def commitmentBytes (ref : WitnessInputRef) : List UInt8 :=
  le32 ref.inputIndex ++ ref.sigRefShort.toList

def canonicalBytes (ref : WitnessInputRef) : List UInt8 :=
  le32 ref.inputIndex ++ ref.sigRefShort.toList ++ ref.witnessCommitRef.toList

end WitnessInputRef

namespace WitnessSignerGroup

/-- The group with its references written by `ref`. -/
def bytesWith (ref : WitnessInputRef → List UInt8) (group : WitnessSignerGroup) :
    List UInt8 :=
  lengthPrefixed group.signature ++ lengthPrefixed group.pubkey ++
    countPrefixed ref group.inputRefs

end WitnessSignerGroup

namespace TxWitness

/-- The signature, key and references that the witness carries outside its
additional signers. -/
def primary (witness : TxWitness) : WitnessSignerGroup :=
  ⟨witness.signature, witness.pubkey, witness.inputRefs⟩

def bytesWith (ref : WitnessInputRef → List UInt8) (witness : TxWitness) : List UInt8 :=
  witness.primary.bytesWith ref ++
    countPrefixed (WitnessSignerGroup.bytesWith ref) witness.additionalSigners

/-- What the witness tree commits to: everything but the block-specific
references. -/
def commitmentBytes (witness : TxWitness) : List UInt8 :=
  witness.bytesWith WitnessInputRef.commitmentBytes

def canonicalBytes (witness : TxWitness) : List UInt8 :=
  witness.bytesWith WitnessInputRef.canonicalBytes

def isEmpty (witness : TxWitness) : Bool :=
  witness.signature.isEmpty && witness.pubkey.isEmpty && witness.inputRefs.isEmpty &&
    witness.additionalSigners.isEmpty

def signerGroupCount (witness : TxWitness) : Nat :=
  if witness.isEmpty then 0 else 1 + witness.additionalSigners.length

def totalInputRefs (witness : TxWitness) : Nat :=
  witness.inputRefs.length +
    (witness.additionalSigners.map fun group => group.inputRefs.length).sum

/-- The groups `for_each_signer_group` visits. -/
def signerGroups (witness : TxWitness) : List WitnessSignerGroup :=
  if witness.isEmpty then [] else witness.primary :: witness.additionalSigners

def mapInputRefs (change : WitnessInputRef → WitnessInputRef) (witness : TxWitness) :
    TxWitness :=
  { witness with
    inputRefs := witness.inputRefs.map change
    additionalSigners := witness.additionalSigners.map fun group =>
      { group with inputRefs := group.inputRefs.map change } }

/-! Parsing. -/

def witnessInputRefBytes : Nat := 4 + 2 + 16

def minAdditionalSignerBytes : Nat :=
  4 + falcon512SignatureBytes + 4 + falcon512PublicKeyBytes + 4

/-- A byte string of the one length that is accepted. -/
def readSized (length : Nat) : Decoder (List UInt8) := do
  let declared ← Decoder.u32
  Decoder.guard (declared.toNat = length)
  Decoder.take declared.toNat

def readInputRef : Decoder WitnessInputRef := do
  let inputIndex ← Decoder.u32
  let sigRefShort ← Decoder.array 2
  let witnessCommitRef ← Decoder.array 16
  pure ⟨inputIndex, sigRefShort, witnessCommitRef⟩

/-- One signer group, when `used` references were read before it. -/
def readSignerGroup (used : Nat) : Decoder WitnessSignerGroup := do
  let signature ← readSized falcon512SignatureBytes
  let pubkey ← readSized falcon512PublicKeyBytes
  let refCount ← Decoder.u32
  Decoder.guard (used + refCount.toNat ≤ maxWitnessInputRefs)
  let remaining ← Decoder.remaining
  Decoder.guard (refCount.toNat ≤ remaining / witnessInputRefBytes)
  let inputRefs ← Decoder.times refCount.toNat readInputRef
  pure ⟨signature, pubkey, inputRefs⟩

def readAdditionalSigners : (count used : Nat) → Decoder (List WitnessSignerGroup)
  | 0, _ => pure []
  | count + 1, used => do
      let group ← readSignerGroup used
      let rest ← readAdditionalSigners count (used + group.inputRefs.length)
      pure (group :: rest)

def read : Decoder TxWitness := do
  let primary ← readSignerGroup 0
  let groupCount ← Decoder.u32
  let remaining ← Decoder.remaining
  Decoder.guard (groupCount.toNat ≤ remaining / max minAdditionalSignerBytes 1)
  let additionalSigners ←
    readAdditionalSigners groupCount.toNat primary.inputRefs.length
  let remaining ← Decoder.remaining
  Decoder.guard (remaining = 0)
  pure ⟨primary.signature, primary.pubkey, primary.inputRefs, additionalSigners⟩

def fromBytes (bytes : List UInt8) : Option TxWitness :=
  (read bytes).map Prod.fst

end TxWitness

/-! Transactions. -/

structure TxInput where
  previousTxid : Bytes 48
  outputIndex : UInt32
  unlockingScript : List UInt8
  deriving DecidableEq

structure TxOutput where
  valueAtoms : UInt64
  lockingScript : List UInt8
  deriving DecidableEq

structure Transaction where
  version : UInt16
  inputs : List TxInput
  outputs : List TxOutput
  lockTime : UInt32
  witness : List UInt8
  txPowNonce : UInt64
  txPowBits : UInt8
  deriving DecidableEq

def TxInput.bytes (input : TxInput) : List UInt8 :=
  input.previousTxid.toList ++ le32 input.outputIndex ++
    lengthPrefixed input.unlockingScript

def TxOutput.bytes (output : TxOutput) : List UInt8 :=
  le64 output.valueAtoms ++ lengthPrefixed output.lockingScript

namespace Transaction

def isCoinbase (tx : Transaction) : Bool :=
  tx.inputs.isEmpty

def checkedOutputValueAtoms (tx : Transaction) : Option UInt64 :=
  UInt64.checkedSum 0 (tx.outputs.map TxOutput.valueAtoms)

/-- The bytes a transaction is identified by; the hashers read the same bytes. -/
def baseBytes (tx : Transaction) : List UInt8 :=
  le16 tx.version ++ countPrefixed TxInput.bytes tx.inputs ++
    countPrefixed TxOutput.bytes tx.outputs ++ le32 tx.lockTime

def baseSizeBytes (tx : Transaction) : Nat :=
  2 + 4 + (tx.inputs.map fun input => 48 + 4 + 4 + input.unlockingScript.length).sum +
    4 + (tx.outputs.map fun output => 8 + 4 + output.lockingScript.length).sum + 4

def fullSizeBytes (tx : Transaction) : Nat :=
  2 + 2 + 4 + (tx.inputs.map fun input => 48 + 4 + 4 + input.unlockingScript.length).sum +
    4 + (tx.outputs.map fun output => 8 + 4 + output.lockingScript.length).sum +
    4 + tx.witness.length + 4 + txPowNonceBytes + txPowBitsBytes

def weightBytes (tx : Transaction) : Nat :=
  tx.baseSizeBytes * 3 + tx.fullSizeBytes

def vsizeBytes (tx : Transaction) : Nat :=
  (tx.weightBytes + 3) / 4

def witnessPayload (tx : Transaction) : Option TxWitness :=
  if tx.witness.isEmpty then none else TxWitness.fromBytes tx.witness

def txid (crypto : Crypto) (tx : Transaction) : Bytes 48 :=
  crypto.sha3_384 tx.baseBytes

/-- No witness and no proof of work: such a transaction's witness leaf is its
transaction identifier. -/
def bare (tx : Transaction) : Bool :=
  tx.witness.isEmpty && tx.txPowNonce == 0 && tx.txPowBits == 0

/-- What the witness tree's leaf hashes after the base bytes. -/
def witnessCommitmentSuffix (tx : Transaction) : List UInt8 :=
  if tx.bare then []
  else
    (if tx.witness.isEmpty then [0]
      else match tx.witnessPayload with
        | some witness => 1 :: witness.commitmentBytes
        | none => 2 :: lengthPrefixed tx.witness) ++
      le64 tx.txPowNonce ++ [tx.txPowBits]

def witnessCommitmentHash (crypto : Crypto) (tx : Transaction) : Bytes 48 :=
  crypto.sha3_384 (tx.baseBytes ++ tx.witnessCommitmentSuffix)

def signingDigestForInputIndexes (crypto : Crypto) (tx : Transaction)
    (inputIndexes : List UInt32) : Bytes 48 :=
  crypto.sha3_384 (tx.baseBytes ++ countPrefixed le32 inputIndexes)

def signingDigest (crypto : Crypto) (tx : Transaction) : Bytes 48 :=
  crypto.sha3_384 (tx.baseBytes ++ le32 (UInt32.ofNat tx.inputs.length) ++
    (List.range tx.inputs.length).flatMap fun inputIndex => le32 (UInt32.ofNat inputIndex))

end Transaction

end Atho
