import Atho.Core.Genesis

/-! Payment locks, signing digests, and the fee and proof-of-work policy for
transactions. -/

namespace Atho

/-! Payment locks. -/

def addressRoleDomain : String := "ATHO_ADDR_V1"

def roleDigestFromPubkey (crypto : Crypto) (network : Network) (publicKey : List UInt8)
    (role : String) : Bytes 32 :=
  crypto.sha3_256
    (ascii role ++ 0 :: ascii network.domainTag ++ 0 :: publicKey)

def publicKeyDigest (crypto : Crypto) (network : Network) (publicKey : List UInt8) :
    Bytes 32 :=
  roleDigestFromPubkey crypto network publicKey addressRoleDomain

/-- A payment lock is exactly one digest; other lengths are not canonical. -/
def paymentDigestFromLockingScript (lockingScript : List UInt8) : Option (Bytes 32) :=
  if hlength : lockingScript.length = 32 then some ⟨lockingScript, hlength⟩ else none

theorem paymentDigestFromLockingScript_eq_some {script : List UInt8} {digest : Bytes 32} :
    paymentDigestFromLockingScript script = some digest ↔ script = digest.toList := by
  unfold paymentDigestFromLockingScript
  split
  · simp only [Option.some.injEq]
    exact ⟨fun heq => congrArg Bytes.toList heq, fun heq => Bytes.ext heq⟩
  · next hlength =>
      simp only [reduceCtorEq, false_iff]
      rintro rfl
      exact hlength digest.length_toList

/-! Signing digests. -/

def athoTxSignV1 : String := "ATHO_TX_SIGN_V1"

/-- The domain-separated hash of one inner digest. -/
def signingPreimage (crypto : Crypto) (network : Network) (inner : Bytes 48) : List UInt8 :=
  ascii athoTxSignV1 ++ network.consensusId :: (genesisHash crypto network).toList ++
    inner.toList

def transactionSigningDigest (crypto : Crypto) (network : Network) (tx : Transaction) :
    Bytes 48 :=
  crypto.sha3_384 (signingPreimage crypto network (tx.signingDigest crypto))

def transactionSigningDigestForInputIndexes (crypto : Crypto) (network : Network)
    (tx : Transaction) (inputIndexes : List UInt32) : Bytes 48 :=
  crypto.sha3_384
    (signingPreimage crypto network (tx.signingDigestForInputIndexes crypto inputIndexes))

/-! Fees and outputs. -/

def minimumRequiredFeeAtoms (_network : Network) (tx : Transaction) : UInt64 :=
  let vbytes := max tx.vsizeBytes 1
  max minTxFeeAtoms
    (UInt64.ofNat (min (vbytes * minRelayFeeRateAtomsPerVbyte.toNat) (2 ^ 64 - 1)))

def minimumOutputAmountAtoms (_network : Network) (_tx : Transaction) : UInt64 :=
  dustRelayValueAtoms

def maximumStandardOutputs (_network : Network) (_tx : Transaction) : Nat :=
  maxStandardOutputs

/-! Proof of work on transactions. -/

def testnetTxPowBits : UInt8 := 12

def txPowDomain : String := "ATHO_TX_POW_V1"

/-- The bits that size and outputs add to the minimum. -/
def sizeBits (vbytes outputCount : Nat) : Int :=
  (if 500 < vbytes then 1 else 0) + (if 1000 < vbytes then 1 else 0) +
    (if 2000 < vbytes then 1 else 0) + (if 2 < outputCount then 1 else 0) +
    (if 8 < outputCount then 1 else 0) + (if 32 < outputCount then 1 else 0)

def feeBits (feeRate outputCount : Nat) : Int :=
  (if 100 ≤ feeRate then -1 else if 10 ≤ feeRate then 0 else if 1 ≤ feeRate then 2 else 4) +
    (if 32 < outputCount ∧ feeRate ≤ 1 then 2 else 0)

def requiredTxPowBits (network : Network) (tx : Transaction) (feeAtoms : UInt64) : UInt8 :=
  if tx.isCoinbase then 0
  else if network = .testnet then testnetTxPowBits
  else
    let vbytes := max tx.vsizeBytes 1
    let feeRate := feeAtoms.toNat / vbytes
    let outputCount := tx.outputs.length
    let bits := (txPowMinBits.toNat : Int) + sizeBits vbytes outputCount +
      feeBits feeRate outputCount
    UInt8.ofNat (max (txPowMinBits.toNat : Int) (min bits txPowMaxBits.toNat)).toNat

/-- What the proof of work covers: the base bytes and the witness without its
block-specific references. -/
def txPowMessage (tx : Transaction) : List UInt8 :=
  tx.baseBytes ++
    match tx.witnessPayload with
    | none => le32 0
    | some witness =>
        le32 (UInt32.ofNat witness.signerGroupCount) ++
          witness.signerGroups.flatMap
            (WitnessSignerGroup.bytesWith WitnessInputRef.commitmentBytes)

def transactionPowPreimage (crypto : Crypto) (network : Network) (tx : Transaction) :
    Bytes 32 :=
  crypto.sha3_256
    (ascii txPowDomain ++ network.consensusId :: (genesisHash crypto network).toList ++
      txPowMessage tx)

def leadingZeroBitsFrom (count : Nat) : List UInt8 → Nat
  | [] => count
  | byte :: rest =>
      if byte = 0 then leadingZeroBitsFrom (min (count + 8) 255) rest
      else
        let zeroes := ((List.range 8).takeWhile fun bit => !byte.toNat.testBit (7 - bit)).length
        min (count + zeroes) 255

def leadingZeroBits (bytes : List UInt8) : Nat :=
  leadingZeroBitsFrom 0 bytes

def transactionPowHash (crypto : Crypto) (preimage : Bytes 32) (nonce : UInt64) : Bytes 32 :=
  crypto.sha3_256 (preimage.toList ++ be64 nonce)

def transactionPowIsValidForBits (crypto : Crypto) (network : Network) (tx : Transaction)
    (requiredBits : UInt8) : Bool :=
  if requiredBits = 0 then true
  else if tx.txPowBits ≠ requiredBits then false
  else
    let preimage := transactionPowPreimage crypto network tx
    decide (requiredBits.toNat ≤
      leadingZeroBits (transactionPowHash crypto preimage tx.txPowNonce).toList)

/-- The first of the next `remaining` nonces that has enough leading zero bits; after the
largest nonce comes zero. -/
def findTransactionPowNonce (crypto : Crypto) (preimage : Bytes 32) (requiredBits : UInt8) :
    (remaining : Nat) → (nonce : UInt64) → Option UInt64
  | 0, _ => none
  | remaining + 1, nonce =>
      if requiredBits.toNat ≤ leadingZeroBits (transactionPowHash crypto preimage nonce).toList then
        some nonce
      else findTransactionPowNonce crypto preimage requiredBits remaining (nonce + 1)

/-- Search from a nonce drawn at random; none means that the search goes round for ever.
Several workers race, so any nonce that is good may win, which is the result of a search
that starts there. -/
def solveTransactionPow (crypto : Crypto) (network : Network) (tx : Transaction)
    (feeAtoms : UInt64) (startNonce : UInt64) : Option Transaction :=
  let requiredBits := requiredTxPowBits network tx feeAtoms
  let tx := { tx with txPowBits := requiredBits, txPowNonce := 0 }
  if requiredBits = 0 then some tx
  else
    (findTransactionPowNonce crypto (transactionPowPreimage crypto network tx) requiredBits
      (2 ^ 64) startNonce).map fun nonce => { tx with txPowNonce := nonce }

end Atho
