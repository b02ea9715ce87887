import Atho.Library.Sha3
import Atho.Library.Checked

/-! Networks, consensus constants, version rules and the primitives that the
node takes from outside. -/

namespace Atho

inductive Network where
  | mainnet
  | testnet
  | regnet
  | prunetest
  deriving DecidableEq, Repr

namespace Network

def consensusId : Network → UInt8
  | mainnet => 1
  | testnet => 2
  | regnet => 3
  | prunetest => 4

def id : Network → String
  | mainnet => "atho-mainnet"
  | testnet => "atho-testnet"
  | regnet => "atho-regnet"
  | prunetest => "atho-prunetest"

def domainTag : Network → String
  | mainnet => "mainnet"
  | testnet => "testnet"
  | regnet => "regnet"
  | prunetest => "prunetest"

theorem consensusId_injective : Function.Injective consensusId := by
  intro left right heq
  cases left <;> cases right <;> first | rfl | cases heq

end Network

/-- The bytes of an ASCII label. -/
def ascii (label : String) : List UInt8 :=
  label.toList.map fun char => UInt8.ofNat char.toNat

/-! Constants. -/

def halvingIntervalBlocks : UInt64 := 1260000
def coinbaseMaturityBlocks : UInt64 := 100
def normalTxValidAfterConfirmations : UInt64 := 1
def minRelayFeeRateAtomsPerVbyte : UInt64 := 1
def minTxFeeAtoms : UInt64 := minRelayFeeRateAtomsPerVbyte
def dustRelayValueAtoms : UInt64 := 100
def maxStandardInputs : Nat := 1024
def maxStandardOutputs : Nat := 64
def txPowMinBits : UInt8 := 16
def txPowMaxBits : UInt8 := 28
def txPowNonceBytes : Nat := 8
def txPowBitsBytes : Nat := 1
def initialBlockRewardAtoms : UInt64 := 5000000000
def tailRewardAtoms : UInt64 := 39062500
def falcon512PublicKeyBytes : Nat := 897
def falcon512SignatureBytes : Nat := 666
def maxTransactionRawBytes : Nat := 250000
def maxTransactionVbytes : Nat := 250000
def txWitnessFixedBytes : Nat :=
  4 + falcon512SignatureBytes + 4 + falcon512PublicKeyBytes + 4
def maxWitnessInputRefs : Nat := (maxTransactionRawBytes - 88 - txWitnessFixedBytes) / 18
def maxBlockVbytes : Nat := 3000000
def maxBlockRawBytes : Nat := 12000000
def maxBlockWeight : Nat := maxBlockVbytes * 4
def addressDigestBytes : Nat := 32
def pruneDepthBlocks : UInt64 := 100000
def maxReorgDepthBlocks : UInt64 := pruneDepthBlocks

def foundersHashSha3_384 : Bytes 48 := .ofNat 48
  0x3582d92eff98ba5e575ae721ced2b32bf7bea4628971d339dc189fde10716a40b91a67f8eb300894eaebb921754cdd86

def foundersHashSha3_512 : Bytes 64 := .ofNat 64
  0xc93086ce58c4a64ef15672b00836eca94d14ea3810a584360fb11e11f065d5949aa1307f9315bce31316c820e6f58f0dace98f48111e6538a3d7a231e58e51bf

/-! Version rules. -/

structure ScheduledActivation where
  name : String
  rulesetVersion : UInt32
  blockVersion : UInt16
  transactionVersion : UInt16
  activationHeight : Option UInt64
  deriving DecidableEq

structure ConsensusRules where
  protocolVersion : UInt32
  rulesetVersion : UInt32
  blockVersion : UInt16
  transactionVersion : UInt16
  activationHeight : UInt64
  deriving DecidableEq

def rulesetV1 : ScheduledActivation where
  name := "atho-ruleset-v1"
  rulesetVersion := 1
  blockVersion := 1
  transactionVersion := 1
  activationHeight := some 0

def rulesetV2Placeholder : ScheduledActivation where
  name := "atho-ruleset-v2-placeholder"
  rulesetVersion := 2
  blockVersion := 2
  transactionVersion := 2
  activationHeight := none

def scheduledActivations : List ScheduledActivation :=
  [rulesetV1, rulesetV2Placeholder]

/-- The active entry with the greatest activation height, the last one on ties. -/
def latestActivation (height : UInt64) (schedule : List ScheduledActivation) :
    Option (ScheduledActivation × UInt64) :=
  schedule.foldl
    (fun best activation =>
      match activation.activationHeight with
      | none => best
      | some start =>
          if start ≤ height then
            match best with
            | none => some (activation, start)
            | some (_, bestStart) =>
                if bestStart ≤ start then some (activation, start) else best
          else best)
    none

def rulesAtHeightWithSchedule (height : UInt64) (schedule : List ScheduledActivation) :
    ConsensusRules :=
  let activation := match latestActivation height schedule with
    | some (activation, _) => activation
    | none => schedule.head?.getD rulesetV1
  { protocolVersion := 1
    rulesetVersion := activation.rulesetVersion
    blockVersion := activation.blockVersion
    transactionVersion := activation.transactionVersion
    activationHeight := activation.activationHeight.getD 0 }

def isSupportedBlockVersionWithSchedule (version : UInt16) (height : UInt64)
    (schedule : List ScheduledActivation) : Bool :=
  (rulesAtHeightWithSchedule height schedule).blockVersion == version

def isSupportedTransactionVersionWithSchedule (version : UInt16) (height : UInt64)
    (schedule : List ScheduledActivation) : Bool :=
  (rulesAtHeightWithSchedule height schedule).transactionVersion == version

/-! Primitives. -/

inductive AthoSignatureDomain where
  | transaction
  | block
  | walletLocal
  | package
  | testDev
  deriving DecidableEq

/-- The hash functions and the signature check the node calls. `falconVerify`
gives nothing where the Falcon library reports an error. -/
structure Crypto where
  sha3_256 : List UInt8 → Bytes 32
  sha3_384 : List UInt8 → Bytes 48
  falconVerify : AthoSignatureDomain → (publicKey : List UInt8) → (message : Bytes 48) →
    (signature : List UInt8) → Option Bool

/-- The SHA3 functions themselves, with a given signature check. -/
def Crypto.standard (falconVerify : AthoSignatureDomain → List UInt8 → Bytes 48 →
    List UInt8 → Option Bool) : Crypto where
  sha3_256 := Sha3.digest256
  sha3_384 := Sha3.digest384
  falconVerify := falconVerify

/-- SHA3 where no signature is ever checked. -/
def Crypto.hashing : Crypto :=
  .standard fun _ _ _ _ => none

end Atho
