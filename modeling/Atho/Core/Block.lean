import Atho.Core.Transaction
import Atho.Library.PairTree

/-! Blocks: header bytes, sizes, and the two commitment trees. -/

namespace Atho

structure BlockHeader where
  version : UInt16
  networkId : Network
  height : UInt64
  previousBlockHash : Bytes 48
  merkleRoot : Bytes 48
  witnessRoot : Bytes 48
  foundersHashSha3_384 : Bytes 48
  foundersHashSha3_512 : Bytes 64
  timestamp : UInt64
  difficultyTargetOrBits : Bytes 48
  nonce : UInt64
  deriving DecidableEq

structure Block where
  header : BlockHeader
  transactions : List Transaction
  deriving DecidableEq

structure BlockSizeMetrics where
  baseSizeBytes : Nat
  rawSizeBytes : Nat
  weightBytes : Nat
  vsizeBytes : Nat
  deriving DecidableEq

namespace BlockHeader

def canonicalSizeBytes : Nat :=
  2 + 1 + 8 + 48 + 48 + 48 + 48 + 64 + 8 + 48 + 8

def canonicalBytes (header : BlockHeader) : List UInt8 :=
  le16 header.version ++ header.networkId.consensusId :: le64 header.height ++
    header.previousBlockHash.toList ++ header.merkleRoot.toList ++
    header.witnessRoot.toList ++ header.foundersHashSha3_384.toList ++
    header.foundersHashSha3_512.toList ++ le64 header.timestamp ++
    header.difficultyTargetOrBits.toList ++ le64 header.nonce

theorem length_canonicalBytes (header : BlockHeader) :
    header.canonicalBytes.length = canonicalSizeBytes := by
  simp [canonicalBytes, canonicalSizeBytes]

theorem canonicalBytes_injective : Function.Injective canonicalBytes := by
  intro left right heq
  simp only [canonicalBytes, List.append_assoc, List.cons_append] at heq
  obtain ⟨hversion, heq⟩ := unambiguous_le16 trivial trivial heq
  obtain ⟨hnetwork, heq⟩ := List.cons.inj heq
  obtain ⟨hheight, heq⟩ := unambiguous_le64 trivial trivial heq
  obtain ⟨hprevious, heq⟩ := unambiguous_bytes trivial trivial heq
  obtain ⟨hmerkle, heq⟩ := unambiguous_bytes trivial trivial heq
  obtain ⟨hwitness, heq⟩ := unambiguous_bytes trivial trivial heq
  obtain ⟨hfounders, heq⟩ := unambiguous_bytes trivial trivial heq
  obtain ⟨hfounders', heq⟩ := unambiguous_bytes trivial trivial heq
  obtain ⟨htimestamp, heq⟩ := unambiguous_le64 trivial trivial heq
  obtain ⟨htarget, heq⟩ := unambiguous_bytes trivial trivial heq
  have hnonce := le64_injective heq
  have hid := Network.consensusId_injective hnetwork
  cases left
  cases right
  simp_all

def blockHash (crypto : Crypto) (header : BlockHeader) : Bytes 48 :=
  crypto.sha3_384 header.canonicalBytes

end BlockHeader

/-! Commitment trees. -/

/-- The bytes hashed for two neighbouring nodes. -/
def concatDigests (left right : Bytes 48) : List UInt8 :=
  left.toList ++ right.toList

theorem concatDigests_injective {left right left' right' : Bytes 48}
    (heq : concatDigests left right = concatDigests left' right') :
    left = left' ∧ right = right' := by
  obtain ⟨hleft, hright⟩ := List.append_inj heq (by simp)
  exact ⟨Bytes.ext hleft, Bytes.ext hright⟩

/-- The root over a layer of leaf digests, all zeroes over none. -/
def treeRoot (crypto : Crypto) (leaves : List (Bytes 48)) : Bytes 48 :=
  (PairTree.root concatDigests crypto.sha3_384 leaves).getD (.zero 48)

def merkleRoot (crypto : Crypto) (transactions : List Transaction) : Bytes 48 :=
  treeRoot crypto (transactions.map (Transaction.txid crypto))

def witnessRoot (crypto : Crypto) (transactions : List Transaction) : Bytes 48 :=
  treeRoot crypto (transactions.map (Transaction.witnessCommitmentHash crypto))

namespace Block

def sizeMetrics (block : Block) : BlockSizeMetrics :=
  let headerAndCount := BlockHeader.canonicalSizeBytes + 4
  let base := headerAndCount +
    (block.transactions.map fun tx => 4 + tx.baseSizeBytes).sum
  let raw := headerAndCount +
    (block.transactions.map fun tx => 4 + tx.fullSizeBytes).sum
  let weight := base * 3 + raw
  { baseSizeBytes := base
    rawSizeBytes := raw
    weightBytes := weight
    vsizeBytes := (weight + 3) / 4 }

def merkleRoot (crypto : Crypto) (block : Block) : Bytes 48 :=
  Atho.merkleRoot crypto block.transactions

def computeWitnessRoot (crypto : Crypto) (block : Block) : Bytes 48 :=
  Atho.witnessRoot crypto block.transactions

end Block

end Atho
