import Atho.Core.Block
import Atho.Core.TransactionCodec

/-! The canonical bytes of whole transactions and blocks, their decoders, and what
a decoded block says about the bytes it came from. -/

namespace Atho

open Decoder

def Network.fromConsensusId : UInt8 → Option Network
  | 1 => some .mainnet
  | 2 => some .testnet
  | 3 => some .regnet
  | 4 => some .prunetest
  | _ => none

def Network.p2pMagic (network : Network) : List UInt8 :=
  [0xa7, 0x54, 0x48, network.consensusId]

theorem Network.consensusId_of_fromConsensusId {id : UInt8} {network : Network}
    (hid : fromConsensusId id = some network) : network.consensusId = id := by
  unfold fromConsensusId at hid
  split at hid <;> cases hid <;> rfl

theorem Network.fromConsensusId_consensusId (network : Network) :
    fromConsensusId network.consensusId = some network := by
  cases network <;> rfl

/-! Transactions. -/

def minTransactionInputBytes : Nat := 48 + 4 + 4
def minTransactionOutputBytes : Nat := 8 + 4

def TxInput.read : Decoder TxInput := do
  let previousTxid ← array 48
  let outputIndex ← u32
  let unlockingScript ← sized
  pure ⟨previousTxid, outputIndex, unlockingScript⟩

def TxOutput.read : Decoder TxOutput := do
  let valueAtoms ← u64
  let lockingScript ← sized
  pure ⟨valueAtoms, lockingScript⟩

theorem TxInput.reads_read : Reads TxInput.read TxInput.bytes := by
  intro input rest value hread
  obtain ⟨previousTxid, _, hprevious, hread⟩ := bind_eq_some.mp hread
  obtain ⟨outputIndex, _, hindex, hread⟩ := bind_eq_some.mp hread
  obtain ⟨unlockingScript, _, hscript, hread⟩ := bind_eq_some.mp hread
  obtain ⟨rfl, rfl⟩ := pure_eq_some.mp hread
  rw [array_eq_some.mp hprevious, reads_u32 hindex, reads_sized hscript]
  simp [TxInput.bytes]

theorem TxOutput.reads_read : Reads TxOutput.read TxOutput.bytes := by
  intro input rest value hread
  obtain ⟨valueAtoms, _, hvalue, hread⟩ := bind_eq_some.mp hread
  obtain ⟨lockingScript, _, hscript, hread⟩ := bind_eq_some.mp hread
  obtain ⟨rfl, rfl⟩ := pure_eq_some.mp hread
  rw [reads_u64 hvalue, reads_sized hscript]
  simp [TxOutput.bytes]

theorem TxInput.writes_read :
    Writes (fun input => input.unlockingScript.length < 2 ^ 32) TxInput.read TxInput.bytes := by
  intro input rest hscript
  simp only [TxInput.read, TxInput.bytes, List.append_assoc]
  rw [bind_of_some (writes_array _ trivial), bind_of_some (writes_u32 _ trivial),
    bind_of_some (writes_sized _ hscript)]
  rfl

theorem TxOutput.writes_read :
    Writes (fun output => output.lockingScript.length < 2 ^ 32)
      TxOutput.read TxOutput.bytes := by
  intro output rest hscript
  simp only [TxOutput.read, TxOutput.bytes, List.append_assoc]
  rw [bind_of_some (writes_u64 _ trivial), bind_of_some (writes_sized _ hscript)]
  rfl

namespace Transaction

def fullBytes (tx : Transaction) : List UInt8 :=
  le16 tx.version ++ [0x00, 0x01] ++ countPrefixed TxInput.bytes tx.inputs ++
    countPrefixed TxOutput.bytes tx.outputs ++ lengthPrefixed tx.witness ++
    le32 tx.lockTime ++ le64 tx.txPowNonce ++ [tx.txPowBits]

def read : Decoder Transaction := do
  let version ← u16
  let marker ← take 2
  Decoder.guard (marker = [0x00, 0x01])
  let inputs ← counted minTransactionInputBytes TxInput.read
  let outputs ← counted minTransactionOutputBytes TxOutput.read
  let witness ← sized
  Decoder.guard (witness = [] ∨ (TxWitness.fromBytes witness).isSome)
  let lockTime ← u32
  let txPowNonce ← u64
  let txPowBits ← byte
  let remaining ← remaining
  Decoder.guard (remaining = 0)
  pure ⟨version, inputs, outputs, lockTime, witness, txPowNonce, txPowBits⟩

def fromFullBytes (bytes : List UInt8) : Option Transaction :=
  (read bytes).map Prod.fst

theorem length_fullBytes (tx : Transaction) : tx.fullBytes.length = tx.fullSizeBytes := by
  simp only [fullBytes, countPrefixed, lengthPrefixed, List.length_append, length_le16,
    length_le32, length_le64, length_flatMap_of_length TxInput.length_bytes,
    length_flatMap_of_length TxOutput.length_bytes, fullSizeBytes, txPowNonceBytes,
    txPowBitsBytes, List.length_cons, List.length_nil]
  omega

theorem outputs_fit {tx : Transaction} (hsize : tx.fullBytes.length < 2 ^ 32) :
    tx.outputs.length < 2 ^ 32 := by
  have hcount := @length_le_sum _ tx.outputs (fun output => 8 + 4 + output.lockingScript.length)
    8 (by decide) (by intros; omega)
  rw [length_fullBytes, fullSizeBytes] at hsize
  omega

theorem fromFullBytes_sound {bytes : List UInt8} {tx : Transaction}
    (hdecode : fromFullBytes bytes = some tx) : bytes = tx.fullBytes := by
  obtain ⟨⟨decoded, rest⟩, hread, rfl⟩ := Option.map_eq_some_iff.mp hdecode
  obtain ⟨version, _, hversion, hread⟩ := bind_eq_some.mp hread
  obtain ⟨marker, _, hmarker, hread⟩ := bind_eq_some.mp hread
  obtain ⟨_, _, hguard, hread⟩ := bind_eq_some.mp hread
  obtain ⟨rfl, rfl⟩ := guard_eq_some.mp hguard
  obtain ⟨inputs, _, hinputs, hread⟩ := bind_eq_some.mp hread
  obtain ⟨outputs, _, houtputs, hread⟩ := bind_eq_some.mp hread
  obtain ⟨witness, _, hwitness, hread⟩ := bind_eq_some.mp hread
  obtain ⟨_, _, hguard, hread⟩ := bind_eq_some.mp hread
  obtain ⟨-, rfl⟩ := guard_eq_some.mp hguard
  obtain ⟨lockTime, _, hlockTime, hread⟩ := bind_eq_some.mp hread
  obtain ⟨txPowNonce, _, hnonce, hread⟩ := bind_eq_some.mp hread
  obtain ⟨txPowBits, _, hbits, hread⟩ := bind_eq_some.mp hread
  obtain ⟨remaining, _, hremaining, hread⟩ := bind_eq_some.mp hread
  obtain ⟨rfl, rfl⟩ := remaining_eq_some.mp hremaining
  obtain ⟨_, _, hguard, hread⟩ := bind_eq_some.mp hread
  obtain ⟨hempty, rfl⟩ := guard_eq_some.mp hguard
  obtain ⟨rfl, rfl⟩ := pure_eq_some.mp hread
  rw [reads_u16 hversion, (take_eq_some.mp hmarker).1,
    reads_counted _ TxInput.reads_read hinputs, reads_counted _ TxOutput.reads_read houtputs,
    reads_sized hwitness, reads_u32 hlockTime, reads_u64 hnonce, byte_eq_some.mp hbits,
    List.length_eq_zero_iff.mp hempty]
  simp [fullBytes]

/-- Every length fits its four bytes, and the witness is empty or written by a
well-formed bundle. -/
structure WellFormed (tx : Transaction) : Prop extends tx.Sized where
  witnessLength : tx.witness.length < 2 ^ 32
  witness : tx.witness = [] ∨
    ∃ witness : TxWitness, witness.WellFormed ∧ tx.witness = witness.canonicalBytes

theorem fromFullBytes_fullBytes {tx : Transaction} (htx : tx.WellFormed) :
    fromFullBytes tx.fullBytes = some tx := by
  have hinputs := @writes_counted _ _ _ _ minTransactionInputBytes (by decide)
    (fun input => by rw [TxInput.length_bytes, minTransactionInputBytes]; omega)
    TxInput.writes_read
  have houtputs := @writes_counted _ _ _ _ minTransactionOutputBytes (by decide)
    (fun output => by rw [TxOutput.length_bytes, minTransactionOutputBytes]; omega)
    TxOutput.writes_read
  have hwitness : tx.witness = [] ∨ (TxWitness.fromBytes tx.witness).isSome := by
    refine htx.witness.imp_right ?_
    rintro ⟨witness, hwitness, hbytes⟩
    rw [hbytes, TxWitness.fromBytes_canonicalBytes hwitness, Option.isSome_some]
  have hread : read tx.fullBytes = some (tx, []) := by
    simp only [read, fullBytes, List.append_assoc]
    rw [bind_of_some (writes_u16 _ trivial),
      bind_of_some (take_eq_some.mpr ⟨rfl, show [0x00, 0x01].length = 2 from rfl⟩),
      bind_of_some (guard_of _ rfl), bind_of_some (hinputs _ ⟨htx.inputs, htx.unlockingScripts⟩),
      bind_of_some (houtputs _ ⟨htx.outputs, htx.lockingScripts⟩),
      bind_of_some (writes_sized _ htx.witnessLength), bind_of_some (guard_of _ hwitness),
      bind_of_some (writes_u32 _ trivial), bind_of_some (writes_u64 _ trivial),
      bind_of_some (byte_eq_some.mpr rfl), bind_of_some (remaining_eq_some.mpr ⟨rfl, rfl⟩),
      bind_of_some (guard_of _ List.length_nil)]
    rfl
  rw [fromFullBytes, hread]
  rfl

theorem eq_of_fullBytes {left right : Transaction} (hsize : left.fullBytes.length < 2 ^ 32)
    (heq : left.fullBytes = right.fullBytes) : left = right := by
  have hleft : left.fullSizeBytes < 2 ^ 32 := by rwa [← length_fullBytes]
  have hright : right.fullSizeBytes < 2 ^ 32 := by rwa [← length_fullBytes, ← heq]
  have hsized := Sized.of_fullSizeBytes hleft
  have hsized' := Sized.of_fullSizeBytes hright
  have hwitness : left.witness.length < 2 ^ 32 := by unfold fullSizeBytes at hleft; omega
  have hwitness' : right.witness.length < 2 ^ 32 := by unfold fullSizeBytes at hright; omega
  simp only [fullBytes, List.append_assoc] at heq
  obtain ⟨hversion, heq⟩ := unambiguous_le16 trivial trivial heq
  have heq := List.append_cancel_left heq
  obtain ⟨hinputs, heq⟩ := unambiguous_countPrefixed unambiguous_txInput
    ⟨hsized.inputs, hsized.unlockingScripts⟩ ⟨hsized'.inputs, hsized'.unlockingScripts⟩ heq
  obtain ⟨houtputs, heq⟩ := unambiguous_countPrefixed unambiguous_txOutput
    ⟨hsized.outputs, hsized.lockingScripts⟩ ⟨hsized'.outputs, hsized'.lockingScripts⟩ heq
  obtain ⟨hwitnesses, heq⟩ := unambiguous_lengthPrefixed hwitness hwitness' heq
  obtain ⟨hlockTime, heq⟩ := unambiguous_le32 trivial trivial heq
  obtain ⟨hnonce, heq⟩ := unambiguous_le64 trivial trivial heq
  obtain ⟨hbits, -⟩ := List.cons.inj heq
  cases left
  cases right
  simp_all

end Transaction

/-! Blocks. -/

namespace BlockHeader

def read : Decoder BlockHeader := do
  let version ← u16
  let id ← byte
  let networkId ← lift (Network.fromConsensusId id)
  let height ← u64
  let previousBlockHash ← array 48
  let merkleRoot ← array 48
  let witnessRoot ← array 48
  let foundersHashSha3_384 ← array 48
  let foundersHashSha3_512 ← array 64
  let timestamp ← u64
  let difficultyTargetOrBits ← array 48
  let nonce ← u64
  let remaining ← remaining
  Decoder.guard (remaining = 0)
  pure ⟨version, networkId, height, previousBlockHash, merkleRoot, witnessRoot,
    foundersHashSha3_384, foundersHashSha3_512, timestamp, difficultyTargetOrBits, nonce⟩

def fromCanonicalBytes (bytes : List UInt8) : Option BlockHeader :=
  (read bytes).map Prod.fst

theorem fromCanonicalBytes_sound {bytes : List UInt8} {header : BlockHeader}
    (hdecode : fromCanonicalBytes bytes = some header) : bytes = header.canonicalBytes := by
  obtain ⟨⟨decoded, rest⟩, hread, rfl⟩ := Option.map_eq_some_iff.mp hdecode
  obtain ⟨version, _, hversion, hread⟩ := bind_eq_some.mp hread
  obtain ⟨id, _, hid, hread⟩ := bind_eq_some.mp hread
  obtain ⟨networkId, _, hlift, hread⟩ := bind_eq_some.mp hread
  obtain ⟨hnetwork, rfl⟩ := lift_eq_some.mp hlift
  obtain ⟨height, _, hheight, hread⟩ := bind_eq_some.mp hread
  obtain ⟨previous, _, hprevious, hread⟩ := bind_eq_some.mp hread
  obtain ⟨merkle, _, hmerkle, hread⟩ := bind_eq_some.mp hread
  obtain ⟨witness, _, hwitness, hread⟩ := bind_eq_some.mp hread
  obtain ⟨founders, _, hfounders, hread⟩ := bind_eq_some.mp hread
  obtain ⟨founders', _, hfounders', hread⟩ := bind_eq_some.mp hread
  obtain ⟨timestamp, _, htimestamp, hread⟩ := bind_eq_some.mp hread
  obtain ⟨target, _, htarget, hread⟩ := bind_eq_some.mp hread
  obtain ⟨nonce, _, hnonce, hread⟩ := bind_eq_some.mp hread
  obtain ⟨remaining, _, hremaining, hread⟩ := bind_eq_some.mp hread
  obtain ⟨rfl, rfl⟩ := remaining_eq_some.mp hremaining
  obtain ⟨_, _, hguard, hread⟩ := bind_eq_some.mp hread
  obtain ⟨hempty, rfl⟩ := guard_eq_some.mp hguard
  obtain ⟨rfl, rfl⟩ := pure_eq_some.mp hread
  rw [reads_u16 hversion, byte_eq_some.mp hid, reads_u64 hheight, array_eq_some.mp hprevious,
    array_eq_some.mp hmerkle, array_eq_some.mp hwitness, array_eq_some.mp hfounders,
    array_eq_some.mp hfounders', reads_u64 htimestamp, array_eq_some.mp htarget,
    reads_u64 hnonce, List.length_eq_zero_iff.mp hempty,
    ← Network.consensusId_of_fromConsensusId hnetwork]
  simp [canonicalBytes]

theorem fromCanonicalBytes_canonicalBytes (header : BlockHeader) :
    fromCanonicalBytes header.canonicalBytes = some header := by
  have hread : read (header.canonicalBytes ++ []) = some (header, []) := by
    simp only [read, canonicalBytes, List.append_assoc, List.cons_append]
    rw [bind_of_some (writes_u16 _ trivial), bind_of_some (byte_eq_some.mpr rfl),
      bind_of_some (lift_eq_some.mpr ⟨header.networkId.fromConsensusId_consensusId, rfl⟩),
      bind_of_some (writes_u64 _ trivial), bind_of_some (writes_array _ trivial),
      bind_of_some (writes_array _ trivial), bind_of_some (writes_array _ trivial),
      bind_of_some (writes_array _ trivial), bind_of_some (writes_array _ trivial),
      bind_of_some (writes_u64 _ trivial), bind_of_some (writes_array _ trivial),
      bind_of_some (writes_u64 _ trivial), bind_of_some (remaining_eq_some.mpr ⟨rfl, rfl⟩),
      bind_of_some (guard_of _ List.length_nil)]
    rfl
  rw [fromCanonicalBytes, ← List.append_nil header.canonicalBytes, hread]
  rfl

end BlockHeader

namespace Block

def canonicalBytes (block : Block) : List UInt8 :=
  block.header.canonicalBytes ++
    countPrefixed (fun tx => lengthPrefixed tx.fullBytes) block.transactions

def readTransaction : Decoder Transaction := do
  let bytes ← sized
  lift (Transaction.fromFullBytes bytes)

def read : Decoder Block := do
  let headerBytes ← take BlockHeader.canonicalSizeBytes
  let header ← lift (BlockHeader.fromCanonicalBytes headerBytes)
  let transactions ← counted 4 readTransaction
  let remaining ← remaining
  Decoder.guard (remaining = 0)
  pure ⟨header, transactions⟩

def fromCanonicalBytes (bytes : List UInt8) : Option Block :=
  (read bytes).map Prod.fst

theorem reads_readTransaction :
    Reads readTransaction fun tx => lengthPrefixed tx.fullBytes := by
  intro input rest tx hread
  obtain ⟨bytes, _, hbytes, hread⟩ := bind_eq_some.mp hread
  obtain ⟨hdecode, rfl⟩ := lift_eq_some.mp hread
  rw [reads_sized hbytes, Transaction.fromFullBytes_sound hdecode]

theorem fromCanonicalBytes_sound {bytes : List UInt8} {block : Block}
    (hdecode : fromCanonicalBytes bytes = some block) : bytes = block.canonicalBytes := by
  obtain ⟨⟨decoded, rest⟩, hread, rfl⟩ := Option.map_eq_some_iff.mp hdecode
  obtain ⟨headerBytes, _, hbytes, hread⟩ := bind_eq_some.mp hread
  obtain ⟨header, _, hlift, hread⟩ := bind_eq_some.mp hread
  obtain ⟨hheader, rfl⟩ := lift_eq_some.mp hlift
  obtain ⟨transactions, _, htransactions, hread⟩ := bind_eq_some.mp hread
  obtain ⟨remaining, _, hremaining, hread⟩ := bind_eq_some.mp hread
  obtain ⟨rfl, rfl⟩ := remaining_eq_some.mp hremaining
  obtain ⟨_, _, hguard, hread⟩ := bind_eq_some.mp hread
  obtain ⟨hempty, rfl⟩ := guard_eq_some.mp hguard
  obtain ⟨rfl, rfl⟩ := pure_eq_some.mp hread
  rw [(take_eq_some.mp hbytes).1, BlockHeader.fromCanonicalBytes_sound hheader,
    reads_counted _ reads_readTransaction htransactions, List.length_eq_zero_iff.mp hempty]
  simp [canonicalBytes]

/-- The transactions and their number and sizes can be written. -/
structure WellFormed (block : Block) : Prop where
  count : block.transactions.length < 2 ^ 32
  sizes : ∀ tx ∈ block.transactions, tx.fullBytes.length < 2 ^ 32
  transactions : ∀ tx ∈ block.transactions, tx.WellFormed

theorem writes_readTransaction :
    Writes (fun tx : Transaction => tx.fullBytes.length < 2 ^ 32 ∧ tx.WellFormed)
      readTransaction fun tx => lengthPrefixed tx.fullBytes := by
  rintro tx rest ⟨hsize, htx⟩
  rw [readTransaction, bind_of_some (writes_sized _ hsize)]
  exact lift_eq_some.mpr ⟨Transaction.fromFullBytes_fullBytes htx, rfl⟩

theorem fromCanonicalBytes_canonicalBytes {block : Block} (hblock : block.WellFormed) :
    fromCanonicalBytes block.canonicalBytes = some block := by
  have htransactions := @writes_counted _ _ _ _ 4 (by decide)
    (fun tx => by simp [lengthPrefixed]) writes_readTransaction
  have hread : read (block.canonicalBytes ++ []) = some (block, []) := by
    simp only [read, canonicalBytes, List.append_assoc]
    rw [bind_of_some (take_eq_some.mpr ⟨rfl, BlockHeader.length_canonicalBytes _⟩),
      bind_of_some (lift_eq_some.mpr
        ⟨BlockHeader.fromCanonicalBytes_canonicalBytes block.header, rfl⟩),
      bind_of_some (htransactions _ ⟨hblock.count, fun tx htx =>
        ⟨hblock.sizes tx htx, hblock.transactions tx htx⟩⟩),
      bind_of_some (remaining_eq_some.mpr ⟨rfl, rfl⟩),
      bind_of_some (guard_of _ List.length_nil)]
    rfl
  rw [fromCanonicalBytes, ← List.append_nil block.canonicalBytes, hread]
  rfl

theorem length_canonicalBytes (block : Block) :
    block.canonicalBytes.length = block.sizeMetrics.rawSizeBytes := by
  have hsizes : ∀ tx : Transaction,
      (lengthPrefixed tx.fullBytes).length = 4 + tx.fullSizeBytes := by
    intro tx
    simp [lengthPrefixed, Transaction.length_fullBytes]
  simp only [canonicalBytes, countPrefixed, List.length_append, length_le32,
    BlockHeader.length_canonicalBytes, length_flatMap_of_length hsizes, sizeMetrics]
  omega

theorem fits_of_length {block : Block} (hsize : block.canonicalBytes.length < 2 ^ 32) :
    block.transactions.length < 2 ^ 32 ∧
      ∀ tx ∈ block.transactions, tx.fullBytes.length < 2 ^ 32 := by
  have hcount := @Transaction.length_le_sum _ block.transactions
    (fun tx => 4 + tx.fullSizeBytes) 4 (by decide) (by intros; omega)
  rw [length_canonicalBytes, sizeMetrics] at hsize
  dsimp only at hsize
  refine ⟨by omega, ?_⟩
  intro tx htx
  have hle := List.single_le_sum (l := block.transactions.map
    fun tx => 4 + tx.fullSizeBytes) (by simp) _ (List.mem_map_of_mem htx)
  rw [Transaction.length_fullBytes]
  omega

theorem eq_of_canonicalBytes {left right : Block}
    (hsize : left.canonicalBytes.length < 2 ^ 32)
    (heq : left.canonicalBytes = right.canonicalBytes) : left = right := by
  have hleft := fits_of_length hsize
  have hright := fits_of_length (heq ▸ hsize)
  obtain ⟨hheader, hbody⟩ := List.append_inj heq
    ((BlockHeader.length_canonicalBytes _).trans (BlockHeader.length_canonicalBytes _).symm)
  have hunambiguous : Unambiguous (fun tx : Transaction => tx.fullBytes.length < 2 ^ 32)
      fun tx => lengthPrefixed tx.fullBytes := by
    intro left right after after' hleft hright heq
    obtain ⟨hbytes, hafter⟩ := unambiguous_lengthPrefixed hleft hright heq
    exact ⟨Transaction.eq_of_fullBytes hleft hbytes, hafter⟩
  obtain ⟨htransactions, -⟩ := unambiguous_countPrefixed hunambiguous hleft hright
    (congrArg (· ++ []) hbody)
  have hheader := BlockHeader.canonicalBytes_injective hheader
  cases left
  cases right
  simp_all

end Block

/-- The four decoders and their encoders are inverse to one another: a value that can be
written is read back, and whatever is read is written back byte for byte. -/
theorem canonical_codecs_inverse :
    ((∀ tx : Transaction, tx.WellFormed → Transaction.fromFullBytes tx.fullBytes = some tx) ∧
      ∀ bytes tx, Transaction.fromFullBytes bytes = some tx → tx.fullBytes = bytes) ∧
    ((∀ witness : TxWitness, witness.WellFormed →
        TxWitness.fromBytes witness.canonicalBytes = some witness) ∧
      ∀ bytes witness, TxWitness.fromBytes bytes = some witness →
        witness.canonicalBytes = bytes) ∧
    ((∀ header : BlockHeader,
        BlockHeader.fromCanonicalBytes header.canonicalBytes = some header) ∧
      ∀ bytes header, BlockHeader.fromCanonicalBytes bytes = some header →
        header.canonicalBytes = bytes) ∧
    ((∀ block : Block, block.WellFormed →
        Block.fromCanonicalBytes block.canonicalBytes = some block) ∧
      ∀ bytes block, Block.fromCanonicalBytes bytes = some block →
        block.canonicalBytes = bytes) :=
  ⟨⟨fun _ => Transaction.fromFullBytes_fullBytes,
      fun _ _ hdecode => (Transaction.fromFullBytes_sound hdecode).symm⟩,
    ⟨fun _ => TxWitness.fromBytes_canonicalBytes,
      fun _ _ hparse => (TxWitness.fromBytes_sound hparse).1.symm⟩,
    ⟨BlockHeader.fromCanonicalBytes_canonicalBytes,
      fun _ _ hdecode => (BlockHeader.fromCanonicalBytes_sound hdecode).symm⟩,
    fun _ => Block.fromCanonicalBytes_canonicalBytes,
    fun _ _ hdecode => (Block.fromCanonicalBytes_sound hdecode).symm⟩

/-- The bundle of one signer for one input. -/
def oneSignerWitness : TxWitness :=
  ⟨List.replicate falcon512SignatureBytes 7, List.replicate falcon512PublicKeyBytes 9,
    [⟨0, ⟨[1, 2], rfl⟩, ⟨List.replicate 16 3, rfl⟩⟩], []⟩

def oneSignerTransaction : Transaction :=
  ⟨1, [⟨⟨List.replicate 48 5, rfl⟩, 0, []⟩], [⟨100, [6]⟩], 0,
    oneSignerWitness.canonicalBytes, 0, 0⟩

theorem oneSignerWitness_wellFormed : oneSignerWitness.WellFormed :=
  ⟨⟨List.length_replicate, List.length_replicate, List.cons_ne_nil _ _⟩,
    fun _ hgroup => absurd hgroup List.not_mem_nil, by decide⟩

theorem oneSignerTransaction_wellFormed : oneSignerTransaction.WellFormed :=
  ⟨⟨by decide, by decide, by decide, by decide⟩, by decide +kernel,
    .inr ⟨_, oneSignerWitness_wellFormed, rfl⟩⟩

theorem one_signer_round_trip :
    oneSignerTransaction.WellFormed ∧ oneSignerWitness.WellFormed ∧
      Transaction.fromFullBytes oneSignerTransaction.fullBytes = some oneSignerTransaction ∧
      TxWitness.fromBytes oneSignerWitness.canonicalBytes = some oneSignerWitness :=
  ⟨oneSignerTransaction_wellFormed, oneSignerWitness_wellFormed,
    canonical_codecs_inverse.1.1 _ oneSignerTransaction_wellFormed,
    canonical_codecs_inverse.2.1.1 _ oneSignerWitness_wellFormed⟩

end Atho
