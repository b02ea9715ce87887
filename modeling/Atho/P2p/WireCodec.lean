import Atho.P2p.Protocol

/-! Frames: magic, padded command, length, checksum and payload. -/

namespace Atho

def frameHeaderBytes : Nat := 24

inductive CodecError where
  | messageTooShort
  | invalidMagic
  | checksumMismatch
  | payloadTooLarge
  | trailingBytes
  | protocol (err : ProtocolError)
  deriving DecidableEq

def Network.fromP2pMagic (magic : List UInt8) : Option Network :=
  [.mainnet, .testnet, .regnet, .prunetest].find? fun network : Network =>
    network.p2pMagic = magic

/-- An error of the protocol layer, passed on by the codec. -/
def CodecError.wrap (result : Except ProtocolError α) : Except CodecError α :=
  result.mapError .protocol

namespace WireCodec

variable (crypto : Crypto) (formats : PayloadFormats)

def payloadChecksum (payload : List UInt8) : List UInt8 :=
  (crypto.sha3_256 payload).toList.take 4

def encode (message : NetworkMessage) : Except CodecError (List UInt8) := do
  let payload ← CodecError.wrap (message.encodePayload formats)
  rejectWhen (2 ^ 32 ≤ payload.length ∨ maxMessageSize < payload.length) .payloadTooLarge
  return message.network.p2pMagic ++ message.command.asPaddedBytes ++
    le32 (UInt32.ofNat payload.length) ++ payloadChecksum crypto payload ++ payload

def decode (bytes : List UInt8) : Except CodecError NetworkMessage := do
  rejectWhen (bytes.length < frameHeaderBytes) .messageTooShort
  let network ← okOr (Network.fromP2pMagic (bytes.take 4)) .invalidMagic
  let command ← CodecError.wrap (MessageCommand.fromBytes ((bytes.drop 4).take 12))
  let payloadLength := leValue ((bytes.drop 16).take 4)
  rejectWhen (maxMessageSize < payloadLength) .payloadTooLarge
  let frameLength := frameHeaderBytes + payloadLength
  rejectWhen (bytes.length < frameLength) .messageTooShort
  rejectWhen (bytes.length ≠ frameLength) .trailingBytes
  let payload := bytes.drop frameHeaderBytes
  rejectWhen (payloadChecksum crypto payload ≠ (bytes.drop 20).take 4) .checksumMismatch
  CodecError.wrap (NetworkMessage.decode formats network command payload)

end WireCodec

/-! Commands. -/

theorem MessageCommand.mem_all (command : MessageCommand) : command ∈ all := by
  cases command <;> decide

theorem MessageCommand.nameBytes_spec :
    (∀ command ∈ all, command.nameBytes.length ≤ 12 ∧ ∀ byte ∈ command.nameBytes, byte ≠ 0) ∧
      (all.map nameBytes).Nodup := by
  decide +kernel

namespace MessageCommand

theorem nameBytes_injective : Function.Injective nameBytes := by
  intro left right heq
  exact List.inj_on_of_nodup_map nameBytes_spec.2 left.mem_all right.mem_all heq

@[simp] theorem length_asPaddedBytes (command : MessageCommand) :
    command.asPaddedBytes.length = 12 := by
  have hlength := (nameBytes_spec.1 command command.mem_all).1
  rw [asPaddedBytes, List.length_append, List.length_replicate]
  omega

theorem fromBytes_eq_ok {raw : List UInt8} {command : MessageCommand} :
    fromBytes raw = .ok command ↔ raw.takeWhile (· ≠ 0) = command.nameBytes := by
  rw [fromBytes, okOr_eq_ok]
  constructor
  · intro hfind
    have hfound := List.find?_some hfind
    exact (of_decide_eq_true hfound).symm
  · intro hname
    have hsome : (all.find? fun other => other.nameBytes = raw.takeWhile (· ≠ 0)).isSome := by
      rw [List.find?_isSome]
      exact ⟨command, command.mem_all, by simpa using hname.symm⟩
    obtain ⟨found, hfound⟩ := Option.isSome_iff_exists.mp hsome
    have hsame := List.find?_some hfound
    rw [hfound, nameBytes_injective ((of_decide_eq_true hsame).trans hname)]

/-- The bytes behind the name of a command field are zero. -/
def PaddingClear (raw : List UInt8) : Prop :=
  ∀ byte ∈ raw.dropWhile (· ≠ 0), byte = 0

instance (raw : List UInt8) : Decidable (PaddingClear raw) :=
  inferInstanceAs (Decidable (∀ _ ∈ _, _))

/-- A command field is written back as it was read, if nothing but zeroes follows the
name. -/
theorem asPaddedBytes_eq_iff {raw : List UInt8} {command : MessageCommand}
    (hlength : raw.length = 12) (hread : fromBytes raw = .ok command) :
    command.asPaddedBytes = raw ↔ PaddingClear raw := by
  rw [fromBytes_eq_ok] at hread
  have hsplit : command.nameBytes ++ raw.dropWhile (· ≠ 0) = raw := by
    rw [← hread, List.takeWhile_append_dropWhile]
  have hcount : (raw.dropWhile (· ≠ 0)).length = 12 - command.nameBytes.length := by
    have htotal := congrArg List.length hsplit
    rw [List.length_append, hlength] at htotal
    omega
  rw [asPaddedBytes, PaddingClear]
  nth_rewrite 1 [← hsplit]
  rw [List.append_cancel_left_eq, ← hcount, eq_comm, List.eq_replicate_iff]
  simp

theorem fromBytes_asPaddedBytes (command : MessageCommand) :
    fromBytes command.asPaddedBytes = .ok command := by
  have hname := (nameBytes_spec.1 command command.mem_all).2
  rw [fromBytes_eq_ok, asPaddedBytes, List.takeWhile_append_of_pos (by simpa using hname)]
  simp

end MessageCommand

/-! Payloads. -/

theorem deserialize_of_serialize {serial : Serial α} {value : α} {payload : List UInt8}
    (hserialize : serialize serial value = .ok payload) :
    deserialize serial payload = .ok value := by
  rw [serialize, okOr_eq_ok] at hserialize
  rw [deserialize, Serial.deserializeExact_serialize hserialize, okOr_eq_ok]

namespace NetworkMessage

variable {formats : PayloadFormats} {message : NetworkMessage} {payload : List UInt8}

theorem readPayload_of_encodePayload (hencode : message.encodePayload formats = .ok payload) :
    readPayload formats message.command payload = .ok message.payload := by
  obtain ⟨network, content⟩ := message
  rw [encodePayload, bind_eq_ok] at hencode
  obtain ⟨-, -, hwrite⟩ := hencode
  cases content with
  | verack | getAddr | memPool =>
      cases hwrite
      rfl
  | _ =>
      simp only [readPayload, command, MessagePayload.command,
        deserialize_of_serialize hwrite]
      rfl

theorem decode_of_encodePayload (hencode : message.encodePayload formats = .ok payload) :
    decode formats message.network message.command payload = .ok message := by
  have hread := readPayload_of_encodePayload hencode
  rw [encodePayload, bind_eq_ok] at hencode
  obtain ⟨_, hlimits, -⟩ := hencode
  rw [decode, hread]
  simp only [bind_eq_ok, Except.ok.injEq]
  exact ⟨message.payload, rfl, (), hlimits, rfl⟩

end NetworkMessage

theorem NetworkMessage.of_decode {formats : PayloadFormats} {network : Network}
    {command : MessageCommand} {payload : List UInt8} {message : NetworkMessage}
    (hdecode : decode formats network command payload = .ok message) :
    message.network = network ∧ message.command = command := by
  simp only [decode, bind_eq_ok] at hdecode
  obtain ⟨content, hread, -, -, hmessage⟩ := hdecode
  cases hmessage
  refine ⟨rfl, ?_⟩
  cases command <;>
  · simp only [readPayload, bind_eq_ok] at hread
    obtain ⟨_, -, hcontent⟩ := hread
    cases hcontent
    rfl

/-! Frames. -/

namespace WireCodec

variable {crypto : Crypto} {formats : PayloadFormats}

theorem fromP2pMagic_eq_some {magic : List UInt8} {network : Network} :
    Network.fromP2pMagic magic = some network ↔ network.p2pMagic = magic := by
  constructor
  · intro hmagic
    rw [Network.fromP2pMagic] at hmagic
    have hfound := List.find?_some hmagic
    exact of_decide_eq_true hfound
  · rintro rfl
    cases network <;> rfl

theorem wrap_eq_ok {result : Except ProtocolError α} {value : α} :
    CodecError.wrap result = .ok value ↔ result = .ok value :=
  mapError_eq_ok

theorem encode_eq_ok {message : NetworkMessage} {frame : List UInt8} :
    encode crypto formats message = .ok frame ↔
      ∃ payload, message.encodePayload formats = .ok payload ∧
        payload.length ≤ maxMessageSize ∧
        frame = message.network.p2pMagic ++ message.command.asPaddedBytes ++
          le32 (UInt32.ofNat payload.length) ++ payloadChecksum crypto payload ++ payload := by
  have hfits : maxMessageSize < 2 ^ 32 := by decide
  simp only [encode, bind_eq_ok, wrap_eq_ok, rejectWhen_eq_ok, decide_eq_false_iff_not, not_or,
    not_le, not_lt]
  constructor
  · rintro ⟨payload, hpayload, -, hsize, hframe⟩
    exact ⟨payload, hpayload, hsize.2, (Except.ok.inj hframe).symm⟩
  · rintro ⟨payload, hpayload, hsize, rfl⟩
    exact ⟨payload, hpayload, (), ⟨hsize.trans_lt hfits, hsize⟩, rfl⟩

theorem decode_eq_ok {bytes : List UInt8} {message : NetworkMessage} :
    decode crypto formats bytes = .ok message ↔
      ∃ network command, Network.fromP2pMagic (bytes.take 4) = some network ∧
        MessageCommand.fromBytes ((bytes.drop 4).take 12) = .ok command ∧
        leValue ((bytes.drop 16).take 4) ≤ maxMessageSize ∧
        bytes.length = frameHeaderBytes + leValue ((bytes.drop 16).take 4) ∧
        payloadChecksum crypto (bytes.drop frameHeaderBytes) = (bytes.drop 20).take 4 ∧
        NetworkMessage.decode formats network command (bytes.drop frameHeaderBytes) =
          .ok message := by
  simp only [decode, bind_eq_ok, okOr_eq_ok, wrap_eq_ok, rejectWhen_eq_ok,
    decide_eq_false_iff_not, not_not, not_lt]
  constructor
  · rintro ⟨-, -, network, hnetwork, command, hcommand, -, hsize, -, -, -, hlength, -, hsum,
      hdecode⟩
    exact ⟨network, command, hnetwork, hcommand, hsize, hlength, hsum, hdecode⟩
  · rintro ⟨network, command, hnetwork, hcommand, hsize, hlength, hsum, hdecode⟩
    exact ⟨(), by omega, network, hnetwork, command, hcommand, (), hsize, (), by omega, (),
      hlength, (), hsum, hdecode⟩

theorem length_p2pMagic (network : Network) : network.p2pMagic.length = 4 := by
  cases network <;> rfl

theorem length_payloadChecksum (payload : List UInt8) :
    (payloadChecksum crypto payload).length = 4 := by
  simp [payloadChecksum]

/-- The five fields of a frame, each but the last of its own length. -/
@[ext] structure Frame where
  magic : List UInt8
  command : List UInt8
  length : List UInt8
  checksum : List UInt8
  payload : List UInt8
  length_magic : magic.length = 4
  length_command : command.length = 12
  length_length : length.length = 4
  length_checksum : checksum.length = 4

namespace Frame

def bytes (frame : Frame) : List UInt8 :=
  frame.magic ++ (frame.command ++ (frame.length ++ (frame.checksum ++ frame.payload)))

/-- Cut a long enough byte string into fields. -/
def cut (bytes : List UInt8) (hlength : frameHeaderBytes ≤ bytes.length) : Frame where
  magic := bytes.take 4
  command := (bytes.drop 4).take 12
  length := (bytes.drop 16).take 4
  checksum := (bytes.drop 20).take 4
  payload := bytes.drop frameHeaderBytes
  length_magic := by simp [frameHeaderBytes] at hlength ⊢; omega
  length_command := by simp [frameHeaderBytes] at hlength ⊢; omega
  length_length := by simp [frameHeaderBytes] at hlength ⊢; omega
  length_checksum := by simp [frameHeaderBytes] at hlength ⊢; omega

theorem bytes_cut (bytes : List UInt8) (hlength : frameHeaderBytes ≤ bytes.length) :
    (cut bytes hlength).bytes = bytes := by
  have hjoin : ∀ start count, (bytes.drop start).take count ++ bytes.drop (start + count) =
      bytes.drop start := by
    intro start count
    rw [← List.drop_drop, List.take_append_drop]
  change bytes.take 4 ++ ((bytes.drop 4).take 12 ++ ((bytes.drop 16).take 4 ++
    ((bytes.drop 20).take 4 ++ bytes.drop 24))) = bytes
  rw [hjoin 20 4, hjoin 16 4, hjoin 4 12, List.take_append_drop]

theorem length_bytes (frame : Frame) :
    frame.bytes.length = frameHeaderBytes + frame.payload.length := by
  simp only [bytes, List.length_append, frame.length_magic, frame.length_command,
    frame.length_length, frame.length_checksum, frameHeaderBytes]
  omega

theorem bytes_injective : Function.Injective bytes := by
  intro left right heq
  obtain ⟨hmagic, heq⟩ := List.append_inj heq (left.length_magic.trans right.length_magic.symm)
  obtain ⟨hcommand, heq⟩ := List.append_inj heq
    (left.length_command.trans right.length_command.symm)
  obtain ⟨hlength, heq⟩ := List.append_inj heq
    (left.length_length.trans right.length_length.symm)
  obtain ⟨hchecksum, hpayload⟩ := List.append_inj heq
    (left.length_checksum.trans right.length_checksum.symm)
  exact Frame.ext hmagic hcommand hlength hchecksum hpayload

theorem cut_bytes (frame : Frame) (hlength : frameHeaderBytes ≤ frame.bytes.length) :
    cut frame.bytes hlength = frame :=
  bytes_injective (bytes_cut _ hlength)

end Frame

/-- The frame of a message with a given payload. -/
def frameOf (crypto : Crypto) (message : NetworkMessage) (payload : List UInt8) : Frame where
  magic := message.network.p2pMagic
  command := message.command.asPaddedBytes
  length := le32 (UInt32.ofNat payload.length)
  checksum := payloadChecksum crypto payload
  payload := payload
  length_magic := length_p2pMagic _
  length_command := message.command.length_asPaddedBytes
  length_length := length_le32 _
  length_checksum := length_payloadChecksum payload

theorem encode_bytes {message : NetworkMessage} {frame : Frame} :
    encode crypto formats message = .ok frame.bytes ↔
      ∃ payload, message.encodePayload formats = .ok payload ∧
        payload.length ≤ maxMessageSize ∧ frame = frameOf crypto message payload := by
  rw [encode_eq_ok]
  refine exists_congr fun payload => and_congr_right fun _ => and_congr_right fun _ => ?_
  rw [← Frame.bytes_injective.eq_iff]
  simp [Frame.bytes, frameOf]

theorem decode_bytes {message : NetworkMessage} {frame : Frame} :
    decode crypto formats frame.bytes = .ok message ↔
      ∃ network command, Network.fromP2pMagic frame.magic = some network ∧
        MessageCommand.fromBytes frame.command = .ok command ∧
        leValue frame.length ≤ maxMessageSize ∧
        frame.payload.length = leValue frame.length ∧
        payloadChecksum crypto frame.payload = frame.checksum ∧
        NetworkMessage.decode formats network command frame.payload = .ok message := by
  have hlength : frameHeaderBytes ≤ frame.bytes.length := by
    rw [frame.length_bytes]
    omega
  have hcut := frame.cut_bytes hlength
  rw [decode_eq_ok, frame.length_bytes, Nat.add_left_cancel_iff]
  change (∃ network command,
    Network.fromP2pMagic (Frame.cut frame.bytes hlength).magic = some network ∧
    MessageCommand.fromBytes (Frame.cut frame.bytes hlength).command = .ok command ∧
    leValue (Frame.cut frame.bytes hlength).length ≤ maxMessageSize ∧
    frame.payload.length = leValue (Frame.cut frame.bytes hlength).length ∧
    payloadChecksum crypto (Frame.cut frame.bytes hlength).payload =
      (Frame.cut frame.bytes hlength).checksum ∧
    NetworkMessage.decode formats network command (Frame.cut frame.bytes hlength).payload =
      .ok message) ↔ _
  rw [hcut]

theorem leValue_le32 {count : Nat} (hfits : count < 2 ^ 32) :
    leValue (le32 (UInt32.ofNat count)) = count := by
  rw [le32, UInt32.toNat_ofNat_of_lt' hfits, leValue_leBytes (hfits.trans_le (by decide))]

theorem decode_frameOf {message : NetworkMessage} {payload : List UInt8}
    (hpayload : message.encodePayload formats = .ok payload)
    (hsize : payload.length ≤ maxMessageSize) :
    decode crypto formats (frameOf crypto message payload).bytes = .ok message := by
  have hvalue := leValue_le32 (hsize.trans_lt (by decide : maxMessageSize < 2 ^ 32))
  refine decode_bytes.mpr ⟨message.network, message.command, fromP2pMagic_eq_some.mpr rfl,
    MessageCommand.fromBytes_asPaddedBytes _, hvalue.le.trans hsize, hvalue.symm, rfl,
    NetworkMessage.decode_of_encodePayload hpayload⟩

/-- A frame whose payload is the canonical one is written back as it was read, if its
command field is padded with zeroes. -/
theorem encode_decoded_iff {message : NetworkMessage} {frame : Frame}
    (hdecode : decode crypto formats frame.bytes = .ok message)
    (hpayload : message.encodePayload formats = .ok frame.payload) :
    encode crypto formats message = .ok frame.bytes ↔
      MessageCommand.PaddingClear frame.command := by
  obtain ⟨network, command, hmagic, hcommand, hsize, hlength, hsum, hread⟩ :=
    decode_bytes.mp hdecode
  obtain ⟨rfl, rfl⟩ := NetworkMessage.of_decode hread
  rw [← MessageCommand.asPaddedBytes_eq_iff frame.length_command hcommand, encode_bytes]
  constructor
  · rintro ⟨payload, -, -, heq⟩
    rw [heq]
    rfl
  · intro hpadded
    refine ⟨frame.payload, hpayload, hlength.le.trans hsize, ?_⟩
    have hwritten : le32 (UInt32.ofNat frame.payload.length) = frame.length := by
      have hbytes := leBytes_leValue frame.length
      have hlt := leValue_lt frame.length
      rw [frame.length_length] at hbytes hlt
      rw [hlength, le32, UInt32.toNat_ofNat_of_lt' (hlt.trans_le (by decide)), hbytes]
    exact Frame.ext (fromP2pMagic_eq_some.mp hmagic).symm hpadded.symm hwritten.symm hsum.symm rfl

/-- Every message within its limits is read back from its frame. The frame of a message is
the only byte string with a canonical payload that is read as the message, apart from those
with other bytes than zeroes behind the name in the command field. -/
theorem wire_frames_canonical_iff (crypto : Crypto) (formats : PayloadFormats) :
    (∀ message payload, NetworkMessage.encodePayload formats message = .ok payload →
      payload.length ≤ maxMessageSize →
      ∃ frame, encode crypto formats message = .ok frame ∧
        decode crypto formats frame = .ok message) ∧
    ∀ bytes message, decode crypto formats bytes = .ok message →
      NetworkMessage.encodePayload formats message = .ok (bytes.drop frameHeaderBytes) →
      (encode crypto formats message = .ok bytes ↔
        MessageCommand.PaddingClear ((bytes.drop 4).take 12)) := by
  constructor
  · intro message payload hpayload hsize
    exact ⟨(frameOf crypto message payload).bytes,
      encode_bytes.mpr ⟨payload, hpayload, hsize, rfl⟩, decode_frameOf hpayload hsize⟩
  · intro bytes message hdecode hpayload
    have hlength : frameHeaderBytes ≤ bytes.length := by
      obtain ⟨_, _, -, -, -, hlength, -⟩ := decode_eq_ok.mp hdecode
      omega
    have hcut := Frame.bytes_cut bytes hlength
    rw [← hcut] at hdecode
    have hiff := encode_decoded_iff hdecode hpayload
    rwa [hcut] at hiff

end WireCodec

/-! The serialization of the source: numbers of variable length, fixed arrays bare, lists
and texts behind their length, variants by position. -/

namespace PayloadFormats

open Serial

def network : Serial Network :=
  enumeration [.mainnet, .testnet, .regnet, .prunetest] fun value => by cases value <;> decide

def versionMessage : Serial VersionMessage :=
  (var32.pair <| var32.pair <| var64.pair <| zigzag.pair <| network.pair <| text.pair <|
    var64.pair <| var32.pair <| Serial.bool.pair <| (Serial.bytes 48).pair <|
    (Serial.bytes 48).pair (Serial.bytes 48)).convert
    (fun message => (message.protocolVersion, message.minProtocolVersion, message.services,
      message.timestampUnix, message.network, message.userAgent, message.bestHeight,
      message.rulesetVersion, message.relay, message.genesisHash, message.tipHash,
      message.chainwork))
    (fun (protocol, least, services, timestamp, network, agent, height, ruleset, relay, genesis,
        tip, work) =>
      some ⟨protocol, least, services, timestamp, network, agent, height, ruleset, relay, genesis,
        tip, work⟩)
    fun _ => rfl

def peerAddress : Serial PeerAddress :=
  (text.pair <| var16.pair <| var64.pair var64).convert
    (fun address => (address.host, address.port, address.services, address.lastSeenUnix))
    (fun (host, port, services, lastSeen) => some ⟨host, port, services, lastSeen⟩)
    fun _ => rfl

def inventoryVector : Serial InventoryVector :=
  ((enumeration [.transaction, .block] fun value : InventoryKind => by
      cases value <;> decide).pair (Serial.bytes 48)).convert
    (fun vector => (vector.kind, vector.hash)) (fun (kind, hash) => some ⟨kind, hash⟩)
    fun _ => rfl

def getHeadersMessage : Serial GetHeadersMessage :=
  ((Serial.bytes 48).varlist.pair (Serial.bytes 48)).convert
    (fun message => (message.locatorHashes, message.stopHash))
    (fun (locator, stop) => some ⟨locator, stop⟩) fun _ => rfl

def blockHeader : Serial BlockHeader :=
  (var16.pair <| network.pair <| var64.pair <| (Serial.bytes 48).pair <| (Serial.bytes 48).pair <|
    (Serial.bytes 48).pair <| (Serial.bytes 48).pair <| (Serial.bytes 64).pair <| var64.pair <|
    (Serial.bytes 48).pair var64).convert
    (fun header => (header.version, header.networkId, header.height, header.previousBlockHash,
      header.merkleRoot, header.witnessRoot, header.foundersHashSha3_384,
      header.foundersHashSha3_512, header.timestamp, header.difficultyTargetOrBits, header.nonce))
    (fun (version, networkId, height, previous, merkle, witness, founders, founders', timestamp,
        target, nonce) =>
      some ⟨version, networkId, height, previous, merkle, witness, founders, founders', timestamp,
        target, nonce⟩)
    fun _ => rfl

def txInput : Serial TxInput :=
  ((Serial.bytes 48).pair <| var32.pair byte.varlist).convert
    (fun input => (input.previousTxid, input.outputIndex, input.unlockingScript))
    (fun (txid, index, script) => some ⟨txid, index, script⟩) fun _ => rfl

def txOutput : Serial TxOutput :=
  (var64.pair byte.varlist).convert (fun output => (output.valueAtoms, output.lockingScript))
    (fun (value, script) => some ⟨value, script⟩) fun _ => rfl

def transactionFormat : Serial Transaction :=
  (var16.pair <| txInput.varlist.pair <| txOutput.varlist.pair <| var32.pair <|
    byte.varlist.pair <| var64.pair byte).convert
    (fun tx => (tx.version, tx.inputs, tx.outputs, tx.lockTime, tx.witness, tx.txPowNonce,
      tx.txPowBits))
    (fun (version, inputs, outputs, lockTime, witness, nonce, bits) =>
      some ⟨version, inputs, outputs, lockTime, witness, nonce, bits⟩)
    fun _ => rfl

def relayBlock : Serial RelayBlock :=
  (blockHeader.pair <| transactionFormat.varlist.pair <| var64.pair var64).convert
    (fun block => (block.header, block.transactions, block.feesTotalAtoms, block.feesMinerAtoms))
    (fun (header, transactions, total, miner) => some ⟨⟨header, transactions⟩, total, miner⟩)
    fun _ => rfl

def prefilledTransaction : Serial PrefilledTransaction :=
  (var32.pair transactionFormat).convert (fun filled => (filled.index, filled.transaction))
    (fun (index, transaction) => some ⟨index, transaction⟩) fun _ => rfl

def compactBlockMessage : Serial CompactBlockMessage :=
  (blockHeader.pair <| varint.pair <| var64.varlist.pair <| prefilledTransaction.varlist.pair <|
    var64.pair var64).convert
    (fun message => (message.header, message.txCount, message.shortIds,
      message.prefilledTransactions, message.feesTotalAtoms, message.feesMinerAtoms))
    (fun (header, count, ids, filled, total, miner) =>
      some ⟨header, count, ids, filled, total, miner⟩)
    fun _ => rfl

def getBlockTxnMessage : Serial GetBlockTxnMessage :=
  ((Serial.bytes 48).pair var32.varlist).convert (fun message => (message.blockHash, message.indexes))
    (fun (hash, indexes) => some ⟨hash, indexes⟩) fun _ => rfl

def blockTxnMessage : Serial BlockTxnMessage :=
  ((Serial.bytes 48).pair <| var32.varlist.pair transactionFormat.varlist).convert
    (fun message => (message.blockHash, message.indexes, message.transactions))
    (fun (hash, indexes, transactions) => some ⟨hash, indexes, transactions⟩) fun _ => rfl

def bincode : PayloadFormats where
  version := versionMessage
  nonce := var64
  addresses := peerAddress.varlist
  inventory := inventoryVector.varlist
  getHeaders := getHeadersMessage
  headers := blockHeader.varlist
  block := relayBlock
  transaction := transactionFormat
  compactBlock := compactBlockMessage
  getBlockTxn := getBlockTxnMessage
  blockTxn := blockTxnMessage

end PayloadFormats

/-- The frame of a verack on mainnet, with a letter in the last byte of its command
field. -/
def slackFrame : List UInt8 :=
  Network.mainnet.p2pMagic ++ MessageCommand.nameBytes .verack ++ [0, 0, 0, 0, 0, 0x58] ++
    le32 0 ++ WireCodec.payloadChecksum .hashing []

theorem slack_frame_decoded_not_canonical :
    WireCodec.decode .hashing .bincode slackFrame = .ok ⟨.mainnet, .verack⟩ ∧
      NetworkMessage.encodePayload .bincode ⟨.mainnet, .verack⟩ =
        .ok (slackFrame.drop frameHeaderBytes) ∧
      WireCodec.encode .hashing .bincode ⟨.mainnet, .verack⟩ ≠ .ok slackFrame := by
  decide +kernel

/-- A message of each direction: a ping is read back from its frame, and its frame is the
one that is written for what was read. -/
theorem ping_frame_canonical :
    ∃ frame, WireCodec.encode .hashing .bincode ⟨.testnet, .ping 70000⟩ = .ok frame ∧
      WireCodec.decode .hashing .bincode frame = .ok ⟨.testnet, .ping 70000⟩ :=
  (WireCodec.wire_frames_canonical_iff .hashing .bincode).1 ⟨.testnet, .ping 70000⟩
    [252, 112, 17, 1, 0] (by decide +kernel) (by decide)

end Atho
