import Atho.Core.BlockCodec
import Atho.Core.Genesis
import Atho.Library.Serial
import Atho.P2p.Downloader

/-! The messages of the peer protocol: commands, payloads, their limits and how they
are written. -/

namespace Atho

inductive ProtocolError where
  | unsupportedNetwork
  | unknownMessageCommand
  | payloadTooLarge
  | malformedPayload
  | unexpectedPayload
  | unsupportedProtocolVersion
  | userAgentTooLong
  | genesisMismatch
  | rulesetMismatch
  | tooManyPeerAddresses
  | tooManyInventoryEntries
  | tooManyHeaders
  | invalidHeadersSequence
  | peerBookFull
  | handshakeIncomplete
  | tooManyLocatorHashes
  | invalidCompactBlock
  deriving DecidableEq

/-! The limits that no environment variable changes. -/

def maxMessageSize : Nat := maxBlockRawBytes + 1024
def maxAddrPerMessage : Nat := 1000
def maxInvPerMessage : Nat := 50000
def maxHeadersPerMessage : Nat := 2000
def maxLocatorHashes : Nat := 32
def maxUserAgentBytes : Nat := 256
def maxKnownPeers : Nat := 4096
def minSerializedTransactionBytes : Nat := 29
def maxBlockTransactionCount : Nat := maxBlockVbytes / minSerializedTransactionBytes
def protocolVersion : UInt32 := 1
def minSupportedProtocolVersion : UInt32 := 1
def localNodeServices : UInt64 := 9

/-! Commands. -/

inductive MessageCommand where
  | version
  | verack
  | ping
  | pong
  | getAddr
  | addr
  | inv
  | getData
  | notFound
  | getHeaders
  | headers
  | block
  | tx
  | memPool
  | compactBlock
  | getBlockTxn
  | blockTxn
  deriving DecidableEq

namespace MessageCommand

def all : List MessageCommand :=
  [version, verack, ping, pong, getAddr, addr, inv, getData, notFound, getHeaders, headers,
    block, tx, memPool, compactBlock, getBlockTxn, blockTxn]

def asStr : MessageCommand → String
  | version => "version"
  | verack => "verack"
  | ping => "ping"
  | pong => "pong"
  | getAddr => "getaddr"
  | addr => "addr"
  | inv => "inv"
  | getData => "getdata"
  | notFound => "notfound"
  | getHeaders => "getheaders"
  | headers => "headers"
  | block => "block"
  | tx => "tx"
  | memPool => "mempool"
  | compactBlock => "cmpctblock"
  | getBlockTxn => "getblocktxn"
  | blockTxn => "blocktxn"

def nameBytes (command : MessageCommand) : List UInt8 :=
  command.asStr.toByteArray.data.toList

/-- Bytes that are not text name no command either. -/
def fromBytes (raw : List UInt8) : Except ProtocolError MessageCommand :=
  let name := raw.takeWhile (· ≠ 0)
  okOr (all.find? fun command => command.nameBytes = name) .unknownMessageCommand

def asPaddedBytes (command : MessageCommand) : List UInt8 :=
  command.nameBytes ++ List.replicate (12 - command.nameBytes.length) 0

end MessageCommand

/-! Payloads. -/

structure PeerAddress where
  host : String
  port : UInt16
  services : UInt64
  lastSeenUnix : UInt64
  deriving DecidableEq

structure VersionMessage where
  protocolVersion : UInt32
  minProtocolVersion : UInt32
  services : UInt64
  timestampUnix : Int64
  network : Network
  userAgent : String
  bestHeight : UInt64
  rulesetVersion : UInt32
  relay : Bool
  genesisHash : Hash48
  tipHash : Hash48
  chainwork : Hash48
  deriving DecidableEq

structure GetHeadersMessage where
  locatorHashes : List Hash48
  stopHash : Hash48
  deriving DecidableEq

structure PrefilledTransaction where
  index : UInt32
  transaction : Transaction
  deriving DecidableEq

structure CompactBlockMessage where
  header : BlockHeader
  txCount : Nat
  shortIds : List UInt64
  prefilledTransactions : List PrefilledTransaction
  feesTotalAtoms : UInt64
  feesMinerAtoms : UInt64
  deriving DecidableEq

structure GetBlockTxnMessage where
  blockHash : Hash48
  indexes : List UInt32
  deriving DecidableEq

structure BlockTxnMessage where
  blockHash : Hash48
  indexes : List UInt32
  transactions : List Transaction
  deriving DecidableEq

/-- A block as it is relayed, with the fees that no rule looks at. -/
structure RelayBlock extends Block where
  feesTotalAtoms : UInt64
  feesMinerAtoms : UInt64
  deriving DecidableEq

inductive MessagePayload where
  | version (message : VersionMessage)
  | verack
  | ping (nonce : UInt64)
  | pong (nonce : UInt64)
  | getAddr
  | addr (addresses : List PeerAddress)
  | inv (inventory : List InventoryVector)
  | getData (inventory : List InventoryVector)
  | notFound (inventory : List InventoryVector)
  | getHeaders (message : GetHeadersMessage)
  | headers (sequence : List BlockHeader)
  | block (block : RelayBlock)
  | tx (transaction : Transaction)
  | memPool
  | compactBlock (message : CompactBlockMessage)
  | getBlockTxn (message : GetBlockTxnMessage)
  | blockTxn (message : BlockTxnMessage)
  deriving DecidableEq

structure NetworkMessage where
  network : Network
  payload : MessagePayload
  deriving DecidableEq

def MessagePayload.command : MessagePayload → MessageCommand
  | version _ => .version
  | verack => .verack
  | ping _ => .ping
  | pong _ => .pong
  | getAddr => .getAddr
  | addr _ => .addr
  | inv _ => .inv
  | getData _ => .getData
  | notFound _ => .notFound
  | getHeaders _ => .getHeaders
  | headers _ => .headers
  | block _ => .block
  | tx _ => .tx
  | memPool => .memPool
  | compactBlock _ => .compactBlock
  | getBlockTxn _ => .getBlockTxn
  | blockTxn _ => .blockTxn

def NetworkMessage.command (message : NetworkMessage) : MessageCommand :=
  message.payload.command

/-! Validation. -/

def validateCompactBlockMessage (message : CompactBlockMessage) : Except ProtocolError Unit := do
  rejectWhen (message.txCount = 0 ∨ maxBlockTransactionCount < message.txCount)
    .invalidCompactBlock
  rejectWhen (message.txCount < message.prefilledTransactions.length ∨
    message.txCount < message.shortIds.length) .invalidCompactBlock
  rejectWhen (message.prefilledTransactions.length + message.shortIds.length ≠ message.txCount)
    .invalidCompactBlock

def validateGetblocktxnMessage (message : GetBlockTxnMessage) : Except ProtocolError Unit :=
  rejectWhen (maxBlockTransactionCount < message.indexes.length) .invalidCompactBlock

def validateBlocktxnMessage (message : BlockTxnMessage) : Except ProtocolError Unit :=
  rejectWhen (message.indexes.length ≠ message.transactions.length ∨
    maxBlockTransactionCount < message.indexes.length) .invalidCompactBlock

def rulesetVersionAtHeight (height : UInt64) : UInt32 :=
  (rulesAtHeightWithSchedule height scheduledActivations).rulesetVersion

def validateVersionMessage (crypto : Crypto) (message : VersionMessage)
    (expectedNetwork : Network) : Except ProtocolError Unit := do
  rejectWhen (message.network ≠ expectedNetwork) .unsupportedNetwork
  rejectWhen (message.protocolVersion < minSupportedProtocolVersion) .unsupportedProtocolVersion
  rejectWhen (protocolVersion < message.minProtocolVersion) .unsupportedProtocolVersion
  rejectWhen (maxUserAgentBytes < message.userAgent.utf8ByteSize) .userAgentTooLong
  rejectWhen (message.genesisHash ≠ genesisHash crypto expectedNetwork) .genesisMismatch
  rejectWhen (message.rulesetVersion ≠ rulesetVersionAtHeight message.bestHeight)
    .rulesetMismatch

/-! Writing and reading payloads. -/

/-- How the payload types are serialized. -/
structure PayloadFormats where
  version : Serial VersionMessage
  nonce : Serial UInt64
  addresses : Serial (List PeerAddress)
  inventory : Serial (List InventoryVector)
  getHeaders : Serial GetHeadersMessage
  headers : Serial (List BlockHeader)
  block : Serial RelayBlock
  transaction : Serial Transaction
  compactBlock : Serial CompactBlockMessage
  getBlockTxn : Serial GetBlockTxnMessage
  blockTxn : Serial BlockTxnMessage

def serialize (serial : Serial α) (value : α) : Except ProtocolError (List UInt8) :=
  okOr (serial.serialize value) .malformedPayload

def deserialize (serial : Serial α) (payload : List UInt8) : Except ProtocolError α :=
  okOr (serial.deserializeExact payload) .malformedPayload

def expectEmpty (payload : List UInt8) : Except ProtocolError Unit :=
  rejectWhen (payload ≠ []) .unexpectedPayload

/-- What a payload is checked for before it is written and after it is read. -/
def MessagePayload.checkLimits : MessagePayload → Except ProtocolError Unit
  | addr addresses => rejectWhen (maxAddrPerMessage < addresses.length) .tooManyPeerAddresses
  | inv inventory | getData inventory | notFound inventory =>
      rejectWhen (maxInvPerMessage < inventory.length) .tooManyInventoryEntries
  | getHeaders message =>
      rejectWhen (maxLocatorHashes < message.locatorHashes.length) .tooManyLocatorHashes
  | headers sequence => rejectWhen (maxHeadersPerMessage < sequence.length) .tooManyHeaders
  | compactBlock message => validateCompactBlockMessage message
  | getBlockTxn message => validateGetblocktxnMessage message
  | blockTxn message => validateBlocktxnMessage message
  | _ => .ok ()

namespace NetworkMessage

variable (formats : PayloadFormats)

def encodePayload (message : NetworkMessage) : Except ProtocolError (List UInt8) := do
  message.payload.checkLimits
  match message.payload with
  | .version version => serialize formats.version version
  | .verack | .getAddr | .memPool => .ok []
  | .ping nonce | .pong nonce => serialize formats.nonce nonce
  | .addr addresses => serialize formats.addresses addresses
  | .inv inventory | .getData inventory | .notFound inventory =>
      serialize formats.inventory inventory
  | .getHeaders message => serialize formats.getHeaders message
  | .headers sequence => serialize formats.headers sequence
  | .block block => serialize formats.block block
  | .tx transaction => serialize formats.transaction transaction
  | .compactBlock message => serialize formats.compactBlock message
  | .getBlockTxn message => serialize formats.getBlockTxn message
  | .blockTxn message => serialize formats.blockTxn message

/-- The payload of a command, before its limits are checked. -/
def readPayload (command : MessageCommand) (payload : List UInt8) :
    Except ProtocolError MessagePayload :=
  match command with
  | .version => return .version (← deserialize formats.version payload)
  | .verack => do
      expectEmpty payload
      return .verack
  | .ping => return .ping (← deserialize formats.nonce payload)
  | .pong => return .pong (← deserialize formats.nonce payload)
  | .getAddr => do
      expectEmpty payload
      return .getAddr
  | .addr => return .addr (← deserialize formats.addresses payload)
  | .inv => return .inv (← deserialize formats.inventory payload)
  | .getData => return .getData (← deserialize formats.inventory payload)
  | .notFound => return .notFound (← deserialize formats.inventory payload)
  | .getHeaders => return .getHeaders (← deserialize formats.getHeaders payload)
  | .headers => return .headers (← deserialize formats.headers payload)
  | .block => return .block (← deserialize formats.block payload)
  | .tx => return .tx (← deserialize formats.transaction payload)
  | .memPool => do
      expectEmpty payload
      return .memPool
  | .compactBlock => return .compactBlock (← deserialize formats.compactBlock payload)
  | .getBlockTxn => return .getBlockTxn (← deserialize formats.getBlockTxn payload)
  | .blockTxn => return .blockTxn (← deserialize formats.blockTxn payload)

def decode (network : Network) (command : MessageCommand) (payload : List UInt8) :
    Except ProtocolError NetworkMessage := do
  let payload ← readPayload formats command payload
  payload.checkLimits
  return ⟨network, payload⟩

end NetworkMessage

end Atho
