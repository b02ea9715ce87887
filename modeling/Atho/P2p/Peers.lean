import Atho.Library.TreeLookup
import Atho.P2p.Protocol

/-! What the node remembers of its peers: scores and bans, and the addresses it has heard of. -/

namespace UInt32

def saturatingAdd (left right : UInt32) : UInt32 :=
  UInt32.ofNat (min (left.toNat + right.toNat) (2 ^ 32 - 1))

def saturatingSub (left right : UInt32) : UInt32 :=
  UInt32.ofNat (left.toNat - right.toNat)

end UInt32

namespace Atho

def banScoreThreshold : UInt32 := 100
def peerDecayIntervalSecs : UInt64 := 60
def maxAddrPerSource : Nat := 128
def maxPeersPerIp : Nat := 8
def maxPeersPerSubnet : Nat := 16
def maxPeerAddressAgeSecs : UInt64 := 30 * 24 * 60 * 60

def Network.p2pPort : Network → UInt16
  | .mainnet => 56000
  | .testnet => 9100
  | .regnet => 9200
  | .prunetest => 9300

/-! Bans. -/

structure BanState where
  score : UInt32
  bannedUntilUnix : Option UInt64
  lastUpdatedUnix : UInt64
  deriving DecidableEq

structure BanList where
  entries : Std.TreeMap String BanState := ∅

namespace BanList

def bannedUntil (list : BanList) (peer : String) : Option UInt64 :=
  list.entries[peer]?.bind BanState.bannedUntilUnix

def isBanned (list : BanList) (peer : String) (now : UInt64) : Bool :=
  (list.bannedUntil peer).any (now < ·)

def score (list : BanList) (peer : String) : UInt32 :=
  (list.entries[peer]?.map BanState.score).getD 0

/-- A point is forgiven for every whole interval since the entry was last touched. The number
of intervals is cut to 32 bits. -/
def decayed (entry : BanState) (now : UInt64) : UInt32 :=
  let elapsedIntervals := now.saturatingSub entry.lastUpdatedUnix / peerDecayIntervalSecs
  if 0 < elapsedIntervals then entry.score.saturatingSub elapsedIntervals.toUInt32
  else entry.score

/-- A ban that was set is only ever replaced by a new one. -/
def recordAt (list : BanList) (peer : String) (points : UInt32) (now : UInt64) :
    Bool × BanList :=
  let entry := list.entries[peer]?.getD ⟨0, none, now⟩
  let score := (decayed entry now).saturatingAdd points
  if banScoreThreshold ≤ score then
    let bannedUntil := now.saturatingAdd (peerDecayIntervalSecs * 10)
    (true, ⟨list.entries.insert peer ⟨score, some bannedUntil, now⟩⟩)
  else
    (false, ⟨list.entries.insert peer ⟨score, entry.bannedUntilUnix, now⟩⟩)

variable {list : BanList} {peer other : String} {points : UInt32} {now later expiry : UInt64}

theorem isBanned_iff :
    list.isBanned peer now = true ↔ ∃ expiry, list.bannedUntil peer = some expiry ∧ now < expiry := by
  rw [isBanned, Option.any_eq_true]
  simp

theorem entries_recordAt_other (hother : other ≠ peer) :
    (list.recordAt peer points now).2.entries[other]? = list.entries[other]? := by
  unfold recordAt
  dsimp only
  split <;> simp [Std.TreeMap.getElem?_insert, Ne.symm hother]

theorem bannedUntil_recordAt :
    (list.recordAt peer points now).2.bannedUntil peer = list.bannedUntil peer ∨
      (list.recordAt peer points now).2.bannedUntil peer =
        some (now.saturatingAdd (peerDecayIntervalSecs * 10)) := by
  unfold recordAt bannedUntil
  dsimp only
  split
  · right
    simp
  · left
    cases list.entries[peer]? <;> simp

end BanList

/-! Addresses. -/

inductive IpAddr where
  | v4 (a b c d : UInt8)
  | v6 (segments : Vector UInt16 8)
  deriving DecidableEq

/-- How addresses and ports are read and written as text. -/
structure AddressText where
  parseIp : String → Option IpAddr
  ipText : IpAddr → String
  parseSocketAddr : String → Option (IpAddr × UInt16)
  parsePort : String → Option UInt16

variable (text : AddressText)

/-- The text around the last colon. -/
def rsplitOnceColon (source : String) : Option (String × String) :=
  let characters := source.toList.reverse
  if ':' ∈ characters then
    some (String.ofList (characters.dropWhile (· ≠ ':')).tail.reverse,
      String.ofList (characters.takeWhile (· ≠ ':')).reverse)
  else none

/-- A host without the brackets of a v6 literal. -/
def stripBrackets (host : String) : String :=
  match host.toList with
  | '[' :: rest =>
      if rest.getLast? = some ']' then String.ofList rest.dropLast else host
  | _ => host

def parseRemoteAddr (remoteAddr : String) (defaultPort : UInt16) : PeerAddress :=
  match text.parseSocketAddr remoteAddr with
  | some (ip, port) => ⟨text.ipText ip, port, 0, 0⟩
  | none =>
      match rsplitOnceColon remoteAddr with
      | some (host, port) =>
          match text.parsePort port with
          | some port => ⟨stripBrackets host, port, 0, 0⟩
          | none => ⟨remoteAddr, defaultPort, 0, 0⟩
      | none => ⟨remoteAddr, defaultPort, 0, 0⟩

def formatRemoteAddr (address : PeerAddress) : String :=
  match text.parseIp address.host with
  | some (.v6 _) => "[" ++ address.host ++ "]:" ++ toString address.port
  | _ => address.host ++ ":" ++ toString address.port

/-! The peer book. -/

structure PeerState where
  address : PeerAddress
  version : Option VersionMessage
  connected : Bool
  banScore : UInt32

structure PeerBook where
  network : Network
  manualPeers : Std.TreeSet String := ∅
  knownPeers : Std.TreeMap String PeerState := ∅

namespace PeerBook

def addManualPeer (book : PeerBook) (remoteAddr : String) : PeerBook :=
  { book with manualPeers := book.manualPeers.insert remoteAddr }

/-- An address already known is brought up to date, a new one needs a free place. -/
def noteAddress (book : PeerBook) (address : PeerAddress) :
    Except ProtocolError (Bool × PeerBook) :=
  let key := formatRemoteAddr text address
  match book.knownPeers[key]? with
  | some existing =>
      let updated : PeerAddress :=
        ⟨address.host, address.port, existing.address.services ||| address.services,
          max existing.address.lastSeenUnix address.lastSeenUnix⟩
      .ok (false, { book with
        knownPeers := book.knownPeers.insert key { existing with address := updated } })
  | none =>
      if maxKnownPeers ≤ book.knownPeers.size then .error .peerBookFull
      else .ok (true, { book with
        knownPeers := book.knownPeers.insert key ⟨address, none, false, 0⟩ })

/-- What is kept of a peer whose version was accepted. -/
def acceptedState (network : Network) (remoteAddr : String) (version : VersionMessage)
    (now : UInt64) : PeerState :=
  let address := parseRemoteAddr text remoteAddr network.p2pPort
  ⟨{ address with lastSeenUnix := now }, some version, true, 0⟩

def acceptVersion (crypto : Crypto) (book : PeerBook) (remoteAddr : String)
    (version : VersionMessage) (now : UInt64) : Except ProtocolError PeerBook := do
  validateVersionMessage crypto version book.network
  rejectWhen (!book.knownPeers.contains remoteAddr ∧ maxKnownPeers ≤ book.knownPeers.size)
    .peerBookFull
  let accepted := acceptedState text book.network remoteAddr version now
  return { book with knownPeers := book.knownPeers.insert remoteAddr accepted }

/-- A place for the address: its own, or a free one. -/
def HasRoom (book : PeerBook) (remoteAddr : String) : Prop :=
  remoteAddr ∈ book.knownPeers ∨ book.knownPeers.size < maxKnownPeers

instance (book : PeerBook) (remoteAddr : String) : Decidable (book.HasRoom remoteAddr) :=
  inferInstanceAs (Decidable (_ ∨ _))

variable {text} {crypto : Crypto} {book next : PeerBook} {remoteAddr other : String}
  {version : VersionMessage} {address : PeerAddress} {now : UInt64} {isNew : Bool}

theorem acceptVersion_eq_ok :
    book.acceptVersion text crypto remoteAddr version now = .ok next ↔
      validateVersionMessage crypto version book.network = .ok () ∧ book.HasRoom remoteAddr ∧
        next = { book with
          knownPeers := book.knownPeers.insert remoteAddr
            (acceptedState text book.network remoteAddr version now) } := by
  simp only [acceptVersion, bind_eq_ok, rejectWhen_eq_ok, pure_eq_ok, HasRoom,
    decide_eq_false_iff_not, not_and, not_le, Bool.not_eq_true', ← Std.TreeMap.contains_iff_mem]
  constructor
  · rintro ⟨_, hvalid, _, hroom, rfl⟩
    refine ⟨hvalid, ?_, rfl⟩
    by_cases hknown : book.knownPeers.contains remoteAddr = true
    · exact .inl hknown
    · exact .inr (hroom (Bool.eq_false_of_not_eq_true hknown))
  · rintro ⟨hvalid, hroom, rfl⟩
    refine ⟨(), hvalid, (), fun hunknown => ?_, rfl⟩
    rcases hroom with hknown | hroom
    · rw [hknown] at hunknown
      cases hunknown
    · exact hroom

theorem acceptVersion_of_full
    (hvalid : validateVersionMessage crypto version book.network = .ok ())
    (hfull : ¬ book.HasRoom remoteAddr) :
    book.acceptVersion text crypto remoteAddr version now = .error .peerBookFull := by
  simp only [HasRoom, not_or, not_lt] at hfull
  have hunknown : book.knownPeers.contains remoteAddr = false := by
    rw [← Bool.not_eq_true, Std.TreeMap.contains_iff_mem]
    exact hfull.1
  simp [acceptVersion, hvalid, rejectWhen, hunknown, hfull.2, bind, Except.bind]

/-- Nothing that happens to a book takes an address out of it or makes a place in it. -/
structure Covers (book next : PeerBook) : Prop where
  network : next.network = book.network
  known : ∀ remoteAddr ∈ book.knownPeers, remoteAddr ∈ next.knownPeers
  room : ∀ remoteAddr, next.HasRoom remoteAddr → book.HasRoom remoteAddr

theorem Covers.refl (book : PeerBook) : book.Covers book :=
  ⟨rfl, fun _ hmem => hmem, fun _ hroom => hroom⟩

theorem Covers.trans {middle : PeerBook} (hfirst : book.Covers middle)
    (hsecond : middle.Covers next) : book.Covers next :=
  ⟨hsecond.network.trans hfirst.network, fun _ hmem => hsecond.known _ (hfirst.known _ hmem),
    fun _ hroom => hfirst.room _ (hsecond.room _ hroom)⟩

theorem covers_insert (hroom : book.HasRoom remoteAddr) (state : PeerState) :
    book.Covers { book with knownPeers := book.knownPeers.insert remoteAddr state } := by
  refine ⟨rfl, fun _ hmem => Std.TreeMap.mem_insert.mpr (.inr hmem), fun other hother => ?_⟩
  rcases hother with hmem | hsize
  · rcases Std.TreeMap.mem_insert.mp hmem with heq | hmem
    · rw [← Std.LawfulEqOrd.compare_eq_iff_eq.mp heq]
      exact hroom
    · exact .inl hmem
  · exact .inr (Std.TreeMap.size_le_size_insert.trans_lt hsize)

theorem covers_noteAddress (hnext : book.noteAddress text address = .ok (isNew, next)) :
    book.Covers next := by
  unfold noteAddress at hnext
  dsimp only at hnext
  split at hnext
  · next existing hexisting =>
      cases hnext
      have hmem := Std.TreeMap.mem_iff_isSome_getElem?.mpr (by rw [hexisting]; rfl)
      exact covers_insert (.inl hmem) _
  · split at hnext
    · cases hnext
    · next hfree =>
        cases hnext
        exact covers_insert (.inr (not_le.mp hfree)) _

theorem covers_acceptVersion
    (hnext : book.acceptVersion text crypto remoteAddr version now = .ok next) :
    book.Covers next := by
  obtain ⟨-, hroom, rfl⟩ := acceptVersion_eq_ok.mp hnext
  exact covers_insert hroom _

theorem mem_acceptVersion
    (hnext : book.acceptVersion text crypto remoteAddr version now = .ok next) :
    remoteAddr ∈ next.knownPeers := by
  obtain ⟨-, -, rfl⟩ := acceptVersion_eq_ok.mp hnext
  exact Std.TreeMap.mem_insert_self

end PeerBook

/-! Which addresses are worth keeping. -/

def ipIsPubliclyRoutable : IpAddr → Bool
  | .v4 a b c d =>
      let isPrivate := a = 10 ∨ (a = 172 ∧ 16 ≤ b ∧ b ≤ 31) ∨ (a = 192 ∧ b = 168)
      let isDocumentation := (a = 192 ∧ b = 0 ∧ c = 2) ∨ (a = 198 ∧ b = 51 ∧ c = 100) ∨
        (a = 203 ∧ b = 0 ∧ c = 113)
      let isBroadcast := a = 255 ∧ b = 255 ∧ c = 255 ∧ d = 255
      let isUnspecified := a = 0 ∧ b = 0 ∧ c = 0 ∧ d = 0
      ¬ (isPrivate ∨ a = 127 ∨ (a = 169 ∧ b = 254) ∨ isBroadcast ∨ isDocumentation ∨
        isUnspecified)
  | .v6 segments =>
      let isLoopback := segments = #v[0, 0, 0, 0, 0, 0, 0, 1]
      let isUnspecified := segments = #v[0, 0, 0, 0, 0, 0, 0, 0]
      ¬ (isLoopback ∨ isUnspecified ∨ segments[0] &&& 0xfe00 = 0xfc00 ∨
        segments[0] &&& 0xffc0 = 0xfe80)

def dnsLabelIsWellFormed (label : List Char) : Bool :=
  label ≠ [] ∧ label.length ≤ 63 ∧ label.all (fun c => c.isAlphanum ∨ c = '-') ∧
    label.head? ≠ some '-' ∧ label.getLast? ≠ some '-'

/-- Blanks, control characters and slashes fail in the labels as well. -/
def dnsNameIsWellFormed (host : String) : Bool :=
  host ≠ "" ∧ host.utf8ByteSize ≤ 253 ∧
    (host.toList.splitOn '.').all dnsLabelIsWellFormed

def isPublicDnsName (host : String) : Bool :=
  let trimmed := (host.toList.reverse.dropWhile (· = '.')).reverse
  let lower := trimmed.map Char.toLower
  let isLocal := lower = "localhost".toList ∨ ".localhost".toList <:+ lower ∨
    ".local".toList <:+ lower ∨ ".lan".toList <:+ lower ∨ ".internal".toList <:+ lower
  ¬ isLocal ∧ '.' ∈ trimmed ∧ dnsNameIsWellFormed (String.ofList trimmed)

def isPubliclyRoutableHost (host : String) : Bool :=
  match text.parseIp host with
  | none => isPublicDnsName host
  | some ip => ipIsPubliclyRoutable ip

def addressIsStructurallyValid (address : PeerAddress) : Bool :=
  address.port ≠ 0 ∧ ((text.parseIp address.host).isSome ∨ dnsNameIsWellFormed address.host)

def isStaleAddress (lastSeenUnix now : UInt64) : Bool :=
  lastSeenUnix ≠ 0 ∧ maxPeerAddressAgeSecs < now.saturatingSub lastSeenUnix

def addressIsAcceptable (network : Network) (address : PeerAddress) (publicSource : Bool)
    (now : UInt64) : Bool :=
  addressIsStructurallyValid text address ∧
    (publicSource → isPubliclyRoutableHost text address.host ∧ address.port = network.p2pPort ∧
      ¬ isStaleAddress address.lastSeenUnix now)

def hexText (value : UInt16) : String :=
  String.ofList (Nat.toDigits 16 value.toNat)

def subnetKey : IpAddr → String
  | .v4 a b c _ => toString a ++ "." ++ toString b ++ "." ++ toString c
  | .v6 segments =>
      hexText segments[0] ++ ":" ++ hexText segments[1] ++ ":" ++ hexText segments[2] ++ ":" ++
        hexText segments[3]

/-! The address manager: a peer book, and how many of its addresses came from each network
and each source. -/

structure AddressManager where
  network : Network
  peers : PeerBook
  peersPerIp : IpAddr → Nat := fun _ => 0
  peersPerSubnet : String → Nat := fun _ => 0
  peersPerSource : String → Nat := fun _ => 0

namespace AddressManager

def new (network : Network) : AddressManager :=
  { network, peers := { network } }

def acceptVersion (crypto : Crypto) (manager : AddressManager) (remoteAddr : String)
    (version : VersionMessage) (now : UInt64) : Except ProtocolError AddressManager :=
  (manager.peers.acceptVersion text crypto remoteAddr version now).map fun peers =>
    { manager with peers }

/-- The limits per address and per subnet leave no place for an address. -/
def ipIsCrowded (manager : AddressManager) (host : String) : Bool :=
  (text.parseIp host).any fun ip =>
    maxPeersPerIp ≤ manager.peersPerIp ip ∨
      maxPeersPerSubnet ≤ manager.peersPerSubnet (subnetKey ip)

def countAddress (manager : AddressManager) (source : Option String) (host : String) :
    AddressManager :=
  let perIp := match text.parseIp host with
    | none => manager
    | some ip => { manager with
        peersPerIp := Function.update manager.peersPerIp ip (manager.peersPerIp ip + 1)
        peersPerSubnet := Function.update manager.peersPerSubnet (subnetKey ip)
          (manager.peersPerSubnet (subnetKey ip) + 1) }
  match source with
  | none => perIp
  | some source => { perIp with
      peersPerSource :=
        Function.update perIp.peersPerSource source (perIp.peersPerSource source + 1) }

/-- The loop over the addresses of a message, with those of the source that are new, the
addresses accepted so far and the ones already seen. A full book ends it. -/
def noteGossipLoop (source : Option String) (sourceCount : Nat) (publicSource : Bool)
    (now : UInt64) : List PeerAddress → AddressManager → Nat → List PeerAddress →
    List String → Except ProtocolError (List PeerAddress) × AddressManager
  | [], manager, _, accepted, _ => (.ok accepted, manager)
  | address :: rest, manager, newFromSource, accepted, seen =>
      let key := formatRemoteAddr text address
      let skipped := noteGossipLoop source sourceCount publicSource now rest manager
        newFromSource accepted (key :: seen)
      if key ∈ seen then skipped
      else if source.isSome ∧ maxAddrPerSource ≤ sourceCount + newFromSource then skipped
      else if ¬ addressIsAcceptable text manager.network address publicSource now then skipped
      else
        let dated := if address.lastSeenUnix = 0 then { address with lastSeenUnix := now }
          else address
        if manager.ipIsCrowded text dated.host then skipped
        else match manager.peers.noteAddress text dated with
          | .ok (isNew, peers) =>
              let noted := { manager with peers }
              let counted := if isNew then noted.countAddress text source dated.host else noted
              noteGossipLoop source sourceCount publicSource now rest counted
                (if isNew ∧ source.isSome then newFromSource + 1 else newFromSource)
                (accepted ++ [dated]) (key :: seen)
          | .error .peerBookFull => (.ok accepted, manager)
          | .error err => (.error err, manager)

def noteGossipAddressesFromSource (manager : AddressManager) (source : Option String)
    (addresses : List PeerAddress) (publicSource : Bool) (now : UInt64) :
    Except ProtocolError (List PeerAddress) × AddressManager :=
  let sourceCount := (source.map manager.peersPerSource).getD 0
  noteGossipLoop text source sourceCount publicSource now (addresses.take maxAddrPerMessage)
    manager 0 [] []

/-- Connected peers come first, then those seen last, then those with the best chain. -/
def relayOrder (left right : PeerState) : Ordering :=
  (compare right.connected left.connected).then <|
    (compare right.address.lastSeenUnix left.address.lastSeenUnix).then <|
    (compare (right.version.map (·.bestHeight)) (left.version.map (·.bestHeight))).then <|
    (compare left.address.host right.address.host).then <|
    compare left.address.port right.address.port

/-- Take the usable addresses, each host and port once, until there are enough. -/
def collectAddresses (usable : PeerAddress → Bool) (enough : Nat) :
    List PeerAddress → List PeerAddress → List PeerAddress
  | [], collected => collected
  | address :: rest, collected =>
      if usable address then
        let known := collected.any fun other =>
          other.host = address.host ∧ other.port = address.port
        let next := if known then collected else collected ++ [address]
        if enough ≤ next.length then next else collectAddresses usable enough rest next
      else collectAddresses usable enough rest collected

/-- Peers added by hand are shared on any port. -/
def relayAddresses (manager : AddressManager) (enough : Nat) (now : UInt64) :
    List PeerAddress :=
  let publicNetwork := manager.network ≠ .regnet ∧ manager.network ≠ .prunetest
  let safe (address : PeerAddress) : Bool := addressIsStructurallyValid text address ∧
    (publicNetwork → isPubliclyRoutableHost text address.host) ∧
    ¬ isStaleAddress address.lastSeenUnix now
  let known := (manager.peers.knownPeers.toList.map Prod.snd).mergeSort fun left right =>
    relayOrder left right != .gt
  let manual := manager.peers.manualPeers.toList.map fun remoteAddr =>
    parseRemoteAddr text remoteAddr manager.network.p2pPort
  let collected := collectAddresses (fun address => safe address ∧
      (publicNetwork → address.port = manager.network.p2pPort)) enough
    (known.map PeerState.address) []
  if enough ≤ collected.length then collected
  else collectAddresses safe enough manual collected

variable {text} {crypto : Crypto} {manager next : AddressManager} {remoteAddr : String}
  {version : VersionMessage} {now : UInt64}

theorem acceptVersion_eq_ok :
    manager.acceptVersion text crypto remoteAddr version now = .ok next ↔
      ∃ peers, manager.peers.acceptVersion text crypto remoteAddr version now = .ok peers ∧
        { manager with peers } = next := by
  unfold acceptVersion
  cases manager.peers.acceptVersion text crypto remoteAddr version now <;> simp [Except.map]

theorem peers_countAddress (source : Option String) (host : String) :
    (manager.countAddress text source host).peers = manager.peers := by
  unfold countAddress
  cases text.parseIp host <;> cases source <;> rfl

theorem covers_noteGossipLoop (source : Option String) (sourceCount : Nat)
    (publicSource : Bool) (addresses : List PeerAddress) (newFromSource : Nat)
    (accepted : List PeerAddress) (seen : List String) :
    manager.peers.Covers (noteGossipLoop text source sourceCount publicSource now addresses
      manager newFromSource accepted seen).2.peers := by
  induction addresses generalizing manager newFromSource accepted seen with
  | nil => exact .refl _
  | cons address rest ih =>
      unfold noteGossipLoop
      dsimp only
      split_ifs
      any_goals exact ih ..
      all_goals split
      any_goals exact .refl _
      all_goals
        next hnoted =>
          refine .trans ?_ (ih ..)
          split_ifs
          · rw [peers_countAddress]
            exact PeerBook.covers_noteAddress hnoted
          · exact PeerBook.covers_noteAddress hnoted

end AddressManager
end Atho
