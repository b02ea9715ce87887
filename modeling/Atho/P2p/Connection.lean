import Atho.P2p.Peers

/-! Sessions with peers: the handshake, the connection manager, and how far a ban reaches. -/

namespace Atho

def getaddrResponseCooldownSecs : UInt64 := 60

/-- The text of an error, as a peer's disconnection gives it for its reason. -/
def ProtocolError.message : ProtocolError → String
  | unsupportedNetwork => "unsupported network"
  | unknownMessageCommand => "unknown message command"
  | payloadTooLarge => "payload too large"
  | malformedPayload => "malformed payload"
  | unexpectedPayload => "unexpected payload for message command"
  | unsupportedProtocolVersion => "unsupported protocol version"
  | userAgentTooLong => "user agent too long"
  | genesisMismatch => "genesis mismatch"
  | rulesetMismatch => "ruleset mismatch"
  | tooManyPeerAddresses => "too many peer addresses"
  | tooManyInventoryEntries => "too many inventory entries"
  | tooManyHeaders => "too many headers"
  | invalidHeadersSequence => "invalid headers sequence"
  | peerBookFull => "peer book full"
  | handshakeIncomplete => "handshake incomplete"
  | tooManyLocatorHashes => "too many locator hashes"
  | invalidCompactBlock => "invalid compact block"

/-! The handshake. -/

inductive HandshakeAction where
  | send (message : NetworkMessage)
  | ready (bestHeight : UInt64)
  deriving DecidableEq

structure HandshakeState where
  network : Network
  localVersionSent : Bool := false
  localVerackSent : Bool := false
  remoteVersion : Option VersionMessage := none
  remoteVerackSeen : Bool := false
  ready : Bool := false
  deriving DecidableEq

namespace HandshakeState

def inbound (network : Network) : HandshakeState := { network }

/-- The state of a caller that has sent its version. -/
def greeted (network : Network) : HandshakeState := { network, localVersionSent := true }

def outbound (network : Network) (localVersion : NetworkMessage) :
    Except ProtocolError (HandshakeState × List HandshakeAction) :=
  match localVersion.payload with
  | .version _ => .ok (greeted network, [.send localVersion])
  | _ => .error .unexpectedPayload

def replaceRemoteTip (state : HandshakeState) (height : UInt64) (tipHash : Hash48) :
    HandshakeState :=
  { state with remoteVersion := state.remoteVersion.map fun version =>
      { version with bestHeight := height, tipHash, chainwork := .zero 48 } }

def noteRemoteTip (state : HandshakeState) (height : UInt64) (tipHash : Hash48) :
    HandshakeState :=
  if state.remoteVersion.any (·.bestHeight ≤ height) then state.replaceRemoteTip height tipHash
  else state

/-- Only a version, once, and then a verack are legal before the handshake is done. -/
def absorb (crypto : Crypto) (state : HandshakeState) (payload : MessagePayload)
    (localVersion : NetworkMessage) :
    Except ProtocolError (HandshakeState × List HandshakeAction) :=
  match payload with
  | .version version => do
      rejectWhen state.remoteVersion.isSome .unexpectedPayload
      validateVersionMessage crypto version state.network
      let greeting := if state.localVersionSent then [] else [HandshakeAction.send localVersion]
      let answer := if state.localVerackSent then [] else [.send ⟨state.network, .verack⟩]
      let next := { state with
        remoteVersion := some version, localVersionSent := true, localVerackSent := true }
      return (next, greeting ++ answer)
  | .verack => do
      rejectWhen state.remoteVersion.isNone .handshakeIncomplete
      return ({ state with remoteVerackSeen := true }, [])
  | _ => .error .handshakeIncomplete

/-- Both sides have sent and acknowledged a version, and nobody was told yet. -/
def completes (state : HandshakeState) : Bool :=
  !state.ready && state.remoteVersion.isSome && state.localVerackSent && state.remoteVerackSeen

def receive (crypto : Crypto) (state : HandshakeState) (message localVersion : NetworkMessage) :
    Except ProtocolError (HandshakeState × List HandshakeAction) := do
  rejectWhen (message.network ≠ state.network ∨ localVersion.network ≠ state.network)
    .unsupportedNetwork
  let (next, actions) ← state.absorb crypto message.payload localVersion
  if next.completes then
    let bestHeight := (next.remoteVersion.map (·.bestHeight)).getD 0
    return ({ next with ready := true }, actions ++ [.ready bestHeight])
  else return (next, actions)

theorem outbound_eq_ok {network : Network} {localVersion : NetworkMessage}
    {result : HandshakeState × List HandshakeAction} :
    outbound network localVersion = .ok result ↔
      (∃ version, localVersion.payload = .version version) ∧
        result = (greeted network, [.send localVersion]) := by
  unfold outbound
  cases localVersion.payload <;> simp [eq_comm]

end HandshakeState

/-! The connection manager. -/

inductive ConnectionDirection where
  | inbound
  | outbound
  deriving DecidableEq

structure PeerSession where
  direction : ConnectionDirection
  handshake : HandshakeState
  deriving DecidableEq

inductive ConnectionEvent where
  | send (peer : String) (message : NetworkMessage)
  | ready (peer : String) (bestHeight : UInt64)
  | message (peer : String) (message : NetworkMessage)
  | disconnect (peer : String) (reason : String)
  deriving DecidableEq

inductive ConnectionError where
  | protocol (error : ProtocolError)
  | peerAlreadyConnected
  | unknownPeer
  | bannedPeer
  | inboundLimitReached
  | outboundLimitReached
  deriving DecidableEq

def HandshakeAction.event (peer : String) : HandshakeAction → ConnectionEvent
  | send message => .send peer message
  | ready bestHeight => .ready peer bestHeight

/-- The limits that the environment of the node may set. -/
structure ConnectionLimits where
  maxInboundPeers : Nat
  maxOutboundPeers : Nat

structure ConnectionManager where
  network : Network
  addressManager : AddressManager
  banlist : BanList := {}
  sessions : Std.TreeMap String PeerSession := ∅
  getaddrLastResponseUnix : Std.TreeMap String UInt64 := ∅

namespace ConnectionManager

def new (network : Network) : ConnectionManager :=
  { network, addressManager := .new network }

variable (limits : ConnectionLimits) (text : AddressText) (crypto : Crypto)

def countDirection (manager : ConnectionManager) (direction : ConnectionDirection) : Nat :=
  manager.sessions.toList.countP (·.2.direction = direction)

def inboundCount (manager : ConnectionManager) : Nat :=
  manager.countDirection .inbound

def outboundCount (manager : ConnectionManager) : Nat :=
  manager.countDirection .outbound

def setSession (manager : ConnectionManager) (remoteAddr : String) (session : PeerSession) :
    ConnectionManager :=
  { manager with sessions := manager.sessions.insert remoteAddr session }

def addManualPeer (manager : ConnectionManager) (remoteAddr : String) : ConnectionManager :=
  { manager with addressManager := { manager.addressManager with
      peers := manager.addressManager.peers.addManualPeer remoteAddr } }

def noteGossipAddresses (manager : ConnectionManager) (source : Option String)
    (addresses : List PeerAddress) (publicSource : Bool) (now : UInt64) :
    Except ConnectionError (List PeerAddress) × ConnectionManager :=
  let (accepted, addressManager) := manager.addressManager.noteGossipAddressesFromSource text
    source addresses publicSource now
  (accepted.mapError .protocol, { manager with addressManager })

def acceptInbound (manager : ConnectionManager) (remoteAddr : String) (now : UInt64) :
    Except ConnectionError ConnectionManager := do
  rejectWhen (manager.sessions.contains remoteAddr) .peerAlreadyConnected
  rejectWhen (manager.banlist.isBanned remoteAddr now) .bannedPeer
  rejectWhen (limits.maxInboundPeers ≤ manager.inboundCount) .inboundLimitReached
  return manager.setSession remoteAddr ⟨.inbound, .inbound manager.network⟩

def openOutbound (manager : ConnectionManager) (remoteAddr : String)
    (localVersion : NetworkMessage) (now : UInt64) :
    Except ConnectionError (List ConnectionEvent × ConnectionManager) := do
  rejectWhen (manager.sessions.contains remoteAddr) .peerAlreadyConnected
  rejectWhen (manager.banlist.isBanned remoteAddr now) .bannedPeer
  rejectWhen (limits.maxOutboundPeers ≤ manager.outboundCount) .outboundLimitReached
  let (handshake, actions) ←
    (HandshakeState.outbound manager.network localVersion).mapError .protocol
  return (actions.map (·.event remoteAddr), manager.setSession remoteAddr ⟨.outbound, handshake⟩)

/-- Only the address of a peer that this node chose to call is learned. -/
def advanceHandshake (manager : ConnectionManager) (remoteAddr : String)
    (session : PeerSession) (handshake : HandshakeState) (actions : List HandshakeAction)
    (now : UInt64) : Except ConnectionError (List ConnectionEvent) × ConnectionManager :=
  let advanced := manager.setSession remoteAddr { session with handshake }
  let events := actions.map (·.event remoteAddr)
  match session.direction, handshake.remoteVersion with
  | .outbound, some version =>
      match manager.addressManager.acceptVersion text crypto remoteAddr version now with
      | .ok addressManager => (.ok events, { advanced with addressManager })
      | .error err => (.error (.protocol err), advanced)
  | _, _ => (.ok events, advanced)

/-- A peer that breaks the handshake is scored and loses its session. -/
def failHandshake (manager : ConnectionManager) (remoteAddr : String) (err : ProtocolError)
    (now : UInt64) : Except ConnectionError (List ConnectionEvent) × ConnectionManager :=
  let (banned, banlist) := manager.banlist.recordAt remoteAddr 50 now
  let closed := { manager with banlist, sessions := manager.sessions.erase remoteAddr }
  if banned then (.ok [.disconnect remoteAddr err.message], closed)
  else (.error (.protocol err), closed)

def relayAddressesForPeer (manager : ConnectionManager) (remoteAddr : String) (now : UInt64) :
    List PeerAddress :=
  let shareLimit := min (max (limits.maxOutboundPeers * 8) 8) maxAddrPerMessage
  (manager.addressManager.relayAddresses text shareLimit now).filter fun address =>
    let remote := formatRemoteAddr text address
    remote ≠ remoteAddr ∧ ¬ manager.banlist.isBanned remote now

def receiveReady (manager : ConnectionManager) (remoteAddr : String) (message : NetworkMessage)
    (now : UInt64) : List ConnectionEvent × ConnectionManager :=
  match message.payload with
  | .ping nonce => ([.send remoteAddr ⟨manager.network, .pong nonce⟩], manager)
  | .getAddr =>
      let cooling := manager.getaddrLastResponseUnix[remoteAddr]?.any fun last =>
        now.saturatingSub last < getaddrResponseCooldownSecs
      if cooling then ([], manager)
      else
        let addresses := manager.relayAddressesForPeer limits text remoteAddr now
        ([.send remoteAddr ⟨manager.network, .addr addresses⟩], { manager with
          getaddrLastResponseUnix := manager.getaddrLastResponseUnix.insert remoteAddr now })
  | _ => ([.message remoteAddr message], manager)

def receive (manager : ConnectionManager) (remoteAddr : String)
    (message localVersion : NetworkMessage) (now : UInt64) :
    Except ConnectionError (List ConnectionEvent) × ConnectionManager :=
  if manager.banlist.isBanned remoteAddr now then (.error .bannedPeer, manager)
  else match manager.sessions[remoteAddr]? with
    | none => (.error .unknownPeer, manager)
    | some session =>
        if session.handshake.ready then
          let (events, next) := manager.receiveReady limits text remoteAddr message now
          (.ok events, next)
        else match session.handshake.receive crypto message localVersion with
          | .ok (handshake, actions) =>
              manager.advanceHandshake text crypto remoteAddr session handshake actions now
          | .error err => manager.failHandshake remoteAddr err now

def mapHandshake (manager : ConnectionManager) (remoteAddr : String)
    (change : HandshakeState → HandshakeState) : ConnectionManager :=
  match manager.sessions[remoteAddr]? with
  | none => manager
  | some session =>
      manager.setSession remoteAddr { session with handshake := change session.handshake }

def notePeerTip (manager : ConnectionManager) (remoteAddr : String) (height : UInt64)
    (tipHash : Hash48) : ConnectionManager :=
  manager.mapHandshake remoteAddr (·.noteRemoteTip height tipHash)

def replacePeerTip (manager : ConnectionManager) (remoteAddr : String) (height : UInt64)
    (tipHash : Hash48) : ConnectionManager :=
  manager.mapHandshake remoteAddr (·.replaceRemoteTip height tipHash)

def recordMisbehavior (manager : ConnectionManager) (remoteAddr : String) (points : UInt32)
    (now : UInt64) : Bool × ConnectionManager :=
  let (banned, banlist) := manager.banlist.recordAt remoteAddr points now
  (banned, { manager with banlist })

def disconnect (manager : ConnectionManager) (remoteAddr : String) : Bool × ConnectionManager :=
  (manager.sessions.contains remoteAddr,
    { manager with sessions := manager.sessions.erase remoteAddr })

/-! Runs: each call with the reading of the clock it is made at. -/

inductive Call where
  | addManualPeer (remoteAddr : String)
  | noteGossipAddresses (source : Option String) (addresses : List PeerAddress)
      (publicSource : Bool)
  | acceptInbound (remoteAddr : String)
  | openOutbound (remoteAddr : String) (localVersion : NetworkMessage)
  | receive (remoteAddr : String) (message localVersion : NetworkMessage)
  | notePeerTip (remoteAddr : String) (height : UInt64) (tipHash : Hash48)
  | replacePeerTip (remoteAddr : String) (height : UInt64) (tipHash : Hash48)
  | recordMisbehavior (remoteAddr : String) (points : UInt32)
  | disconnect (remoteAddr : String)

def step (manager : ConnectionManager) (now : UInt64) : Call → ConnectionManager
  | .addManualPeer remoteAddr => manager.addManualPeer remoteAddr
  | .noteGossipAddresses source addresses publicSource =>
      (manager.noteGossipAddresses text source addresses publicSource now).2
  | .acceptInbound remoteAddr =>
      ((manager.acceptInbound limits remoteAddr now).toOption).getD manager
  | .openOutbound remoteAddr localVersion =>
      ((manager.openOutbound limits remoteAddr localVersion now).toOption.map Prod.snd).getD
        manager
  | .receive remoteAddr message localVersion =>
      (manager.receive limits text crypto remoteAddr message localVersion now).2
  | .notePeerTip remoteAddr height tipHash => manager.notePeerTip remoteAddr height tipHash
  | .replacePeerTip remoteAddr height tipHash =>
      manager.replacePeerTip remoteAddr height tipHash
  | .recordMisbehavior remoteAddr points => (manager.recordMisbehavior remoteAddr points now).2
  | .disconnect remoteAddr => (manager.disconnect remoteAddr).2

def run (manager : ConnectionManager) (calls : List (UInt64 × Call)) : ConnectionManager :=
  calls.foldl (fun manager timed => manager.step limits text crypto timed.1 timed.2) manager

variable {limits text crypto} {manager next : ConnectionManager} {remoteAddr peer : String}
  {message localVersion : NetworkMessage} {now expiry : UInt64}
  {calls before after : List (UInt64 × Call)} {events : List ConnectionEvent}

theorem acceptInbound_eq_ok :
    manager.acceptInbound limits remoteAddr now = .ok next ↔
      remoteAddr ∉ manager.sessions ∧ manager.banlist.isBanned remoteAddr now = false ∧
        manager.inboundCount < limits.maxInboundPeers ∧
        manager.setSession remoteAddr ⟨.inbound, .inbound manager.network⟩ = next := by
  simp only [acceptInbound, bind_eq_ok, pure_eq_ok, rejectWhen_eq_ok, ← Bool.not_eq_true,
    decide_eq_true_eq, not_le, Std.TreeMap.contains_iff_mem, exists_const]

theorem openOutbound_eq_ok :
    manager.openOutbound limits remoteAddr localVersion now = .ok (events, next) ↔
      remoteAddr ∉ manager.sessions ∧ manager.banlist.isBanned remoteAddr now = false ∧
        manager.outboundCount < limits.maxOutboundPeers ∧
        (∃ version, localVersion.payload = .version version) ∧
        events = [.send remoteAddr localVersion] ∧
        next = manager.setSession remoteAddr ⟨.outbound, .greeted manager.network⟩ := by
  simp only [openOutbound, bind_eq_ok, pure_eq_ok, rejectWhen_eq_ok, mapError_eq_ok,
    HandshakeState.outbound_eq_ok, ← Bool.not_eq_true, decide_eq_true_eq, not_le,
    Std.TreeMap.contains_iff_mem]
  constructor
  · rintro ⟨_, hnew, _, hban, _, hlimit, _, ⟨hversion, rfl⟩, heq⟩
    cases heq
    exact ⟨hnew, hban, hlimit, hversion, rfl, rfl⟩
  · rintro ⟨hnew, hban, hlimit, hversion, rfl, rfl⟩
    exact ⟨(), hnew, (), hban, (), hlimit, _, ⟨hversion, rfl⟩, rfl⟩

/-! What a call does to the ban list. -/

theorem banlist_receiveReady :
    (manager.receiveReady limits text remoteAddr message now).2.banlist = manager.banlist := by
  unfold receiveReady
  cases message.payload
  case getAddr => dsimp only; split <;> rfl
  all_goals rfl

theorem banlist_advanceHandshake (session : PeerSession) (handshake : HandshakeState)
    (actions : List HandshakeAction) :
    (manager.advanceHandshake text crypto remoteAddr session handshake actions now).2.banlist =
      manager.banlist := by
  unfold advanceHandshake
  dsimp only
  split
  · split <;> rfl
  · rfl

theorem banlist_receive :
    (manager.receive limits text crypto remoteAddr message localVersion now).2.banlist =
        manager.banlist ∨
      (manager.receive limits text crypto remoteAddr message localVersion now).2.banlist =
        (manager.banlist.recordAt remoteAddr 50 now).2 := by
  unfold receive
  split_ifs with hbanned
  · exact .inl rfl
  · split
    · exact .inl rfl
    · split_ifs
      · exact .inl banlist_receiveReady
      · split
        · exact .inl (banlist_advanceHandshake ..)
        · right
          unfold failHandshake
          dsimp only
          split <;> rfl

theorem banlist_step (call : Call) :
    (manager.step limits text crypto now call).banlist = manager.banlist ∨
      ∃ peer points, (manager.step limits text crypto now call).banlist =
        (manager.banlist.recordAt peer points now).2 := by
  cases call with
  | addManualPeer remoteAddr => exact .inl rfl
  | noteGossipAddresses source addresses publicSource => exact .inl rfl
  | acceptInbound remoteAddr =>
      left
      cases hresult : manager.acceptInbound limits remoteAddr now with
      | error err =>
          simp only [step, hresult]
          rfl
      | ok next =>
          obtain ⟨-, -, -, rfl⟩ := acceptInbound_eq_ok.mp hresult
          simp only [step, hresult]
          rfl
  | openOutbound remoteAddr localVersion =>
      left
      cases hresult : manager.openOutbound limits remoteAddr localVersion now with
      | error err =>
          simp only [step, hresult]
          rfl
      | ok result =>
          obtain ⟨-, -, -, -, -, hnext⟩ := openOutbound_eq_ok.mp hresult
          simp only [step, hresult]
          change result.2.banlist = manager.banlist
          rw [hnext]
          rfl
  | receive remoteAddr message localVersion =>
      exact banlist_receive.imp id fun hrecord => ⟨remoteAddr, 50, hrecord⟩
  | notePeerTip remoteAddr height tipHash =>
      left
      simp only [step, notePeerTip, mapHandshake]
      split <;> rfl
  | replacePeerTip remoteAddr height tipHash =>
      left
      simp only [step, replacePeerTip, mapHandshake]
      split <;> rfl
  | recordMisbehavior remoteAddr points => exact .inr ⟨remoteAddr, points, rfl⟩
  | disconnect remoteAddr => exact .inl rfl

/-- When a ban set now would end. -/
def nextExpiry (now : UInt64) : UInt64 :=
  now.saturatingAdd (peerDecayIntervalSecs * 10)

theorem nextExpiry_mono {now later : UInt64} (hle : now ≤ later) :
    nextExpiry now ≤ nextExpiry later := by
  rw [UInt64.le_iff_toNat_le] at hle ⊢
  rw [nextExpiry, nextExpiry, UInt64.toNat_saturatingAdd, UInt64.toNat_saturatingAdd]
  omega

theorem bannedUntil_step (peer : String) (call : Call) :
    (manager.step limits text crypto now call).banlist.bannedUntil peer =
        manager.banlist.bannedUntil peer ∨
      (manager.step limits text crypto now call).banlist.bannedUntil peer =
        some (nextExpiry now) := by
  rcases @banlist_step limits text crypto manager now call with hsame | ⟨other, points, hrecord⟩
  · exact .inl (by rw [hsame])
  · rw [hrecord]
    by_cases heq : peer = other
    · subst heq
      exact BanList.bannedUntil_recordAt
    · left
      rw [BanList.bannedUntil, BanList.entries_recordAt_other heq, BanList.bannedUntil]

/-- No ban reaches further than one that is set now. -/
def BansRecent (manager : ConnectionManager) (now : UInt64) : Prop :=
  ∀ peer expiry, manager.banlist.bannedUntil peer = some expiry → expiry ≤ nextExpiry now

theorem BansRecent.later {later : UInt64} (hrecent : manager.BansRecent now)
    (hle : now ≤ later) : manager.BansRecent later :=
  fun peer expiry hban => UInt64.le_trans (hrecent peer expiry hban) (nextExpiry_mono hle)

theorem BansRecent.step (hrecent : manager.BansRecent now) (call : Call) :
    (manager.step limits text crypto now call).BansRecent now := by
  intro peer expiry hban
  rcases @bannedUntil_step limits text crypto manager now peer call with hsame | hnew
  · exact hrecent peer expiry (hsame ▸ hban)
  · rw [hnew] at hban
    exact Option.some.inj hban ▸ UInt64.le_refl _

/-- The peer is banned at least as long. -/
def BannedThrough (manager : ConnectionManager) (peer : String) (expiry : UInt64) : Prop :=
  ∃ last, manager.banlist.bannedUntil peer = some last ∧ expiry ≤ last

theorem BannedThrough.step (hbanned : manager.BannedThrough peer expiry)
    (hle : expiry ≤ nextExpiry now) (call : Call) :
    (manager.step limits text crypto now call).BannedThrough peer expiry := by
  obtain ⟨last, hlast, hexpiry⟩ := hbanned
  rcases @bannedUntil_step limits text crypto manager now peer call with hsame | hnew
  · exact ⟨last, hsame.trans hlast, hexpiry⟩
  · exact ⟨nextExpiry now, hnew, hle⟩

/-- The clock never goes back, from a first reading to a last one. -/
def InOrder (start : UInt64) : List (UInt64 × Call) → UInt64 → Prop
  | [], now => start ≤ now
  | (time, _) :: rest, now => start ≤ time ∧ InOrder time rest now

instance InOrder.decidable : (start : UInt64) → (calls : List (UInt64 × Call)) →
    (now : UInt64) → Decidable (InOrder start calls now)
  | start, [], now => inferInstanceAs (Decidable (start ≤ now))
  | start, (time, _) :: rest, now =>
      have := InOrder.decidable time rest now
      inferInstanceAs (Decidable (start ≤ time ∧ InOrder time rest now))

theorem inOrder_append {start : UInt64} :
    InOrder start (before ++ after) now ↔
      ∃ middle, InOrder start before middle ∧ InOrder middle after now := by
  induction before generalizing start with
  | nil =>
      constructor
      · intro horder
        exact ⟨start, UInt64.le_refl _, horder⟩
      · rintro ⟨middle, hle, horder⟩
        cases after with
        | nil => exact UInt64.le_trans hle horder
        | cons timed after => exact ⟨UInt64.le_trans hle horder.1, horder.2⟩
  | cons timed before ih =>
      constructor
      · rintro ⟨hle, horder⟩
        obtain ⟨middle, hbefore, hafter⟩ := ih.mp horder
        exact ⟨middle, ⟨hle, hbefore⟩, hafter⟩
      · rintro ⟨middle, ⟨hle, hbefore⟩, hafter⟩
        exact ⟨hle, ih.mpr ⟨middle, hbefore, hafter⟩⟩

theorem BansRecent.run {start : UInt64} (hrecent : manager.BansRecent start)
    (horder : InOrder start calls now) :
    (manager.run limits text crypto calls).BansRecent now := by
  induction calls generalizing manager start with
  | nil => exact hrecent.later horder
  | cons timed calls ih => exact ih ((hrecent.later horder.1).step timed.2) horder.2

theorem BannedThrough.run {start : UInt64} (hbanned : manager.BannedThrough peer expiry)
    (hexpiry : expiry ≤ nextExpiry start) (horder : InOrder start calls now) :
    (manager.run limits text crypto calls).BannedThrough peer expiry := by
  induction calls generalizing manager start with
  | nil => exact hbanned
  | cons timed calls ih =>
      have hle := UInt64.le_trans hexpiry (nextExpiry_mono horder.1)
      exact ih (hbanned.step hle timed.2) hle horder.2

theorem BannedThrough.isBanned (hbanned : manager.BannedThrough peer expiry)
    (hunexpired : now < expiry) : manager.banlist.isBanned peer now = true := by
  obtain ⟨last, hlast, hle⟩ := hbanned
  exact BanList.isBanned_iff.mpr ⟨last, hlast, UInt64.lt_of_lt_of_le hunexpired hle⟩

theorem isBanned_of_unexpired {network : Network}
    (horder : InOrder 0 (before ++ after) now)
    (hban : ((new network).run limits text crypto before).banlist.bannedUntil peer =
      some expiry) (hunexpired : now < expiry) :
    ((new network).run limits text crypto (before ++ after)).banlist.isBanned peer now =
      true := by
  obtain ⟨middle, hbefore, hafter⟩ := inOrder_append.mp horder
  have hnone : (new network).BansRecent 0 := by
    intro peer expiry hban
    cases hban
  have hexpiry := hnone.run hbefore peer expiry hban
  have hbanned : ((new network).run limits text crypto before).BannedThrough peer expiry :=
    ⟨expiry, hban, UInt64.le_refl _⟩
  rw [run, List.foldl_append]
  exact (hbanned.run hexpiry hafter).isBanned hunexpired

/-! Attempts to get a session. -/

inductive Attempt where
  | inbound
  | outbound (localVersion : NetworkMessage)

def Attempt.call (remoteAddr : String) : Attempt → Call
  | inbound => .acceptInbound remoteAddr
  | outbound localVersion => .openOutbound remoteAddr localVersion

variable (limits text crypto) in
/-- The attempt gives the address a session that it did not have. -/
def Creates (manager : ConnectionManager) (now : UInt64) (remoteAddr : String)
    (attempt : Attempt) : Prop :=
  remoteAddr ∉ manager.sessions ∧
    remoteAddr ∈ (manager.step limits text crypto now (attempt.call remoteAddr)).sessions

instance {attempt : Attempt} :
    Decidable (manager.Creates limits text crypto now remoteAddr attempt) :=
  inferInstanceAs (Decidable (_ ∧ _))

variable (limits) in
/-- There is a place for one more session, and a version to greet with. -/
def HasPlace (manager : ConnectionManager) : Attempt → Prop
  | .inbound => manager.inboundCount < limits.maxInboundPeers
  | .outbound localVersion => manager.outboundCount < limits.maxOutboundPeers ∧
      ∃ version, localVersion.payload = .version version

theorem creates_iff {attempt : Attempt} :
    manager.Creates limits text crypto now remoteAddr attempt ↔
      remoteAddr ∉ manager.sessions ∧ manager.banlist.isBanned remoteAddr now = false ∧
        manager.HasPlace limits attempt := by
  refine and_congr_right fun hnew => ?_
  cases attempt with
  | inbound =>
      simp only [Attempt.call, step, HasPlace]
      constructor
      · intro hmem
        cases hresult : manager.acceptInbound limits remoteAddr now with
        | error err =>
            rw [hresult] at hmem
            exact absurd hmem hnew
        | ok next =>
            obtain ⟨-, hban, hlimit, -⟩ := acceptInbound_eq_ok.mp hresult
            exact ⟨hban, hlimit⟩
      · rintro ⟨hban, hlimit⟩
        rw [acceptInbound_eq_ok.mpr ⟨hnew, hban, hlimit, rfl⟩]
        exact Std.TreeMap.mem_insert_self
  | outbound localVersion =>
      simp only [Attempt.call, step, HasPlace]
      constructor
      · intro hmem
        cases hresult : manager.openOutbound limits remoteAddr localVersion now with
        | error err =>
            rw [hresult] at hmem
            exact absurd hmem hnew
        | ok result =>
            obtain ⟨-, hban, hlimit, hversion, -, -⟩ := openOutbound_eq_ok.mp hresult
            exact ⟨hban, hlimit, hversion⟩
      · rintro ⟨hban, hlimit, hversion⟩
        rw [openOutbound_eq_ok.mpr ⟨hnew, hban, hlimit, hversion, rfl, rfl⟩]
        exact Std.TreeMap.mem_insert_self

end ConnectionManager

/-! Two ports of one host. -/

def readNumber (digits : List Char) (bound : Nat) : Option Nat :=
  let value := digits.foldl (fun value digit => value * 10 + (digit.toNat - '0'.toNat)) 0
  if digits ≠ [] ∧ digits.all Char.isDigit ∧ value < bound then some value else none

def readOctet (digits : List Char) : Option UInt8 :=
  if digits.head? = some '0' ∧ digits ≠ ['0'] then none
  else (readNumber digits 256).map UInt8.ofNat

def readPort (digits : List Char) : Option UInt16 :=
  (readNumber digits 65536).map UInt16.ofNat

def readIpv4 (source : List Char) : Option IpAddr :=
  match source.splitOn '.' with
  | [a, b, c, d] => do return .v4 (← readOctet a) (← readOctet b) (← readOctet c) (← readOctet d)
  | _ => none

/-- Addresses of the fourth version; those of the sixth are written out in full and not
read. -/
def AddressText.dotted : AddressText where
  parseIp source := readIpv4 source.toList
  ipText
    | .v4 a b c d =>
        toString a ++ "." ++ toString b ++ "." ++ toString c ++ "." ++ toString d
    | .v6 segments => String.intercalate ":" (segments.toList.map hexText)
  parseSocketAddr source := do
    let (host, port) ← rsplitOnceColon source
    return (← readIpv4 host.toList, ← readPort port.toList)
  parsePort source :=
    match source.toList with
    | '+' :: digits => readPort digits
    | digits => readPort digits

structure Ipv4SocketAddr where
  octets : UInt8 × UInt8 × UInt8 × UInt8
  port : UInt16
  deriving DecidableEq

def Ipv4SocketAddr.display (address : Ipv4SocketAddr) : String :=
  let (a, b, c, d) := address.octets
  toString a ++ "." ++ toString b ++ "." ++ toString c ++ "." ++ toString d ++ ":" ++
    toString address.port

def hostPort (port : UInt16) : Ipv4SocketAddr := ⟨(1, 2, 3, 4), port⟩

def defaultLimits : ConnectionLimits := ⟨32, 8⟩

open ConnectionManager in
/-- The host connects on one port, behaves badly and is banned there. -/
def banningRun : List (UInt64 × Call) :=
  [(100, .acceptInbound (hostPort 5000).display),
    (101, .recordMisbehavior (hostPort 5000).display 100),
    (101, .disconnect (hostPort 5000).display)]

end Atho
