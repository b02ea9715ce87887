import Atho.Node.ChainVerification
import Atho.P2p.Connection
import Std.Data.String.ToNat

/-! How the node admits peers: what it does with the events of the connection manager, and
which newcomers complete the handshake. -/

namespace Atho

def postHandshakeProtocolErrorScore : UInt32 := 50

inductive NodeSyncError where
  | node (error : NodeError)
  | protocol (error : ProtocolError)
  | connection (error : ConnectionError)
  deriving DecidableEq

inductive SyncNotice where
  | ready (peer : String) (bestHeight : UInt64)
  | disconnected (peer : String) (reason : String)
  deriving DecidableEq

/-- What the handling of a message does to the connections. -/
inductive ConnectionEffect where
  | noteGossipAddresses (source : Option String) (addresses : List PeerAddress)
      (publicSource : Bool)
  | notePeerTip (remoteAddr : String) (height : UInt64) (tipHash : Hash48)
  | replacePeerTip (remoteAddr : String) (height : UInt64) (tipHash : Hash48)
  | recordMisbehavior (remoteAddr : String) (points : UInt32)

def ConnectionEffect.call : ConnectionEffect → ConnectionManager.Call
  | noteGossipAddresses source addresses publicSource =>
      .noteGossipAddresses source addresses publicSource
  | notePeerTip remoteAddr height tipHash => .notePeerTip remoteAddr height tipHash
  | replacePeerTip remoteAddr height tipHash => .replacePeerTip remoteAddr height tipHash
  | recordMisbehavior remoteAddr points => .recordMisbehavior remoteAddr points

/-- The node and the rest of the synchronization: chain, downloads, side branches and headers.
It sees the connections, and writes to storage without failing. -/
structure SyncHandlers (Rest : Type) where
  tip : Rest → UInt64 × Hash48 × Hash48
  noteReady : Rest → ConnectionManager → String → UInt64 → UInt64 → List ConnectionEvent × Rest
  noteDisconnected : Rest → ConnectionManager → String → Rest
  forgetPeer : Rest → ConnectionManager → String → Rest
  handleMessage : Rest → ConnectionManager → String → NetworkMessage → UInt64 →
    Except NodeSyncError (List ConnectionEvent) × List ConnectionEffect × Rest
  maintain : Rest → ConnectionManager → String → UInt64 → List ConnectionEffect × Rest
  requestMempoolSnapshots : Rest → ConnectionManager → List ConnectionEvent × Rest

/-- The connections, the peers the relay knows, and the rest. -/
structure NodeSync (Rest : Type) where
  network : Network
  connections : ConnectionManager
  relayPeers : PeerBook
  rest : Rest

/-! The two messages of a handshake. -/

namespace HandshakeState

/-- The peer's version was accepted and answered. -/
def awaiting (network : Network) (version : VersionMessage) : HandshakeState :=
  { network, localVersionSent := true, localVerackSent := true, remoteVersion := some version }

def done (network : Network) (version : VersionMessage) : HandshakeState :=
  { awaiting network version with remoteVerackSeen := true, ready := true }

/-- The state a session begins in. -/
def fresh (network : Network) : ConnectionDirection → HandshakeState
  | .inbound => inbound network
  | .outbound => greeted network

variable {crypto : Crypto} {network : Network} {version : VersionMessage}
  {localVersion : NetworkMessage}

theorem receive_version (direction : ConnectionDirection)
    (hvalid : validateVersionMessage crypto version network = .ok ())
    (hlocal : localVersion.network = network) :
    ∃ actions, (∀ bestHeight, .ready bestHeight ∉ actions) ∧
      (fresh network direction).receive crypto ⟨network, .version version⟩ localVersion =
        .ok (awaiting network version, actions) := by
  subst hlocal
  cases direction with
  | inbound =>
      refine ⟨[.send localVersion, .send ⟨localVersion.network, .verack⟩], by simp, ?_⟩
      simp [receive, absorb, fresh, inbound, rejectWhen, hvalid, completes, awaiting, bind,
        Except.bind, pure, Except.pure]
  | outbound =>
      refine ⟨[.send ⟨localVersion.network, .verack⟩], by simp, ?_⟩
      simp [receive, absorb, fresh, greeted, rejectWhen, hvalid, completes, awaiting, bind,
        Except.bind, pure, Except.pure]

theorem receive_verack (hlocal : localVersion.network = network) :
    (awaiting network version).receive crypto ⟨network, .verack⟩ localVersion =
      .ok (done network version, [.ready version.bestHeight]) := by
  subst hlocal
  simp [receive, absorb, awaiting, rejectWhen, completes, done, bind, Except.bind, pure,
    Except.pure]

end HandshakeState

namespace ConnectionManager

variable {limits : ConnectionLimits} {text : AddressText} {crypto : Crypto}
  {manager next : ConnectionManager} {remoteAddr peer : String}
  {message localVersion : NetworkMessage} {now : UInt64} {session : PeerSession}
  {handshake : HandshakeState} {actions : List HandshakeAction}

/-- The books only grow. -/
structure Grown (manager next : ConnectionManager) : Prop where
  network : next.network = manager.network
  peers : manager.addressManager.peers.Covers next.addressManager.peers

theorem Grown.refl (manager : ConnectionManager) : manager.Grown manager :=
  ⟨rfl, .refl _⟩

theorem Grown.trans {middle : ConnectionManager} (hfirst : manager.Grown middle)
    (hsecond : middle.Grown next) : manager.Grown next :=
  ⟨hsecond.network.trans hfirst.network, hfirst.peers.trans hsecond.peers⟩

theorem isBanned_of_unscored (hclean : manager.banlist.entries[peer]? = none) :
    manager.banlist.isBanned peer now = false := by
  simp [BanList.isBanned, BanList.bannedUntil, hclean]

theorem receive_of_handshake (hclean : manager.banlist.entries[peer]? = none)
    (hsession : manager.sessions[peer]? = some session) (hready : session.handshake.ready = false)
    (hreceived : session.handshake.receive crypto message localVersion =
      .ok (handshake, actions)) :
    manager.receive limits text crypto peer message localVersion now =
      manager.advanceHandshake text crypto peer session handshake actions now := by
  simp [receive, isBanned_of_unscored hclean, hsession, hready, hreceived]

/-- There is a place for the address of a peer that the node calls. -/
def LearnsAddress (manager : ConnectionManager) (direction : ConnectionDirection)
    (peer : String) : Prop :=
  direction = .outbound → manager.addressManager.peers.HasRoom peer

theorem advanceHandshake_of_learned {version : VersionMessage}
    (hversion : handshake.remoteVersion = some version)
    (hvalid : validateVersionMessage crypto version manager.addressManager.peers.network = .ok ())
    (hlearns : manager.LearnsAddress session.direction peer) :
    ∃ next, manager.advanceHandshake text crypto peer session handshake actions now =
        (.ok (actions.map (·.event peer)), next) ∧
      next.sessions = manager.sessions.insert peer { session with handshake } ∧
      next.banlist = manager.banlist ∧
      (session.direction = .outbound → peer ∈ next.addressManager.peers.knownPeers) := by
  obtain ⟨direction, previous⟩ := session
  cases direction with
  | inbound => exact ⟨_, rfl, rfl, rfl, nofun⟩
  | outbound =>
      have haccepted := (@PeerBook.acceptVersion_eq_ok text crypto manager.addressManager.peers _
        peer version now).mpr ⟨hvalid, hlearns rfl, rfl⟩
      have hlearned := AddressManager.acceptVersion_eq_ok.mpr ⟨_, haccepted, rfl⟩
      simp only [advanceHandshake, hversion, hlearned]
      exact ⟨_, rfl, rfl, rfl, fun _ => PeerBook.mem_acceptVersion haccepted⟩

theorem advanceHandshake_of_full {version : VersionMessage}
    (hversion : handshake.remoteVersion = some version)
    (hvalid : validateVersionMessage crypto version manager.addressManager.peers.network = .ok ())
    (hfull : ¬ manager.LearnsAddress session.direction peer) :
    manager.advanceHandshake text crypto peer session handshake actions now =
      (.error (.protocol .peerBookFull), manager.setSession peer { session with handshake }) := by
  simp only [LearnsAddress, Classical.not_imp] at hfull
  obtain ⟨hdirection, hfull⟩ := hfull
  have hrefused : manager.addressManager.acceptVersion text crypto peer version now =
      .error .peerBookFull := by
    rw [AddressManager.acceptVersion, PeerBook.acceptVersion_of_full hvalid hfull]
    rfl
  simp only [advanceHandshake, hversion, hdirection, hrefused]

theorem grown_advanceHandshake :
    manager.Grown
      (manager.advanceHandshake text crypto remoteAddr session handshake actions now).2 := by
  unfold advanceHandshake
  dsimp only
  split
  · split
    · next haccepted =>
        obtain ⟨peers, hpeers, rfl⟩ := AddressManager.acceptVersion_eq_ok.mp haccepted
        exact ⟨rfl, PeerBook.covers_acceptVersion hpeers⟩
    · exact ⟨rfl, .refl _⟩
  · exact ⟨rfl, .refl _⟩

theorem grown_receiveReady :
    manager.Grown (manager.receiveReady limits text remoteAddr message now).2 := by
  unfold receiveReady
  cases message.payload
  case getAddr =>
    dsimp only
    split <;> exact ⟨rfl, .refl _⟩
  all_goals exact .refl _

theorem grown_receive :
    manager.Grown (manager.receive limits text crypto remoteAddr message localVersion now).2 := by
  unfold receive
  split_ifs
  · exact .refl _
  · split
    · exact .refl _
    · split_ifs
      · exact grown_receiveReady
      · split
        · exact grown_advanceHandshake
        · unfold failHandshake
          dsimp only
          split <;> exact ⟨rfl, .refl _⟩

theorem grown_mapHandshake (change : HandshakeState → HandshakeState) :
    manager.Grown (manager.mapHandshake remoteAddr change) := by
  unfold mapHandshake
  split <;> exact ⟨rfl, .refl _⟩

theorem grown_noteGossipAddresses (source : Option String) (addresses : List PeerAddress)
    (publicSource : Bool) :
    manager.Grown (manager.noteGossipAddresses text source addresses publicSource now).2 :=
  ⟨rfl, AddressManager.covers_noteGossipLoop ..⟩

end ConnectionManager

namespace NodeSync

variable {Rest : Type}

def new (network : Network) (rest : Rest) : NodeSync Rest :=
  { network, connections := .new network, relayPeers := { network }, rest }

variable (limits : ConnectionLimits) (text : AddressText) (crypto : Crypto)
  (handlers : SyncHandlers Rest)

def localVersionMessage (sync : NodeSync Rest) (now : UInt64) : NetworkMessage :=
  let (bestHeight, tipHash, chainwork) := handlers.tip sync.rest
  ⟨sync.network, .version
    { protocolVersion, minProtocolVersion := minSupportedProtocolVersion
      services := localNodeServices, timestampUnix := now.toInt64, network := sync.network
      userAgent := "/Atho:0.1.0/", bestHeight
      rulesetVersion := rulesetVersionAtHeight bestHeight, relay := true
      genesisHash := genesisHash crypto sync.network, tipHash, chainwork }⟩

def applyEffects (connections : ConnectionManager) (effects : List ConnectionEffect)
    (now : UInt64) : ConnectionManager :=
  connections.run limits text crypto (effects.map fun effect => (now, effect.call))

/-- The relay keeps the version of a peer whose handshake is done. -/
def acceptRelayVersion (sync : NodeSync Rest) (peer : String) (now : UInt64) :
    Except ProtocolError PeerBook :=
  match sync.connections.sessions[peer]?.bind (·.handshake.remoteVersion) with
  | some version => sync.relayPeers.acceptVersion text crypto peer version now
  | none => .ok sync.relayPeers

def expandEvent (sync : NodeSync Rest) (now : UInt64) : ConnectionEvent →
    Except NodeSyncError (List ConnectionEvent × List SyncNotice) × NodeSync Rest
  | .send peer message => (.ok ([.send peer message], []), sync)
  | .disconnect peer reason =>
      (.ok ([], [.disconnected peer reason]),
        { sync with rest := handlers.noteDisconnected sync.rest sync.connections peer })
  | .ready peer bestHeight =>
      match sync.acceptRelayVersion text crypto peer now with
      | .error err => (.error (.protocol err), sync)
      | .ok relayPeers =>
          let (outbound, rest) :=
            handlers.noteReady sync.rest sync.connections peer bestHeight now
          (.ok (outbound, [.ready peer bestHeight]), { sync with relayPeers, rest })
  | .message peer message =>
      let (outcome, effects, rest) :=
        handlers.handleMessage sync.rest sync.connections peer message now
      let connections := applyEffects limits text crypto sync.connections effects now
      (outcome.map fun outbound => (outbound, []), { sync with connections, rest })

/-- The events in turn; an error leaves what the earlier ones have done. -/
def expandEvents (now : UInt64) : NodeSync Rest → List ConnectionEvent →
    Except NodeSyncError (List ConnectionEvent × List SyncNotice) × NodeSync Rest
  | sync, [] =>
      let (outbound, rest) := handlers.requestMempoolSnapshots sync.rest sync.connections
      (.ok (outbound, []), { sync with rest })
  | sync, event :: events =>
      match sync.expandEvent limits text crypto handlers now event with
      | (.error err, next) => (.error err, next)
      | (.ok (outbound, notices), next) =>
          let (outcome, last) := expandEvents now next events
          (outcome.map fun result => (outbound ++ result.1, notices ++ result.2), last)

def acceptInbound (sync : NodeSync Rest) (remoteAddr : String) (now : UInt64) :
    Except NodeSyncError (NodeSync Rest) :=
  ((sync.connections.acceptInbound limits remoteAddr now).mapError .connection).map
    fun connections => { sync with connections }

def openOutbound (sync : NodeSync Rest) (remoteAddr : String) (now : UInt64) :
    Except NodeSyncError (List ConnectionEvent × NodeSync Rest) :=
  ((sync.connections.openOutbound limits remoteAddr
      (sync.localVersionMessage crypto handlers now) now).mapError .connection).map
    fun result => (result.1, { sync with connections := result.2 })

def receive (sync : NodeSync Rest) (remoteAddr : String) (message : NetworkMessage)
    (now : UInt64) :
    Except NodeSyncError (List ConnectionEvent × List SyncNotice) × NodeSync Rest :=
  let localVersion := sync.localVersionMessage crypto handlers now
  match sync.connections.receive limits text crypto remoteAddr message localVersion now with
  | (.error (.protocol err), connections) =>
      (.ok ([], [.disconnected remoteAddr err.message]),
        { sync with connections, rest := handlers.forgetPeer sync.rest connections remoteAddr })
  | (.error err, connections) => (.error (.connection err), { sync with connections })
  | (.ok events, connections) =>
      match expandEvents limits text crypto handlers now { sync with connections } events with
      | (.error (.protocol err), next) =>
          let (_, connections) := next.connections.recordMisbehavior remoteAddr
            postHandshakeProtocolErrorScore now
          (.error (.protocol err), { next with connections })
      | outcome => outcome

def disconnectPeer (sync : NodeSync Rest) (remoteAddr reason : String) :
    Option SyncNotice × NodeSync Rest :=
  let (connected, connections) := sync.connections.disconnect remoteAddr
  if connected then
    (some (.disconnected remoteAddr reason),
      { sync with
        connections, rest := handlers.noteDisconnected sync.rest connections remoteAddr })
  else (none, sync)

def maintainPeerSync (sync : NodeSync Rest) (remoteAddr : String) (now : UInt64) :
    NodeSync Rest :=
  let (effects, rest) := handlers.maintain sync.rest sync.connections remoteAddr now
  { sync with
    connections := applyEffects limits text crypto sync.connections effects now, rest }

/-! Histories. -/

inductive Call (Rest : Type) where
  | addManualPeer (remoteAddr : String)
  | seedPeerAddresses (addresses : List PeerAddress)
  | acceptInbound (remoteAddr : String)
  | openOutbound (remoteAddr : String)
  | receive (remoteAddr : String) (message : NetworkMessage)
  | disconnectPeer (remoteAddr reason : String)
  | maintainPeerSync (remoteAddr : String)
  | work (change : Rest → Rest)

def step (sync : NodeSync Rest) (now : UInt64) : Call Rest → NodeSync Rest
  | .addManualPeer remoteAddr =>
      { sync with connections := sync.connections.addManualPeer remoteAddr }
  | .seedPeerAddresses addresses =>
      let publicSource := sync.network ≠ .regnet
      { sync with connections :=
          (sync.connections.noteGossipAddresses text none addresses publicSource now).2 }
  | .acceptInbound remoteAddr => (sync.acceptInbound limits remoteAddr now).toOption.getD sync
  | .openOutbound remoteAddr =>
      ((sync.openOutbound limits crypto handlers remoteAddr now).toOption.map Prod.snd).getD sync
  | .receive remoteAddr message =>
      (sync.receive limits text crypto handlers remoteAddr message now).2
  | .disconnectPeer remoteAddr reason => (sync.disconnectPeer handlers remoteAddr reason).2
  | .maintainPeerSync remoteAddr =>
      sync.maintainPeerSync limits text crypto handlers remoteAddr now
  | .work change => { sync with rest := change sync.rest }

def run (sync : NodeSync Rest) (calls : List (UInt64 × Call Rest)) : NodeSync Rest :=
  calls.foldl (fun sync timed => sync.step limits text crypto handlers timed.1 timed.2) sync

variable {limits text crypto handlers} {sync next connected : NodeSync Rest}
  {remoteAddr peer : String} {message : NetworkMessage} {now : UInt64} {network : Network}
  {direction : ConnectionDirection} {version : VersionMessage}
  {calls : List (UInt64 × Call Rest)} {events : List ConnectionEvent}

/-! Both peer books over whole histories. -/

/-- The books only grow. -/
structure Grown (sync next : NodeSync Rest) : Prop where
  network : next.network = sync.network
  connections : sync.connections.Grown next.connections
  relayPeers : sync.relayPeers.Covers next.relayPeers

theorem Grown.refl (sync : NodeSync Rest) : sync.Grown sync :=
  ⟨rfl, .refl _, .refl _⟩

theorem Grown.trans {middle : NodeSync Rest} (hfirst : sync.Grown middle)
    (hsecond : middle.Grown next) : sync.Grown next :=
  ⟨hsecond.network.trans hfirst.network, hfirst.connections.trans hsecond.connections,
    hfirst.relayPeers.trans hsecond.relayPeers⟩

theorem grown_applyEffects (connections : ConnectionManager) (effects : List ConnectionEffect) :
    connections.Grown (applyEffects limits text crypto connections effects now) := by
  induction effects generalizing connections with
  | nil => exact .refl _
  | cons effect effects ih =>
      refine .trans ?_ (ih (connections.step limits text crypto now effect.call))
      cases effect with
      | noteGossipAddresses source addresses publicSource =>
          exact ConnectionManager.grown_noteGossipAddresses ..
      | notePeerTip remoteAddr height tipHash =>
          exact ConnectionManager.grown_mapHandshake (·.noteRemoteTip height tipHash)
      | replacePeerTip remoteAddr height tipHash =>
          exact ConnectionManager.grown_mapHandshake (·.replaceRemoteTip height tipHash)
      | recordMisbehavior remoteAddr points => exact ⟨rfl, .refl _⟩

theorem covers_acceptRelayVersion {relayPeers : PeerBook}
    (haccepted : sync.acceptRelayVersion text crypto peer now = .ok relayPeers) :
    sync.relayPeers.Covers relayPeers := by
  unfold acceptRelayVersion at haccepted
  split at haccepted
  · exact PeerBook.covers_acceptVersion haccepted
  · cases haccepted
    exact .refl _

theorem grown_expandEvent (event : ConnectionEvent) :
    sync.Grown (sync.expandEvent limits text crypto handlers now event).2 := by
  cases event with
  | send peer message => exact .refl _
  | disconnect peer reason => exact ⟨rfl, .refl _, .refl _⟩
  | message peer message => exact ⟨rfl, grown_applyEffects .., .refl _⟩
  | ready peer bestHeight =>
      simp only [expandEvent]
      split
      · exact .refl _
      · next haccepted => exact ⟨rfl, .refl _, covers_acceptRelayVersion haccepted⟩

theorem grown_expandEvents :
    sync.Grown (expandEvents limits text crypto handlers now sync events).2 := by
  induction events generalizing sync with
  | nil => exact ⟨rfl, .refl _, .refl _⟩
  | cons event events ih =>
      have hevent := @grown_expandEvent Rest limits text crypto handlers sync now event
      simp only [expandEvents]
      split
      · next hfailed => exact hfailed ▸ hevent
      · next hexpanded =>
          rw [hexpanded] at hevent
          exact hevent.trans ih

theorem grown_receive :
    sync.Grown (sync.receive limits text crypto handlers remoteAddr message now).2 := by
  have hreceived := @ConnectionManager.grown_receive limits text crypto sync.connections
    remoteAddr message (sync.localVersionMessage crypto handlers now) now
  unfold receive
  dsimp only
  split
  · next hfailed =>
      rw [hfailed] at hreceived
      exact ⟨rfl, hreceived, .refl _⟩
  · next hfailed =>
      rw [hfailed] at hreceived
      exact ⟨rfl, hreceived, .refl _⟩
  · next events connections hevents =>
      rw [hevents] at hreceived
      have hstart : sync.Grown { sync with connections } := ⟨rfl, hreceived, .refl _⟩
      have hexpanded := hstart.trans (@grown_expandEvents Rest limits text crypto handlers _ now
        events)
      split
      · next hfailed =>
          rw [hfailed] at hexpanded
          exact ⟨hexpanded.network, hexpanded.connections.trans ⟨rfl, .refl _⟩,
            hexpanded.relayPeers⟩
      · exact hexpanded

/-- A peer gets in on its own account, or is called. -/
def connect (limits : ConnectionLimits) (crypto : Crypto) (handlers : SyncHandlers Rest)
    (sync : NodeSync Rest) (direction : ConnectionDirection) (peer : String) (now : UInt64) :
    Except NodeSyncError (NodeSync Rest) :=
  match direction with
  | .inbound => sync.acceptInbound limits peer now
  | .outbound => (sync.openOutbound limits crypto handlers peer now).map Prod.snd

theorem connect_eq_ok
    (hconnect : sync.connect limits crypto handlers direction peer now = .ok connected) :
    connected = { sync with
      connections := sync.connections.setSession peer
        ⟨direction, .fresh sync.connections.network direction⟩ } := by
  cases direction with
  | inbound =>
      simp only [connect, acceptInbound] at hconnect
      cases haccepted : sync.connections.acceptInbound limits peer now with
      | error err =>
          rw [haccepted] at hconnect
          cases hconnect
      | ok connections =>
          rw [haccepted] at hconnect
          obtain ⟨-, -, -, rfl⟩ := ConnectionManager.acceptInbound_eq_ok.mp haccepted
          cases hconnect
          rfl
  | outbound =>
      simp only [connect, openOutbound] at hconnect
      cases hopened : sync.connections.openOutbound limits peer
          (sync.localVersionMessage crypto handlers now) now with
      | error err =>
          rw [hopened] at hconnect
          cases hconnect
      | ok result =>
          rw [hopened] at hconnect
          obtain ⟨-, -, -, -, -, hnext⟩ := ConnectionManager.openOutbound_eq_ok.mp hopened
          cases hconnect
          dsimp only
          rw [hnext]
          rfl

theorem grown_connect
    (hconnect : sync.connect limits crypto handlers direction peer now = .ok connected) :
    sync.Grown connected := by
  rw [connect_eq_ok hconnect]
  exact ⟨rfl, ⟨rfl, .refl _⟩, .refl _⟩

theorem grown_step (call : Call Rest) :
    sync.Grown (sync.step limits text crypto handlers now call) := by
  cases call with
  | addManualPeer remoteAddr =>
      exact ⟨rfl, ⟨rfl, ⟨rfl, fun _ hmem => hmem, fun _ hroom => hroom⟩⟩, .refl _⟩
  | seedPeerAddresses addresses =>
      exact ⟨rfl, ConnectionManager.grown_noteGossipAddresses .., .refl _⟩
  | acceptInbound remoteAddr =>
      simp only [step]
      cases haccepted : sync.acceptInbound limits remoteAddr now with
      | error err => exact .refl _
      | ok next => exact @grown_connect Rest limits crypto handlers _ _ _ _ .inbound haccepted
  | openOutbound remoteAddr =>
      simp only [step]
      cases hopened : sync.openOutbound limits crypto handlers remoteAddr now with
      | error err => exact .refl _
      | ok result =>
          refine @grown_connect Rest limits crypto handlers sync result.2 remoteAddr now
            .outbound ?_
          simp only [connect, hopened]
          rfl
  | receive remoteAddr message => exact grown_receive
  | disconnectPeer remoteAddr reason =>
      simp only [step, disconnectPeer]
      split
      · exact ⟨rfl, ⟨rfl, .refl _⟩, .refl _⟩
      · exact .refl _
  | maintainPeerSync remoteAddr => exact ⟨rfl, grown_applyEffects .., .refl _⟩
  | work change => exact ⟨rfl, .refl _, .refl _⟩

/-- Every book is one of the node's own network. -/
def OfNetwork (sync : NodeSync Rest) (network : Network) : Prop :=
  sync.network = network ∧ sync.connections.network = network ∧
    sync.connections.addressManager.peers.network = network ∧ sync.relayPeers.network = network

theorem OfNetwork.grown (hnetwork : sync.OfNetwork network) (hgrown : sync.Grown next) :
    next.OfNetwork network :=
  ⟨hgrown.network.trans hnetwork.1, hgrown.connections.network.trans hnetwork.2.1,
    hgrown.connections.peers.network.trans hnetwork.2.2.1,
    hgrown.relayPeers.network.trans hnetwork.2.2.2⟩

theorem grown_run : sync.Grown (sync.run limits text crypto handlers calls) := by
  induction calls generalizing sync with
  | nil => exact .refl _
  | cons timed calls ih => exact (grown_step timed.2).trans ih

theorem disconnectPeer_of_mem {reason : String} (hmem : peer ∈ sync.connections.sessions) :
    (sync.disconnectPeer handlers peer reason).2.connections.sessions =
        sync.connections.sessions.erase peer ∧
      (sync.disconnectPeer handlers peer reason).2.connections.banlist =
        sync.connections.banlist ∧
      (sync.disconnectPeer handlers peer reason).2.relayPeers = sync.relayPeers := by
  simp [disconnectPeer, ConnectionManager.disconnect, Std.TreeMap.contains_iff_mem.mpr hmem]

/-! The two messages of a newcomer. -/

theorem network_localVersionMessage :
    (sync.localVersionMessage crypto handlers now).network = sync.network := rfl

theorem expandEvents_of_sends {actions : List HandshakeAction}
    (hsends : ∀ bestHeight, .ready bestHeight ∉ actions) :
    ∃ outbound rest, expandEvents limits text crypto handlers now sync
      (actions.map (·.event peer)) = (.ok (outbound, []), { sync with rest }) := by
  induction actions with
  | nil => exact ⟨_, _, rfl⟩
  | cons action actions ih =>
      cases action with
      | ready bestHeight => exact absurd List.mem_cons_self (hsends bestHeight)
      | send message =>
          obtain ⟨outbound, rest, hrest⟩ := ih fun bestHeight hmem =>
            hsends bestHeight (List.mem_cons_of_mem _ hmem)
          refine ⟨[.send peer message] ++ outbound, rest, ?_⟩
          change expandEvents limits text crypto handlers now sync
            (.send peer message :: actions.map (·.event peer)) = _
          simp only [expandEvents, expandEvent, hrest]
          rfl

/-- Calls that come between leave the peer's session as it is and record nothing against it. -/
def Undisturbed (sync next : NodeSync Rest) (peer : String) : Prop :=
  next.connections.sessions[peer]? = sync.connections.sessions[peer]? ∧
    next.connections.banlist.entries[peer]? = none

/-- The version is always answered; only a place for the address of a called peer may be
missing. -/
theorem receive_version_spec (hnetwork : sync.OfNetwork network)
    (hclean : sync.connections.banlist.entries[peer]? = none)
    (hsession : sync.connections.sessions[peer]? = some ⟨direction, .fresh network direction⟩)
    (hvalid : validateVersionMessage crypto version network = .ok ()) :
    let outcome := sync.receive limits text crypto handlers peer ⟨network, .version version⟩ now
    outcome.1.isOk = true ∧
      outcome.2.connections.sessions =
        sync.connections.sessions.insert peer ⟨direction, .awaiting network version⟩ ∧
      outcome.2.connections.banlist = sync.connections.banlist ∧
      outcome.2.relayPeers = sync.relayPeers ∧
      (direction = .outbound → sync.connections.LearnsAddress direction peer →
        peer ∈ outcome.2.connections.addressManager.peers.knownPeers) := by
  obtain ⟨hown, -, hbook, -⟩ := hnetwork
  obtain ⟨actions, hsends, hreceived⟩ := HandshakeState.receive_version direction hvalid
    ((@network_localVersionMessage Rest crypto handlers sync now).trans hown)
  have hready : (HandshakeState.fresh network direction).ready = false := by
    cases direction <;> rfl
  have hadvanced := @ConnectionManager.receive_of_handshake limits text crypto _ _ _ _ now _ _ _
    hclean hsession hready hreceived
  rw [← hbook] at hvalid
  by_cases hlearns : sync.connections.LearnsAddress direction peer
  · obtain ⟨next, hnext, hsessions, hbanlist, hlearned⟩ :=
      @ConnectionManager.advanceHandshake_of_learned text crypto sync.connections peer now
        ⟨direction, .fresh network direction⟩ (.awaiting network version) actions version rfl
        hvalid hlearns
    rw [hnext] at hadvanced
    obtain ⟨outbound, rest, hexpanded⟩ := @expandEvents_of_sends Rest limits text crypto handlers
      { sync with connections := next } peer now actions hsends
    simp only [receive, hadvanced, hexpanded]
    exact ⟨rfl, hsessions, hbanlist, trivial, fun hout _ => hlearned hout⟩
  · rw [ConnectionManager.advanceHandshake_of_full rfl hvalid hlearns] at hadvanced
    simp only [receive, hadvanced]
    exact ⟨rfl, rfl, rfl, trivial, fun _ hlearned => absurd hlearned hlearns⟩

section Verack

variable (hnetwork : sync.OfNetwork network)
  (hclean : sync.connections.banlist.entries[peer]? = none)
  (hsession : sync.connections.sessions[peer]? = some ⟨direction, .awaiting network version⟩)
  (hvalid : validateVersionMessage crypto version network = .ok ())

include hnetwork hclean hsession in
theorem receive_verack_advances :
    sync.connections.receive limits text crypto peer ⟨network, .verack⟩
        (sync.localVersionMessage crypto handlers now) now =
      sync.connections.advanceHandshake text crypto peer ⟨direction, .awaiting network version⟩
        (.done network version) [.ready version.bestHeight] now :=
  ConnectionManager.receive_of_handshake hclean hsession rfl
    (HandshakeState.receive_verack (network_localVersionMessage.trans hnetwork.1))

include hnetwork hclean hsession hvalid

theorem receive_verack_completes (hlearns : sync.connections.LearnsAddress direction peer) :
    ∃ next, sync.connections.receive limits text crypto peer ⟨network, .verack⟩
          (sync.localVersionMessage crypto handlers now) now =
        (.ok [.ready peer version.bestHeight], next) ∧
      next.sessions =
        sync.connections.sessions.insert peer ⟨direction, .done network version⟩ ∧
      next.banlist = sync.connections.banlist ∧
      next.sessions[peer]?.bind (·.handshake.remoteVersion) = some version := by
  rw [receive_verack_advances hnetwork hclean hsession]
  rw [← hnetwork.2.2.1] at hvalid
  obtain ⟨next, hnext, hsessions, hbanlist, -⟩ :=
    @ConnectionManager.advanceHandshake_of_learned text crypto sync.connections peer now
      ⟨direction, .awaiting network version⟩ (.done network version)
      [.ready version.bestHeight] version rfl hvalid hlearns
  refine ⟨next, hnext, hsessions, hbanlist, ?_⟩
  rw [hsessions]
  simp [HandshakeState.done, HandshakeState.awaiting]

theorem receive_verack_ready (hlearns : sync.connections.LearnsAddress direction peer)
    (hroom : sync.relayPeers.HasRoom peer) :
    let outcome := sync.receive limits text crypto handlers peer ⟨network, .verack⟩ now
    (∃ outbound, outcome.1 = .ok (outbound, [.ready peer version.bestHeight])) ∧
      outcome.2.connections.sessions =
        sync.connections.sessions.insert peer ⟨direction, .done network version⟩ ∧
      outcome.2.connections.banlist = sync.connections.banlist ∧
      outcome.2.relayPeers = { sync.relayPeers with
        knownPeers := sync.relayPeers.knownPeers.insert peer
          (PeerBook.acceptedState text network peer version now) } := by
  obtain ⟨next, hcompleted, hsessions, hbanlist, hremote⟩ :=
    @receive_verack_completes Rest limits text crypto handlers _ _ now _ _ _ hnetwork hclean
      hsession hvalid hlearns
  have hrelay := hnetwork.2.2.2
  rw [← hrelay] at hvalid
  have haccepted := (@PeerBook.acceptVersion_eq_ok text crypto sync.relayPeers _ peer version
    now).mpr ⟨hvalid, hroom, rfl⟩
  simp only [receive, hcompleted, expandEvents, expandEvent, acceptRelayVersion, hremote, haccepted, Except.map]
  exact ⟨⟨_, rfl⟩, hsessions, hbanlist, by rw [hrelay]⟩

theorem receive_verack_unlearned (hfull : ¬ sync.connections.LearnsAddress direction peer) :
    (sync.receive limits text crypto handlers peer ⟨network, .verack⟩ now).1 =
      .ok ([], [.disconnected peer ProtocolError.peerBookFull.message]) := by
  have hadvanced := @receive_verack_advances Rest limits text crypto handlers _ _ now _ _ _
    hnetwork hclean hsession
  rw [← hnetwork.2.2.1] at hvalid
  rw [ConnectionManager.advanceHandshake_of_full rfl hvalid hfull] at hadvanced
  simp only [receive, hadvanced]

theorem receive_verack_refused (hlearns : sync.connections.LearnsAddress direction peer)
    (hfull : ¬ sync.relayPeers.HasRoom peer) :
    let outcome := sync.receive limits text crypto handlers peer ⟨network, .verack⟩ now
    outcome.1 = .error (.protocol .peerBookFull) ∧
      outcome.2.connections.banlist = (sync.connections.banlist.recordAt peer
        postHandshakeProtocolErrorScore now).2 := by
  obtain ⟨next, hcompleted, hsessions, hbanlist, hremote⟩ :=
    @receive_verack_completes Rest limits text crypto handlers _ _ now _ _ _ hnetwork hclean
      hsession hvalid hlearns
  have hrelay := hnetwork.2.2.2
  rw [← hrelay] at hvalid
  have hrefused := @PeerBook.acceptVersion_of_full text crypto sync.relayPeers peer version now
    hvalid hfull
  simp only [receive, hcompleted, expandEvents, expandEvent, acceptRelayVersion, hremote, hrefused]
  exact ⟨trivial, by rw [ConnectionManager.recordMisbehavior, hbanlist]⟩

end Verack

/-- After any history, with other calls in between that leave it alone, a newcomer that sends
a valid version and a verack is heard without a reproach and gets ready, exactly when the books
have a place for it: the book of the relay, and the address book if the node has called it. -/
theorem newcomer_ready_iff {rest : Rest}
    {history between later : List (UInt64 × Call Rest)} {first second third : UInt64}
    (hconnect : ((new network rest).run limits text crypto handlers history).connect limits
      crypto handlers direction peer first = .ok connected)
    (hundisturbed : connected.Undisturbed
      (connected.run limits text crypto handlers between) peer)
    (hvalid : validateVersionMessage crypto version network = .ok ())
    (hwaiting :
      let greeted := connected.run limits text crypto handlers between
      let answered := (greeted.receive limits text crypto handlers peer
        ⟨network, .version version⟩ second).2
      answered.Undisturbed (answered.run limits text crypto handlers later) peer) :
    let greeted := connected.run limits text crypto handlers between
    let answer := greeted.receive limits text crypto handlers peer
      ⟨network, .version version⟩ second
    let waiting := answer.2.run limits text crypto handlers later
    let welcome := waiting.receive limits text crypto handlers peer ⟨network, .verack⟩ third
    (answer.1.isOk = true ∧
        answer.2.connections.banlist.score peer = greeted.connections.banlist.score peer ∧
        (∃ outbound notices, welcome.1 = .ok (outbound, notices) ∧
          .ready peer version.bestHeight ∈ notices) ∧
        welcome.2.connections.banlist.score peer = waiting.connections.banlist.score peer) ↔
      greeted.connections.LearnsAddress direction peer ∧ waiting.relayPeers.HasRoom peer := by
  intro greeted answer waiting welcome
  have hstart : (new network rest).OfNetwork network := ⟨rfl, rfl, rfl, rfl⟩
  have hbefore := hstart.grown (@grown_run Rest limits text crypto handlers _ history)
  have hconnected := connect_eq_ok hconnect
  have hgreeted : greeted.OfNetwork network :=
    (hbefore.grown (grown_connect hconnect)).grown grown_run
  have hsession : greeted.connections.sessions[peer]? =
      some ⟨direction, .fresh network direction⟩ := by
    rw [hundisturbed.1, hconnected, hbefore.2.1]
    exact Std.TreeMap.getElem?_insert_self
  obtain ⟨hok, hsessions, hbanlist, -, hlearned⟩ :=
    @receive_version_spec Rest limits text crypto handlers _ _ second _ _ _ hgreeted
      hundisturbed.2 hsession hvalid
  have hanswered : waiting.connections.sessions[peer]? =
      some ⟨direction, .awaiting network version⟩ := by
    rw [hwaiting.1, hsessions]
    exact Std.TreeMap.getElem?_insert_self
  have hgrown : greeted.Grown waiting := grown_receive.trans grown_run
  have hwaitingNetwork := hgreeted.grown hgrown
  -- a book without a place gets none later, one that knows the peer never forgets it
  have hsame : waiting.connections.LearnsAddress direction peer ↔
      greeted.connections.LearnsAddress direction peer := by
    constructor
    · intro hlearns hout
      exact hgrown.connections.peers.room peer (hlearns hout)
    · intro hlearns hout
      have hlater := @grown_run Rest limits text crypto handlers answer.2 later
      exact .inl (hlater.connections.peers.known peer (hlearned hout hlearns))
  constructor
  · rintro ⟨-, -, ⟨outbound, notices, hwelcome, hmem⟩, -⟩
    by_cases hlearns : waiting.connections.LearnsAddress direction peer
    · refine ⟨hsame.mp hlearns, ?_⟩
      by_contra hfull
      have hrefused := (@receive_verack_refused Rest limits text crypto handlers _ _ third _ _ _
        hwaitingNetwork hwaiting.2 hanswered hvalid hlearns hfull).1
      cases hwelcome.symm.trans hrefused
    · have hdropped := @receive_verack_unlearned Rest limits text crypto handlers _ _ third _ _ _
        hwaitingNetwork hwaiting.2 hanswered hvalid hlearns
      cases hwelcome.symm.trans hdropped
      simp at hmem
  · rintro ⟨hlearns, hroom⟩
    obtain ⟨⟨outbound, hready⟩, -, hkept, -⟩ :=
      @receive_verack_ready Rest limits text crypto handlers _ _ third _ _ _ hwaitingNetwork
        hwaiting.2 hanswered hvalid (hsame.mpr hlearns) hroom
    exact ⟨hok, congrArg (·.score peer) hbanlist,
      ⟨outbound, _, hready, List.mem_singleton_self _⟩, congrArg (·.score peer) hkept⟩

end NodeSync

/-- A node that has nothing else to do. -/
def SyncHandlers.idle (crypto : Crypto) : SyncHandlers Unit where
  tip _ := (0, genesisHash crypto .mainnet, .zero 48)
  noteReady _ _ _ _ _ := ([], ())
  noteDisconnected _ _ _ := ()
  forgetPeer _ _ _ := ()
  handleMessage _ _ _ _ _ := (.ok [], [], ())
  maintain _ _ _ _ := ([], ())
  requestMempoolSnapshots _ _ := ([], ())

def visitor (index : Nat) : String := "1.2.3.4:" ++ Nat.repr (1024 + index)

def visitorVersion : VersionMessage where
  protocolVersion := 1
  minProtocolVersion := 1
  services := localNodeServices
  timestampUnix := 1773360600
  network := .mainnet
  userAgent := "/Atho:0.1.0/"
  bestHeight := 0
  rulesetVersion := rulesetVersionAtHeight 0
  relay := true
  genesisHash := genesisHash .hashing .mainnet
  tipHash := genesisHash .hashing .mainnet
  chainwork := .zero 48

/-- A peer connects, completes the handshake and leaves. -/
def visit (peer : String) : List (UInt64 × NodeSync.Call Unit) :=
  [(100, .acceptInbound peer), (100, .receive peer ⟨.mainnet, .version visitorVersion⟩),
    (100, .receive peer ⟨.mainnet, .verack⟩), (100, .disconnectPeer peer "closed")]

def visits (count : Nat) : List (UInt64 × NodeSync.Call Unit) :=
  (List.range count).flatMap fun index => visit (visitor index)

def visitedSync (count : Nat) : NodeSync Unit :=
  (NodeSync.new .mainnet ()).run defaultLimits .dotted .hashing (.idle .hashing) (visits count)

theorem visitor_injective {left right : Nat} (heq : visitor left = visitor right) :
    left = right := by
  have hport := Nat.repr_inj.mp ((String.append_right_inj _).mp heq)
  omega

theorem visitorVersion_valid :
    validateVersionMessage .hashing visitorVersion .mainnet = .ok () := by
  simp [validateVersionMessage, visitorVersion, rejectWhen, minSupportedProtocolVersion,
    protocolVersion, maxUserAgentBytes, bind, Except.bind]
  decide

/-- Nobody is connected and nothing is recorded against anyone, but the relay knows the
visitors. -/
structure VisitedBy (sync : NodeSync Unit) (count : Nat) : Prop where
  network : sync.OfNetwork .mainnet
  sessions : sync.connections.sessions.isEmpty = true
  banlist : sync.connections.banlist = {}
  known : ∀ index, visitor index ∈ sync.relayPeers.knownPeers ↔ index < count
  size : sync.relayPeers.knownPeers.size = count

section Visits

variable {sync : NodeSync Unit} {count : Nat} (hvisited : VisitedBy sync count)

include hvisited

theorem VisitedBy.unscored (peer : String) :
    sync.connections.banlist.entries[peer]? = none := by
  rw [hvisited.banlist]
  rfl

theorem VisitedBy.accepts (peer : String) :
    sync.acceptInbound defaultLimits peer 100 =
      .ok { sync with
        connections := sync.connections.setSession peer ⟨.inbound, .inbound .mainnet⟩ } := by
  have hnobody : peer ∉ sync.connections.sessions :=
    Std.TreeMap.isEmpty_iff_forall_not_mem.mp hvisited.sessions peer
  have hcount : sync.connections.inboundCount = 0 := by
    have hsessions : sync.connections.sessions.toList = [] := by
      rw [← List.isEmpty_iff, Std.TreeMap.isEmpty_toList]
      exact hvisited.sessions
    rw [ConnectionManager.inboundCount, ConnectionManager.countDirection, hsessions]
    rfl
  have haccepted : sync.connections.acceptInbound defaultLimits peer 100 =
      .ok (sync.connections.setSession peer ⟨.inbound, .inbound .mainnet⟩) := by
    refine ConnectionManager.acceptInbound_eq_ok.mpr ⟨hnobody,
      ConnectionManager.isBanned_of_unscored (hvisited.unscored peer), ?_, ?_⟩
    · rw [hcount]
      decide
    · rw [hvisited.network.2.1]
  simp only [NodeSync.acceptInbound, haccepted]
  rfl

theorem VisitedBy.answers (peer : String) :
    ∃ answered, (∃ connected, sync.acceptInbound defaultLimits peer 100 = .ok connected ∧
        (connected.receive defaultLimits .dotted .hashing (.idle .hashing) peer
          ⟨.mainnet, .version visitorVersion⟩ 100).1.isOk = true ∧
        (connected.receive defaultLimits .dotted .hashing (.idle .hashing) peer
          ⟨.mainnet, .version visitorVersion⟩ 100).2 = answered) ∧
      answered.OfNetwork .mainnet ∧ answered.connections.banlist = {} ∧
      answered.relayPeers = sync.relayPeers ∧
      (∀ other ∈ answered.connections.sessions, other = peer) ∧
      answered.connections.sessions[peer]? =
        some ⟨.inbound, .awaiting .mainnet visitorVersion⟩ := by
  have hconnected := hvisited.accepts peer
  have hnetwork : NodeSync.OfNetwork { sync with
      connections := sync.connections.setSession peer ⟨.inbound, .inbound .mainnet⟩ }
      .mainnet := hvisited.network
  obtain ⟨hok, hsessions, hbanlist, hrelay, -⟩ :=
    @NodeSync.receive_version_spec Unit defaultLimits .dotted .hashing (.idle .hashing) _ peer
      100 _ .inbound _ hnetwork (hvisited.unscored peer) Std.TreeMap.getElem?_insert_self
      visitorVersion_valid
  refine ⟨_, ⟨_, hconnected, hok, rfl⟩, hnetwork.grown NodeSync.grown_receive,
    hbanlist.trans hvisited.banlist, hrelay, fun other hmem => ?_, ?_⟩
  · rw [hsessions] at hmem
    have hnobody := Std.TreeMap.isEmpty_iff_forall_not_mem.mp hvisited.sessions other
    simpa [ConnectionManager.setSession, hnobody, Std.LawfulEqOrd.compare_eq_iff_eq,
      @eq_comm _ peer] using hmem
  · rw [hsessions]
    exact Std.TreeMap.getElem?_insert_self

theorem VisitedBy.visit (hplace : count < maxKnownPeers) :
    VisitedBy (sync.run defaultLimits .dotted .hashing (.idle .hashing)
      (Atho.visit (visitor count))) (count + 1) := by
  obtain ⟨answered, ⟨connected, hconnected, -, hanswered⟩, hnetwork, hbanlist, hrelay, honly,
    hsession⟩ := hvisited.answers (visitor count)
  have hunknown : visitor count ∉ sync.relayPeers.knownPeers :=
    fun hmem => lt_irrefl _ ((hvisited.known count).mp hmem)
  obtain ⟨-, hsessions, hkept, hbook⟩ :=
    @NodeSync.receive_verack_ready Unit defaultLimits .dotted .hashing (.idle .hashing) answered
      (visitor count) 100 _ .inbound _ hnetwork (by rw [hbanlist]; rfl) hsession
      visitorVersion_valid nofun (.inr (by rw [hrelay, hvisited.size]; exact hplace))
  generalize hwelcomed : (answered.receive defaultLimits .dotted .hashing (.idle .hashing)
    (visitor count) ⟨.mainnet, .verack⟩ 100).2 = welcomed at hsessions hkept hbook
  have hhere : visitor count ∈ welcomed.connections.sessions := by
    rw [hsessions]
    exact Std.TreeMap.mem_insert_self
  obtain ⟨hleft, hclean, hbook'⟩ :=
    @NodeSync.disconnectPeer_of_mem Unit (.idle .hashing) _ (visitor count) "closed" hhere
  have hrun : sync.run defaultLimits .dotted .hashing (.idle .hashing)
      (Atho.visit (visitor count)) =
        (welcomed.disconnectPeer (.idle .hashing) (visitor count) "closed").2 := by
    simp only [NodeSync.run, Atho.visit, List.foldl_cons, List.foldl_nil, NodeSync.step,
      hconnected, Except.toOption, Option.getD_some, hanswered, hwelcomed]
  have hgrown := @NodeSync.grown_run Unit defaultLimits .dotted .hashing (.idle .hashing) sync
    (Atho.visit (visitor count))
  refine ⟨hvisited.network.grown hgrown, ?_, ?_, fun index => ?_, ?_⟩
  all_goals rw [hrun]
  · refine Std.TreeMap.isEmpty_iff_forall_not_mem.mpr fun other hmem => ?_
    rw [hleft, hsessions, Std.TreeMap.mem_erase, Std.TreeMap.mem_insert] at hmem
    obtain ⟨hother, hsame | hmem⟩ := hmem
    · exact hother hsame
    · exact hother (Std.LawfulEqOrd.compare_eq_iff_eq.mpr (honly other hmem).symm)
  · exact hclean.trans (hkept.trans hbanlist)
  · rw [hbook', hbook, hrelay]
    simp only [Std.TreeMap.mem_insert, Std.LawfulEqOrd.compare_eq_iff_eq, hvisited.known]
    constructor
    · rintro (heq | hlt)
      · have := visitor_injective heq
        omega
      · omega
    · intro hlt
      rcases Nat.lt_succ_iff_lt_or_eq.mp hlt with hlt | rfl
      · exact .inr hlt
      · exact .inl rfl
  · rw [hbook', hbook, hrelay, Std.TreeMap.size_insert,
      if_neg fun hknown => hunknown (Std.TreeMap.contains_iff_mem.mp hknown), hvisited.size]

end Visits

theorem visitedSync_visitedBy {count : Nat} (hplaces : count ≤ maxKnownPeers) :
    VisitedBy (visitedSync count) count := by
  induction count with
  | zero =>
      exact ⟨⟨rfl, rfl, rfl, rfl⟩, rfl, rfl, fun index => by simp [visitedSync, visits,
        NodeSync.run, NodeSync.new], rfl⟩
  | succ count ih =>
      have hnext := (ih (Nat.le_of_succ_le hplaces)).visit hplaces
      rw [visitedSync, visits, List.range_succ, List.flatMap_append, List.flatMap_singleton,
        NodeSync.run, List.foldl_append]
      exact hnext

/-- The first visitor of all gets ready. -/
theorem first_visitor_ready :
    ∃ connected, (visitedSync 0).acceptInbound defaultLimits (visitor 0) 100 = .ok connected ∧
      let answer := connected.receive defaultLimits .dotted .hashing (.idle .hashing) (visitor 0)
        ⟨.mainnet, .version visitorVersion⟩ 100
      let welcome := answer.2.receive defaultLimits .dotted .hashing (.idle .hashing) (visitor 0)
        ⟨.mainnet, .verack⟩ 100
      ∃ outbound notices, welcome.1 = .ok (outbound, notices) ∧
        .ready (visitor 0) visitorVersion.bestHeight ∈ notices := by
  have hvisited : VisitedBy (visitedSync 0) 0 := visitedSync_visitedBy (Nat.zero_le _)
  obtain ⟨answered, ⟨connected, hconnected, -, hanswered⟩, -, hbanlist, hrelay, -⟩ :=
    hvisited.answers (visitor 0)
  have hconnect : ((NodeSync.new .mainnet ()).run defaultLimits .dotted .hashing (.idle .hashing)
      (visits 0)).connect defaultLimits .hashing (.idle .hashing) .inbound (visitor 0) 100 =
        .ok connected := hconnected
  have hclean : connected.connections.banlist.entries[visitor 0]? = none := by
    rw [NodeSync.connect_eq_ok hconnect]
    exact hvisited.unscored (visitor 0)
  refine ⟨connected, hconnected, ?_⟩
  have hready := @NodeSync.newcomer_ready_iff Unit defaultLimits .dotted .hashing (.idle .hashing)
    connected (visitor 0) .mainnet .inbound visitorVersion () (visits 0) [] [] 100 100 100 hconnect
    ⟨rfl, hclean⟩ visitorVersion_valid
  simp only [NodeSync.run, List.foldl_nil, hanswered] at hready ⊢
  have hroom : answered.relayPeers.HasRoom (visitor 0) := by
    refine .inr ?_
    rw [hrelay, hvisited.size]
    decide
  exact ((hready ⟨rfl, by rw [hbanlist]; rfl⟩).mpr ⟨nofun, hroom⟩).2.2.1

theorem VisitedBy.refuses {sync : NodeSync Unit} (hvisited : VisitedBy sync maxKnownPeers) :
    ∃ connected,
      sync.acceptInbound defaultLimits (visitor maxKnownPeers) 100 = .ok connected ∧
        let answer := connected.receive defaultLimits .dotted .hashing (.idle .hashing)
          (visitor maxKnownPeers) ⟨.mainnet, .version visitorVersion⟩ 100
        let welcome := answer.2.receive defaultLimits .dotted .hashing (.idle .hashing)
          (visitor maxKnownPeers) ⟨.mainnet, .verack⟩ 100
        answer.1.isOk = true ∧ welcome.1 = .error (.protocol .peerBookFull) ∧
          welcome.2.connections.banlist.score (visitor maxKnownPeers) = 50 := by
  obtain ⟨answered, ⟨connected, hconnected, hok, hanswered⟩, hnetwork, hbanlist, hrelay, -,
    hsession⟩ := hvisited.answers (visitor maxKnownPeers)
  have hfull : ¬ answered.relayPeers.HasRoom (visitor maxKnownPeers) := by
    rw [hrelay]
    rintro (hmem | hsize)
    · exact lt_irrefl _ ((hvisited.known maxKnownPeers).mp hmem)
    · exact hsize.ne hvisited.size
  obtain ⟨hrefused, hscored⟩ :=
    @NodeSync.receive_verack_refused Unit defaultLimits .dotted .hashing (.idle .hashing) answered
      (visitor maxKnownPeers) 100 _ .inbound _ hnetwork (by rw [hbanlist]; rfl) hsession
      visitorVersion_valid nofun hfull
  refine ⟨connected, hconnected, hok, ?_⟩
  rw [hanswered]
  refine ⟨hrefused, ?_⟩
  rw [hscored, hbanlist]
  decide +kernel

/-- After 4096 visitors a newcomer with a clean record gets an error for its verack. -/
theorem newcomer_refused_by_full_book :
    let sync := visitedSync maxKnownPeers
    let peer := visitor maxKnownPeers
    sync.connections.banlist.entries[peer]? = none ∧
      validateVersionMessage .hashing visitorVersion .mainnet = .ok () ∧
      ∃ connected, sync.acceptInbound defaultLimits peer 100 = .ok connected ∧
        let answer := connected.receive defaultLimits .dotted .hashing (.idle .hashing) peer
          ⟨.mainnet, .version visitorVersion⟩ 100
        let welcome := answer.2.receive defaultLimits .dotted .hashing (.idle .hashing) peer
          ⟨.mainnet, .verack⟩ 100
        answer.1.isOk = true ∧ welcome.1 = .error (.protocol .peerBookFull) ∧
          welcome.2.connections.banlist.score peer = 50 :=
  have hvisited : VisitedBy (visitedSync maxKnownPeers) maxKnownPeers :=
    visitedSync_visitedBy le_rfl
  ⟨hvisited.unscored _, visitorVersion_valid, hvisited.refuses⟩

end Atho
