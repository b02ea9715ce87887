import Atho.Node.Admission

/-! No message of a peer is passed on before its handshake, in every run of the connection
manager. -/

namespace Atho

/-! What a handshake accepts in each of its states. -/

namespace HandshakeState

variable {crypto : Crypto} {network : Network} {version : VersionMessage}
  {state next : HandshakeState} {message localVersion : NetworkMessage}
  {direction : ConnectionDirection} {actions : List HandshakeAction}

@[simp] theorem network_fresh : (fresh network direction).network = network := by
  cases direction <;> rfl

@[simp] theorem remoteVersion_fresh : (fresh network direction).remoteVersion = none := by
  cases direction <;> rfl

@[simp] theorem ready_fresh : (fresh network direction).ready = false := by
  cases direction <;> rfl

theorem absorbed_of_receive
    (hreceived : state.receive crypto message localVersion = .ok (next, actions)) :
    message.network = state.network ∧ localVersion.network = state.network ∧
      ∃ result, state.absorb crypto message.payload localVersion = .ok result := by
  simp only [receive, bind_eq_ok, rejectWhen_eq_ok, decide_eq_false_iff_not, not_or, not_not]
    at hreceived
  obtain ⟨-, ⟨hsender, hlocal⟩, result, habsorbed, -⟩ := hreceived
  exact ⟨hsender, hlocal, result, habsorbed⟩

theorem receive_fresh_eq_ok
    (hreceived : (fresh network direction).receive crypto message localVersion =
      .ok (next, actions)) :
    ∃ version, message = ⟨network, .version version⟩ ∧
      validateVersionMessage crypto version network = .ok () ∧
      next = awaiting network version ∧ ∀ bestHeight, .ready bestHeight ∉ actions := by
  obtain ⟨hsender, hlocal, result, habsorbed⟩ := absorbed_of_receive hreceived
  rw [network_fresh] at hsender hlocal
  obtain ⟨sender, payload⟩ := message
  obtain rfl : sender = network := hsender
  cases payload
  case version version =>
    have hvalid : validateVersionMessage crypto version sender = .ok () := by
      simp only [absorb, bind_eq_ok, network_fresh] at habsorbed
      obtain ⟨-, -, ⟨⟩, hvalid, -⟩ := habsorbed
      exact hvalid
    obtain ⟨expected, hquiet, hexpected⟩ := receive_version direction hvalid hlocal
    rw [hexpected] at hreceived
    cases hreceived
    exact ⟨version, rfl, hvalid, rfl, hquiet⟩
  case verack => simp [absorb, rejectWhen, bind, Except.bind] at habsorbed
  all_goals cases habsorbed

theorem receive_awaiting_eq_ok
    (hreceived : (awaiting network version).receive crypto message localVersion =
      .ok (next, actions)) :
    message = ⟨network, .verack⟩ ∧ next = done network version ∧
      actions = [.ready version.bestHeight] := by
  obtain ⟨hsender, hlocal, result, habsorbed⟩ := absorbed_of_receive hreceived
  change localVersion.network = network at hlocal
  obtain ⟨sender, payload⟩ := message
  obtain rfl : sender = network := hsender
  cases payload
  case version version => simp [absorb, awaiting, rejectWhen, bind, Except.bind] at habsorbed
  case verack =>
    rw [receive_verack hlocal] at hreceived
    cases hreceived
    exact ⟨rfl, rfl, rfl⟩
  all_goals cases habsorbed

end HandshakeState

namespace ConnectionManager

/-! Runs of the calls that open, use and close sessions. -/

inductive SessionCall where
  | acceptInbound (remoteAddr : String)
  | openOutbound (remoteAddr : String) (localVersion : NetworkMessage)
  | receive (remoteAddr : String) (message localVersion : NetworkMessage)
  | disconnect (remoteAddr : String)

def SessionCall.call : SessionCall → Call
  | acceptInbound remoteAddr => .acceptInbound remoteAddr
  | openOutbound remoteAddr localVersion => .openOutbound remoteAddr localVersion
  | receive remoteAddr message localVersion => .receive remoteAddr message localVersion
  | disconnect remoteAddr => .disconnect remoteAddr

abbrev Outcome := Except ConnectionError (List ConnectionEvent)

section

variable (limits : ConnectionLimits) (text : AddressText) (crypto : Crypto)

/-- What the caller is told. -/
def outcome (manager : ConnectionManager) (now : UInt64) : SessionCall → Outcome
  | .acceptInbound remoteAddr => (manager.acceptInbound limits remoteAddr now).map fun _ => []
  | .openOutbound remoteAddr localVersion =>
      (manager.openOutbound limits remoteAddr localVersion now).map Prod.fst
  | .receive remoteAddr message localVersion =>
      (manager.receive limits text crypto remoteAddr message localVersion now).1
  | .disconnect _ => .ok []

def runSessions (manager : ConnectionManager) (calls : List (UInt64 × SessionCall)) :
    ConnectionManager :=
  manager.run limits text crypto (calls.map fun timed => (timed.1, timed.2.call))

/-- The calls of a run, each with what its caller was told. -/
def trace : ConnectionManager → List (UInt64 × SessionCall) → List (SessionCall × Outcome)
  | _, [] => []
  | manager, (now, call) :: calls =>
      (call, manager.outcome limits text crypto now call) ::
        trace (manager.step limits text crypto now call.call) calls

end

/-- The messages of a peer since it was last given a session, each with what came of it. -/
def noteHeard (peer : String) (heard : List (NetworkMessage × Outcome)) :
    SessionCall × Outcome → List (NetworkMessage × Outcome)
  | (.acceptInbound remoteAddr, .ok _) => if remoteAddr = peer then [] else heard
  | (.openOutbound remoteAddr _, .ok _) => if remoteAddr = peer then [] else heard
  | (.receive remoteAddr message _, outcome) =>
      if remoteAddr = peer then heard ++ [(message, outcome)] else heard
  | _ => heard

def heard (peer : String) (history : List (SessionCall × Outcome)) :
    List (NetworkMessage × Outcome) :=
  history.foldl (noteHeard peer) []

def isReady (peer : String) : ConnectionEvent → Bool
  | .ready other _ => other == peer
  | _ => false

/-- How often an answer says that a peer is ready. -/
def readies (peer : String) (outcome : Outcome) : Nat :=
  (outcome.toOption.getD []).countP (isReady peer)

/-- The messages that a ban kept from being looked at. -/
def Ignored (heard : List (NetworkMessage × Outcome)) : Prop :=
  ∀ entry ∈ heard, entry.2 = .error .bannedPeer

/-- The session was announced once, by a verack after the one version that was accepted. -/
structure Gated (crypto : Crypto) (network : Network) (peer : String)
    (heard : List (NetworkMessage × Outcome)) : Prop where
  once : (heard.map fun entry => readies peer entry.2).sum = 1
  order : ∃ before version answer between events after,
    heard = before ++ (⟨network, .version version⟩, answer) ::
      (between ++ (⟨network, .verack⟩, .ok events) :: after) ∧
    validateVersionMessage crypto version network = .ok () ∧
    events.any (isReady peer) = true ∧ Ignored before ∧ Ignored between

/-- How a session got to where it is. -/
inductive Describes (crypto : Crypto) (network : Network) (peer : String) :
    PeerSession → List (NetworkMessage × Outcome) → Prop
  | fresh {direction heard} (hheard : Ignored heard) :
      Describes crypto network peer ⟨direction, .fresh network direction⟩ heard
  | awaiting {direction version answer before after}
      (hvalid : validateVersionMessage crypto version network = .ok ())
      (hbefore : Ignored before) (hanswer : readies peer answer = 0) (hafter : Ignored after) :
      Describes crypto network peer ⟨direction, .awaiting network version⟩
        (before ++ (⟨network, .version version⟩, answer) :: after)
  | done {direction version answer last before between after}
      (hvalid : validateVersionMessage crypto version network = .ok ())
      (hbefore : Ignored before) (hanswer : readies peer answer = 0) (hbetween : Ignored between)
      (hlast : last = .ok [.ready peer version.bestHeight] ∨
        last = .error (.protocol .peerBookFull))
      (hafter : ∀ entry ∈ after, readies peer entry.2 = 0 ∧
        entry.2 ≠ .error (.protocol .peerBookFull)) :
      Describes crypto network peer ⟨direction, .done network version⟩
        (before ++ (⟨network, .version version⟩, answer) ::
          (between ++ (⟨network, .verack⟩, last) :: after))

variable {limits : ConnectionLimits} {text : AddressText} {crypto : Crypto} {network : Network}
  {manager next : ConnectionManager} {peer remoteAddr : String} {session : PeerSession}
  {entries before after : List (NetworkMessage × Outcome)} {message localVersion : NetworkMessage}
  {now : UInt64} {calls : List (UInt64 × SessionCall)} {history : List (SessionCall × Outcome)}

theorem ignored_nil : Ignored [] := by simp [Ignored]

theorem Ignored.append (hbefore : Ignored before) (hafter : Ignored after) :
    Ignored (before ++ after) := by
  intro entry hentry
  rcases List.mem_append.mp hentry with hentry | hentry
  · exact hbefore entry hentry
  · exact hafter entry hentry

theorem Ignored.readies (hignored : Ignored entries) :
    (entries.map fun entry => readies peer entry.2).sum = 0 := by
  rw [List.sum_eq_zero_iff]
  intro count hcount
  obtain ⟨entry, hentry, rfl⟩ := List.mem_map.mp hcount
  rw [hignored entry hentry]
  rfl

theorem ignored_singleton : Ignored [(message, .error .bannedPeer)] := by
  intro entry hentry
  rw [List.mem_singleton.mp hentry]

theorem Describes.ignore (hdescribes : Describes crypto network peer session entries) :
    Describes crypto network peer session (entries ++ [(message, .error .bannedPeer)]) := by
  cases hdescribes with
  | fresh hheard => exact .fresh (hheard.append ignored_singleton)
  | awaiting hvalid hbefore hanswer hafter =>
      rw [List.append_assoc, List.cons_append]
      exact .awaiting hvalid hbefore hanswer (hafter.append ignored_singleton)
  | done hvalid hbefore hanswer hbetween hlast hafter =>
      rw [List.append_assoc, List.cons_append, List.append_assoc, List.cons_append]
      refine .done hvalid hbefore hanswer hbetween hlast ?_
      intro entry hentry
      rcases List.mem_append.mp hentry with hentry | hentry
      · exact hafter entry hentry
      · rw [List.mem_singleton.mp hentry]
        exact ⟨rfl, by simp⟩

theorem Describes.gated_iff (hdescribes : Describes crypto network peer session entries)
    (hready : session.handshake.ready = true) :
    Gated crypto network peer entries ↔
      ∀ answer, (⟨network, .verack⟩, answer) ∈ entries →
        answer ≠ .error (.protocol .peerBookFull) := by
  cases hdescribes with
  | fresh hheard => simp at hready
  | awaiting => cases hready
  | @done direction version answer last before between after hvalid hbefore hanswer hbetween hlast
      hafter =>
      have hcount : ((before ++ ((⟨network, .version version⟩ : NetworkMessage), answer) ::
          (between ++ (⟨network, .verack⟩, last) :: after)).map
            fun entry => readies peer entry.2).sum = readies peer last := by
        have hquiet : (after.map fun entry => readies peer entry.2).sum = 0 := by
          rw [List.sum_eq_zero_iff]
          intro count hcount
          obtain ⟨entry, hentry, rfl⟩ := List.mem_map.mp hcount
          exact (hafter entry hentry).1
        simp [hbefore.readies, hbetween.readies, hanswer, hquiet]
      constructor
      · rintro hgated answer hanswered rfl
        have hannounced := hgated.once
        rw [hcount] at hannounced
        simp only [List.mem_append, List.mem_cons, Prod.mk.injEq, NetworkMessage.mk.injEq,
          reduceCtorEq, and_false, false_and, false_or, true_and] at hanswered
        rcases hanswered with hmem | hmem | rfl | hmem
        · cases hbefore _ hmem
        · cases hbetween _ hmem
        · cases hannounced
        · exact (hafter _ hmem).2 rfl
      · intro hlearned
        have hlast := hlast.resolve_right (hlearned last (by simp))
        subst hlast
        refine ⟨?_, ?_⟩
        · rw [hcount]
          simp [readies, isReady, Except.toOption]
        · exact ⟨before, version, answer, between, _, after, rfl, hvalid, by simp [isReady], hbefore,
            hbetween⟩

/-! One call. -/

theorem readies_events {actions : List HandshakeAction} (hquiet : ∀ height, .ready height ∉ actions) :
    readies peer (.ok (actions.map (·.event peer))) = 0 := by
  rw [readies, List.countP_eq_zero]
  intro event hevent
  obtain ⟨action, haction, rfl⟩ := List.mem_map.mp hevent
  cases action with
  | send message => exact Bool.false_ne_true
  | ready height => exact absurd haction (hquiet height)

theorem readies_receiveReady :
    readies peer (.ok (manager.receiveReady limits text remoteAddr message now).1) = 0 := by
  unfold receiveReady
  cases message.payload
  case getAddr => dsimp only; split <;> rfl
  all_goals rfl

theorem sessions_receiveReady :
    (manager.receiveReady limits text remoteAddr message now).2.sessions = manager.sessions := by
  unfold receiveReady
  cases message.payload
  case getAddr => dsimp only; split <;> rfl
  all_goals rfl

theorem sessions_advanceHandshake (handshake : HandshakeState) (actions : List HandshakeAction) :
    (manager.advanceHandshake text crypto remoteAddr session handshake actions now).2.sessions =
      manager.sessions.insert remoteAddr { session with handshake } := by
  unfold advanceHandshake
  dsimp only
  split
  · split <;> rfl
  · rfl

theorem sessions_failHandshake (err : ProtocolError) :
    (manager.failHandshake remoteAddr err now).2.sessions = manager.sessions.erase remoteAddr := by
  unfold failHandshake
  dsimp only
  split <;> rfl

theorem sessions_receive_other (hne : peer ≠ remoteAddr) :
    (manager.receive limits text crypto remoteAddr message localVersion now).2.sessions[peer]? =
      manager.sessions[peer]? := by
  unfold receive
  split_ifs
  · rfl
  · split
    · rfl
    · split_ifs
      · exact congrArg (·[peer]?) sessions_receiveReady
      · split
        · rw [sessions_advanceHandshake, Std.TreeMap.getElem?_insert,
            if_neg (by simpa using hne.symm)]
        · rw [sessions_failHandshake, Std.TreeMap.getElem?_erase, if_neg (by simpa using hne.symm)]

theorem advanceHandshake_outcome {handshake : HandshakeState} {actions : List HandshakeAction}
    {version : VersionMessage} (hversion : handshake.remoteVersion = some version)
    (hvalid : validateVersionMessage crypto version manager.addressManager.peers.network = .ok ()) :
    (manager.advanceHandshake text crypto peer session handshake actions now).1 =
        .ok (actions.map (·.event peer)) ∨
      (manager.advanceHandshake text crypto peer session handshake actions now).1 =
        .error (.protocol .peerBookFull) := by
  by_cases hlearns : manager.LearnsAddress session.direction peer
  · obtain ⟨next, hadvanced, -⟩ := @advanceHandshake_of_learned text crypto manager peer now session
      handshake actions version hversion hvalid hlearns
    exact .inl (by rw [hadvanced])
  · exact .inr (by rw [advanceHandshake_of_full hversion hvalid hlearns])

theorem Describes.advance {handshake : HandshakeState} {actions : List HandshakeAction}
    (hdescribes : Describes crypto network peer session entries)
    (hpeers : manager.addressManager.peers.network = network)
    (hready : session.handshake.ready = false)
    (hreceived : session.handshake.receive crypto message localVersion = .ok (handshake, actions)) :
    Describes crypto network peer { session with handshake } (entries ++ [(message,
      (manager.advanceHandshake text crypto peer session handshake actions now).1)]) := by
  subst hpeers
  cases hdescribes with
  | @fresh direction _ hheard =>
      obtain ⟨version, rfl, hvalid, rfl, hquiet⟩ := HandshakeState.receive_fresh_eq_ok hreceived
      refine .awaiting hvalid hheard ?_ ignored_nil
      rcases @advanceHandshake_outcome text crypto manager peer
        ⟨direction, .fresh manager.addressManager.peers.network direction⟩ now
        (.awaiting manager.addressManager.peers.network version) actions version rfl hvalid with
        hok | hfull
      · rw [hok]
        exact readies_events hquiet
      · rw [hfull]
        rfl
  | @awaiting direction version answer before after hvalid hbefore hanswer hafter =>
      obtain ⟨rfl, rfl, rfl⟩ := HandshakeState.receive_awaiting_eq_ok hreceived
      rw [List.append_assoc, List.cons_append]
      exact .done hvalid hbefore hanswer hafter (advanceHandshake_outcome rfl hvalid)
        (by simp)
  | done => cases hready

theorem Describes.pass (hdescribes : Describes crypto network peer session entries)
    (hready : session.handshake.ready = true) {outcome : Outcome} (hquiet : readies peer outcome = 0)
    (hkept : outcome ≠ .error (.protocol .peerBookFull)) :
    Describes crypto network peer session (entries ++ [(message, outcome)]) := by
  cases hdescribes with
  | fresh => simp at hready
  | awaiting => cases hready
  | done hvalid hbefore hanswer hbetween hlast hafter =>
      rw [List.append_assoc, List.cons_append, List.append_assoc, List.cons_append]
      refine .done hvalid hbefore hanswer hbetween hlast ?_
      intro entry hentry
      rcases List.mem_append.mp hentry with hentry | hentry
      · exact hafter entry hentry
      · rw [List.mem_singleton.mp hentry]
        exact ⟨hquiet, hkept⟩

theorem Describes.receive {kept : PeerSession}
    (hdescribes : Describes crypto network peer session entries)
    (hpeers : manager.addressManager.peers.network = network)
    (hsession : manager.sessions[peer]? = some session)
    (hkept : (manager.receive limits text crypto peer message localVersion now).2.sessions[peer]? =
      some kept) :
    Describes crypto network peer kept (entries ++ [(message,
      (manager.receive limits text crypto peer message localVersion now).1)]) := by
  unfold ConnectionManager.receive at hkept ⊢
  split_ifs at hkept ⊢ with hbanned
  · obtain rfl := Option.some.inj (hsession.symm.trans hkept)
    exact hdescribes.ignore
  · simp only [hsession] at hkept ⊢
    split_ifs at hkept ⊢ with hready
    · rw [sessions_receiveReady, hsession] at hkept
      obtain rfl := Option.some.inj hkept
      exact hdescribes.pass hready readies_receiveReady nofun
    · split at hkept
      · next handshake actions hreceived =>
          rw [sessions_advanceHandshake, Std.TreeMap.getElem?_insert_self] at hkept
          obtain rfl := Option.some.inj hkept
          exact hdescribes.advance hpeers (Bool.eq_false_of_not_eq_true hready) hreceived
      · rw [sessions_failHandshake, Std.TreeMap.getElem?_erase_self] at hkept
        cases hkept

/-! The number of sessions. -/

theorem countDirection_setSession_new {direction : ConnectionDirection}
    (hnew : manager.sessions[peer]? = none) :
    (manager.setSession peer session).countDirection direction =
      manager.countDirection direction + if session.direction = direction then 1 else 0 := by
  rw [countDirection, setSession, (Std.TreeMap.toList_insert_perm_of_fresh hnew).countP_eq,
    List.countP_cons, countDirection]
  simp

theorem countDirection_erase_le {direction : ConnectionDirection}
    {sessions : Std.TreeMap String PeerSession} :
    (sessions.erase peer).toList.countP (·.2.direction = direction) ≤
      sessions.toList.countP (·.2.direction = direction) := by
  cases hsession : sessions[peer]? with
  | none =>
      have hsame : (sessions.erase peer).toList.Perm sessions.toList := by
        refine (List.perm_ext_iff_of_nodup Std.TreeMap.nodup_toList Std.TreeMap.nodup_toList).mpr ?_
        rintro ⟨other, session⟩
        rw [Std.TreeMap.mem_toList_iff_getElem?_eq_some, Std.TreeMap.mem_toList_iff_getElem?_eq_some,
          Std.TreeMap.getElem?_erase_eq_some]
        refine ⟨And.right, fun hother => ⟨?_, hother⟩⟩
        rintro rfl
        rw [hsession] at hother
        cases hother
      exact hsame.countP_eq _ |>.le
  | some session =>
      rw [(Std.TreeMap.toList_erase_perm hsession).countP_eq, List.countP_cons]
      exact Nat.le_add_right _ _

theorem countDirection_update {direction : ConnectionDirection} {handshake : HandshakeState}
    (hsession : manager.sessions[peer]? = some session) :
    (manager.sessions.insert peer { session with handshake }).toList.countP
      (·.2.direction = direction) = manager.countDirection direction := by
  rw [countDirection, (Std.TreeMap.toList_erase_perm hsession).countP_eq,
    Std.TreeMap.toList_insert_perm_erase.countP_eq, List.countP_cons, List.countP_cons]

theorem countDirection_receive_le {direction : ConnectionDirection} :
    (manager.receive limits text crypto remoteAddr message localVersion now).2.countDirection
      direction ≤ manager.countDirection direction := by
  unfold receive
  split_ifs
  · exact le_rfl
  · split
    · exact le_rfl
    · next hsession =>
        split_ifs
        · rw [countDirection, sessions_receiveReady]
          exact le_rfl
        · split
          · rw [countDirection, sessions_advanceHandshake, countDirection_update hsession]
          · rw [countDirection, sessions_failHandshake]
            exact countDirection_erase_le

/-! Whole runs. -/

theorem heard_concat (entry : SessionCall × Outcome) :
    heard peer (history ++ [entry]) = noteHeard peer (heard peer history) entry := by
  rw [heard, List.foldl_append]
  rfl

/-- Every session is accounted for by what was heard in it, and there are not too many. -/
structure Tracks (limits : ConnectionLimits) (crypto : Crypto) (network : Network)
    (manager : ConnectionManager) (history : List (SessionCall × Outcome)) : Prop where
  managed : manager.network = network
  peers : manager.addressManager.peers.network = network
  sessions : ∀ peer session, manager.sessions[peer]? = some session →
    Describes crypto network peer session (heard peer history)
  inbound : manager.inboundCount ≤ limits.maxInboundPeers
  outbound : manager.outboundCount ≤ limits.maxOutboundPeers

theorem Tracks.opened {call : SessionCall} {events : List ConnectionEvent}
    {direction : ConnectionDirection} (htracks : Tracks limits crypto network manager history)
    (hnew : remoteAddr ∉ manager.sessions)
    (hplace : match direction with
      | .inbound => manager.inboundCount < limits.maxInboundPeers
      | .outbound => manager.outboundCount < limits.maxOutboundPeers)
    (hheard : ∀ peer entries, noteHeard peer entries (call, .ok events) =
      if remoteAddr = peer then [] else entries) :
    Tracks limits crypto network (manager.setSession remoteAddr ⟨direction, .fresh network direction⟩)
      (history ++ [(call, .ok events)]) := by
  have hnone : manager.sessions[remoteAddr]? = none := Std.TreeMap.getElem?_eq_none hnew
  refine ⟨htracks.managed, htracks.peers, ?_, ?_, ?_⟩
  · intro peer session hsession
    rw [heard_concat, hheard]
    rw [setSession, Std.TreeMap.getElem?_insert] at hsession
    by_cases heq : remoteAddr = peer
    · rw [if_pos (by simpa using heq)] at hsession
      obtain rfl := Option.some.inj hsession
      rw [if_pos heq]
      exact .fresh ignored_nil
    · rw [if_neg (by simpa using heq)] at hsession
      rw [if_neg heq]
      exact htracks.sessions peer session hsession
  · have hcount := htracks.inbound
    rw [inboundCount, countDirection_setSession_new hnone]
    rw [inboundCount] at hcount
    cases direction with
    | inbound => exact hplace
    | outbound => simpa using hcount
  · have hcount := htracks.outbound
    rw [outboundCount, countDirection_setSession_new hnone]
    rw [outboundCount] at hcount
    cases direction with
    | inbound => simpa using hcount
    | outbound => exact hplace

theorem Tracks.refused {call : SessionCall} {err : ConnectionError}
    (htracks : Tracks limits crypto network manager history)
    (hheard : ∀ peer entries, noteHeard peer entries (call, .error err) = entries) :
    Tracks limits crypto network manager (history ++ [(call, .error err)]) := by
  refine ⟨htracks.managed, htracks.peers, ?_, htracks.inbound, htracks.outbound⟩
  intro peer session hsession
  rw [heard_concat, hheard]
  exact htracks.sessions peer session hsession

theorem Tracks.received (htracks : Tracks limits crypto network manager history) :
    Tracks limits crypto network
      (manager.receive limits text crypto remoteAddr message localVersion now).2
      (history ++ [(.receive remoteAddr message localVersion,
        (manager.receive limits text crypto remoteAddr message localVersion now).1)]) := by
  have hgrown : manager.Grown
      (manager.receive limits text crypto remoteAddr message localVersion now).2 := grown_receive
  have hfewer (direction : ConnectionDirection) :=
    @countDirection_receive_le limits text crypto manager remoteAddr message localVersion now direction
  refine ⟨hgrown.network.trans htracks.managed, hgrown.peers.network.trans htracks.peers, ?_,
    (hfewer .inbound).trans htracks.inbound, (hfewer .outbound).trans htracks.outbound⟩
  intro peer kept hkept
  rw [heard_concat, noteHeard]
  by_cases heq : remoteAddr = peer
  · subst heq
    rw [if_pos rfl]
    cases hsession : manager.sessions[remoteAddr]? with
    | none =>
        -- without a session nothing is kept
        have hsame : (manager.receive limits text crypto remoteAddr message localVersion now).2 =
            manager := by
          unfold receive
          simp only [hsession]
          split <;> rfl
        rw [hsame, hsession] at hkept
        cases hkept
    | some session =>
        exact (htracks.sessions remoteAddr session hsession).receive htracks.peers hsession hkept
  · rw [if_neg heq]
    rw [sessions_receive_other (Ne.symm heq)] at hkept
    exact htracks.sessions peer kept hkept

theorem Tracks.disconnected (htracks : Tracks limits crypto network manager history) :
    Tracks limits crypto network (manager.disconnect remoteAddr).2
      (history ++ [(.disconnect remoteAddr, .ok [])]) := by
  refine ⟨htracks.managed, htracks.peers, ?_, countDirection_erase_le.trans htracks.inbound,
    countDirection_erase_le.trans htracks.outbound⟩
  intro peer session hsession
  rw [heard_concat]
  exact htracks.sessions peer session (Std.TreeMap.getElem?_erase_eq_some.mp hsession).2

theorem Tracks.step (htracks : Tracks limits crypto network manager history) (call : SessionCall) :
    Tracks limits crypto network (manager.step limits text crypto now call.call)
      (history ++ [(call, manager.outcome limits text crypto now call)]) := by
  cases call with
  | acceptInbound remoteAddr =>
      rw [outcome, SessionCall.call, ConnectionManager.step]
      cases hresult : manager.acceptInbound limits remoteAddr now with
      | error err => exact htracks.refused fun _ _ => rfl
      | ok next =>
          obtain ⟨hnew, -, hplace, rfl⟩ := acceptInbound_eq_ok.mp hresult
          rw [htracks.managed]
          exact @opened limits crypto network manager remoteAddr history _ _ .inbound htracks hnew
            hplace fun _ _ => rfl
  | openOutbound remoteAddr localVersion =>
      rw [outcome, SessionCall.call, ConnectionManager.step]
      cases hresult : manager.openOutbound limits remoteAddr localVersion now with
      | error err => exact htracks.refused fun _ _ => rfl
      | ok result =>
          obtain ⟨hnew, -, hplace, -, hevents, hnext⟩ := openOutbound_eq_ok.mp hresult
          change Tracks limits crypto network result.2 (history ++ [(_, .ok result.1)])
          rw [hnext, hevents, htracks.managed]
          exact @opened limits crypto network manager remoteAddr history _ _ .outbound htracks hnew
            hplace fun _ _ => rfl
  | receive remoteAddr message localVersion => exact htracks.received
  | disconnect remoteAddr => exact htracks.disconnected

theorem trace_concat {call : SessionCall} :
    manager.trace limits text crypto (calls ++ [(now, call)]) =
      manager.trace limits text crypto calls ++
        [(call, (manager.runSessions limits text crypto calls).outcome limits text crypto now call)] := by
  induction calls generalizing manager with
  | nil => rfl
  | cons timed calls ih =>
      rw [List.cons_append, trace, trace, ih]
      rfl

theorem tracks_run :
    Tracks limits crypto network ((new network).runSessions limits text crypto calls)
      ((new network).trace limits text crypto calls) := by
  induction calls using List.reverseRecOn with
  | nil => exact ⟨rfl, rfl, fun peer session hsession => by simp [runSessions, run, new] at hsession,
      Nat.zero_le _, Nat.zero_le _⟩
  | append_singleton calls timed ih =>
      obtain ⟨now, call⟩ := timed
      rw [trace_concat, runSessions, List.map_append, run, List.foldl_append]
      exact ih.step call

theorem peer_of_message_receiveReady {passed : NetworkMessage}
    (hpassed : .message peer passed ∈
      (manager.receiveReady limits text remoteAddr message now).1) : remoteAddr = peer := by
  unfold receiveReady at hpassed
  cases hpayload : message.payload <;> simp only [hpayload] at hpassed
  case getAddr => split at hpassed <;> simp at hpassed
  all_goals simp_all

theorem not_message_advanceHandshake {handshake : HandshakeState} {actions : List HandshakeAction}
    {events : List ConnectionEvent}
    (houtcome : (manager.advanceHandshake text crypto remoteAddr session handshake actions now).1 =
      .ok events) : .message peer message ∉ events := by
  have hquiet : ConnectionEvent.message peer message ∉ actions.map (·.event remoteAddr) := by
    intro hmem
    obtain ⟨action, -, heq⟩ := List.mem_map.mp hmem
    cases action <;> cases heq
  unfold advanceHandshake at houtcome
  dsimp only at houtcome
  split at houtcome
  · split at houtcome
    · cases houtcome
      exact hquiet
    · cases houtcome
  · cases houtcome
    exact hquiet

theorem not_message_failHandshake {err : ProtocolError} {events : List ConnectionEvent}
    (houtcome : (manager.failHandshake remoteAddr err now).1 = .ok events) :
    .message peer message ∉ events := by
  unfold failHandshake at houtcome
  dsimp only at houtcome
  split at houtcome
  · cases houtcome
    simp
  · cases houtcome

theorem ready_of_message {call : SessionCall} {events : List ConnectionEvent}
    (houtcome : manager.outcome limits text crypto now call = .ok events)
    (hpassed : .message peer message ∈ events) :
    ∃ session, manager.sessions[peer]? = some session ∧ session.handshake.ready = true := by
  cases call with
  | acceptInbound remoteAddr =>
      rw [outcome] at houtcome
      cases hresult : manager.acceptInbound limits remoteAddr now with
      | error err =>
          rw [hresult] at houtcome
          cases houtcome
      | ok next =>
          rw [hresult] at houtcome
          cases houtcome
          cases hpassed
  | openOutbound remoteAddr localVersion =>
      rw [outcome] at houtcome
      cases hresult : manager.openOutbound limits remoteAddr localVersion now with
      | error err =>
          rw [hresult] at houtcome
          cases houtcome
      | ok result =>
          obtain ⟨-, -, -, -, hevents, -⟩ := openOutbound_eq_ok.mp hresult
          rw [hresult] at houtcome
          cases houtcome
          rw [hevents] at hpassed
          simp at hpassed
  | receive remoteAddr message localVersion =>
      rw [outcome, receive] at houtcome
      split_ifs at houtcome
      cases hsession : manager.sessions[remoteAddr]? with
      | none => simp [hsession] at houtcome
      | some session =>
          simp only [hsession] at houtcome
          split_ifs at houtcome with hready
          · obtain rfl : remoteAddr = peer := by
              cases houtcome
              exact peer_of_message_receiveReady hpassed
            exact ⟨session, hsession, hready⟩
          · split at houtcome
            · exact absurd hpassed (not_message_advanceHandshake houtcome)
            · exact absurd hpassed (not_message_failHandshake houtcome)
  | disconnect remoteAddr =>
      cases houtcome
      cases hpassed

theorem trace_append {later : List (UInt64 × SessionCall)} :
    manager.trace limits text crypto (calls ++ later) =
      manager.trace limits text crypto calls ++
        (manager.runSessions limits text crypto calls).trace limits text crypto later := by
  induction calls generalizing manager with
  | nil => rfl
  | cons timed calls ih =>
      rw [List.cons_append, trace, trace, ih]
      rfl

theorem runSessions_append {later : List (UInt64 × SessionCall)} :
    manager.runSessions limits text crypto (calls ++ later) =
      (manager.runSessions limits text crypto calls).runSessions limits text crypto later := by
  rw [runSessions, List.map_append, run, List.foldl_append]
  rfl

theorem receive_of_ready (hclean : manager.banlist.entries[peer]? = none)
    (hsession : manager.sessions[peer]? = some session) (hready : session.handshake.ready = true) :
    manager.receive limits text crypto peer message localVersion now =
      (.ok (manager.receiveReady limits text peer message now).1,
        (manager.receiveReady limits text peer message now).2) := by
  simp [receive, isBanned_of_unscored hclean, hsession, hready]

theorem learned_of_version {handshake : HandshakeState} {actions : List HandshakeAction}
    {version : VersionMessage} (hdirection : session.direction = .outbound)
    (hversion : handshake.remoteVersion = some version)
    (hvalid : validateVersionMessage crypto version manager.addressManager.peers.network = .ok ())
    (hroom : manager.addressManager.peers.HasRoom peer) :
    ∃ state,
      (manager.advanceHandshake text crypto peer session handshake actions now).2.addressManager.peers =
        { manager.addressManager.peers with
          knownPeers := manager.addressManager.peers.knownPeers.insert peer state } := by
  have haccepted := (@PeerBook.acceptVersion_eq_ok text crypto manager.addressManager.peers _
    peer version now).mpr ⟨hvalid, hroom, rfl⟩
  have hlearned := AddressManager.acceptVersion_eq_ok.mpr ⟨_, haccepted, rfl⟩
  simp only [advanceHandshake, hdirection, hversion, hlearned]
  exact ⟨_, rfl⟩

def greeting : NetworkMessage := ⟨.mainnet, .version visitorVersion⟩

/-- The node calls a peer, hears its version and hangs up. -/
def callUp (peer : String) : List (UInt64 × SessionCall) :=
  [(100, .openOutbound peer greeting), (100, .receive peer greeting greeting),
    (100, .disconnect peer)]

def callUps (count : Nat) : List (UInt64 × SessionCall) :=
  (List.range count).flatMap fun index => callUp (visitor index)

/-- Nobody is connected and nothing is recorded against anyone, but the book knows the peers
that were called. -/
structure CalledUp (manager : ConnectionManager) (count : Nat) : Prop where
  managed : manager.network = .mainnet
  peers : manager.addressManager.peers.network = .mainnet
  sessions : ∀ peer : String, manager.sessions[peer]? = none
  banlist : manager.banlist = {}
  known : ∀ index, visitor index ∈ manager.addressManager.peers.knownPeers ↔ index < count
  size : manager.addressManager.peers.knownPeers.size = count

section

variable {count : Nat} (hcalled : CalledUp manager count)

include hcalled

theorem CalledUp.opens (peer : String) :
    manager.openOutbound defaultLimits peer greeting 100 =
      .ok ([.send peer greeting], manager.setSession peer ⟨.outbound, .greeted .mainnet⟩) := by
  have hcount : manager.outboundCount = 0 := by
    rw [outboundCount, countDirection, List.countP_eq_zero]
    rintro ⟨other, session⟩ hmem
    rw [Std.TreeMap.mem_toList_iff_getElem?_eq_some, hcalled.sessions other] at hmem
    cases hmem
  have hunscored : manager.banlist.entries[peer]? = none := by
    rw [hcalled.banlist]
    rfl
  rw [← hcalled.managed]
  refine openOutbound_eq_ok.mpr ⟨?_, isBanned_of_unscored hunscored, ?_, ⟨_, rfl⟩, rfl, rfl⟩
  · rw [Std.TreeMap.mem_iff_isSome_getElem?, hcalled.sessions peer]
    exact Bool.false_ne_true
  · rw [hcount]
    decide

theorem CalledUp.hears (peer : String) :
    ∃ actions, (manager.setSession peer ⟨.outbound, .greeted .mainnet⟩).receive defaultLimits text
        .hashing peer greeting greeting 100 =
      (manager.setSession peer ⟨.outbound, .greeted .mainnet⟩).advanceHandshake text .hashing peer
        ⟨.outbound, .greeted .mainnet⟩ (.awaiting .mainnet visitorVersion) actions 100 := by
  obtain ⟨actions, -, hreceived⟩ := @HandshakeState.receive_version .hashing .mainnet visitorVersion
    greeting .outbound visitorVersion_valid rfl
  refine ⟨actions, receive_of_handshake ?_ Std.TreeMap.getElem?_insert_self rfl hreceived⟩
  change manager.banlist.entries[peer]? = none
  rw [hcalled.banlist]
  rfl

theorem CalledUp.validVersion :
    validateVersionMessage .hashing visitorVersion manager.addressManager.peers.network = .ok () := by
  rw [hcalled.peers]
  exact visitorVersion_valid

theorem CalledUp.callUp (hplace : count < maxKnownPeers) :
    CalledUp (manager.runSessions defaultLimits text .hashing (callUp (visitor count))) (count + 1) := by
  obtain ⟨actions, hheard⟩ := @CalledUp.hears text _ _ hcalled (visitor count)
  have hroom : manager.addressManager.peers.HasRoom (visitor count) := by
    refine .inr ?_
    rw [hcalled.size]
    exact hplace
  obtain ⟨state, hlearned⟩ := @learned_of_version text .hashing
    (manager.setSession (visitor count) ⟨.outbound, .greeted .mainnet⟩) (visitor count)
    ⟨.outbound, .greeted .mainnet⟩ 100 (.awaiting .mainnet visitorVersion) actions visitorVersion
    rfl rfl hcalled.validVersion hroom
  have hunknown : visitor count ∉ manager.addressManager.peers.knownPeers :=
    fun hmem => lt_irrefl _ ((hcalled.known count).mp hmem)
  set heard := (manager.setSession (visitor count) ⟨.outbound, .greeted .mainnet⟩).advanceHandshake
    text .hashing (visitor count) ⟨.outbound, .greeted .mainnet⟩ (.awaiting .mainnet visitorVersion)
    actions 100
  have hgrown : (manager.setSession (visitor count) ⟨.outbound, .greeted .mainnet⟩).Grown heard.2 :=
    grown_advanceHandshake
  have hsessions : heard.2.sessions = _ := sessions_advanceHandshake _ _
  have hbanlist : heard.2.banlist = manager.banlist := banlist_advanceHandshake ..
  have hrun : manager.runSessions defaultLimits text .hashing (Atho.ConnectionManager.callUp
      (visitor count)) = (heard.2.disconnect (visitor count)).2 := by
    simp only [runSessions, Atho.ConnectionManager.callUp, List.map_cons, List.map_nil, run,
      List.foldl_cons, List.foldl_nil, SessionCall.call, step, hcalled.opens, Except.toOption,
      Option.map_some, Option.getD_some, hheard]
  rw [hrun]
  refine ⟨hgrown.network.trans hcalled.managed, hgrown.peers.network.trans hcalled.peers, ?_,
    hbanlist.trans hcalled.banlist, ?_, ?_⟩
  · intro peer
    change (heard.2.sessions.erase (visitor count))[peer]? = none
    rw [hsessions, setSession, Std.TreeMap.getElem?_erase]
    split
    · rfl
    · next hne =>
        rw [Std.TreeMap.getElem?_insert, if_neg hne, Std.TreeMap.getElem?_insert, if_neg hne,
          hcalled.sessions]
  · intro index
    change visitor index ∈ heard.2.addressManager.peers.knownPeers ↔ _
    rw [hlearned]
    change visitor index ∈ manager.addressManager.peers.knownPeers.insert (visitor count) state ↔ _
    rw [Std.TreeMap.mem_insert, Std.LawfulEqOrd.compare_eq_iff_eq, hcalled.known]
    constructor
    · rintro (heq | hlt)
      · have := visitor_injective heq
        omega
      · omega
    · intro hlt
      rcases Nat.lt_succ_iff_lt_or_eq.mp hlt with hlt | rfl
      · exact .inr hlt
      · exact .inl rfl
  · change heard.2.addressManager.peers.knownPeers.size = _
    rw [hlearned]
    change (manager.addressManager.peers.knownPeers.insert (visitor count) state).size = _
    rw [Std.TreeMap.size_insert, if_neg fun hknown => hunknown (Std.TreeMap.contains_iff_mem.mp hknown),
      hcalled.size]

end

theorem calledUp_callUps {count : Nat} (hplaces : count ≤ maxKnownPeers) :
    CalledUp ((new .mainnet).runSessions defaultLimits text .hashing (callUps count)) count := by
  induction count with
  | zero =>
      refine ⟨rfl, rfl, ?_, rfl, ?_, rfl⟩
      · intro peer
        simp [callUps, runSessions, run, new]
      · intro index
        simp [callUps, runSessions, run, new, AddressManager.new]
  | succ count ih =>
      have hnext := @CalledUp.callUp text _ _ (ih (Nat.le_of_succ_le hplaces)) hplaces
      rw [callUps, List.range_succ, List.flatMap_append, List.flatMap_singleton, runSessions_append]
      exact hnext

def verack : NetworkMessage := ⟨.mainnet, .verack⟩

/-- The whole handshake of a peer that the node calls. -/
def callThrough (peer : String) : List (UInt64 × SessionCall) :=
  [(100, .openOutbound peer greeting), (100, .receive peer greeting greeting),
    (100, .receive peer verack greeting)]

/-- A full book refuses both messages of the handshake; yet the session is ready, and the next
message of the peer is passed on. -/
theorem CalledUp.refuses {peer : String} {count : Nat} (hcalled : CalledUp manager count)
    (hfull : ¬manager.addressManager.peers.HasRoom peer) :
    manager.trace defaultLimits text .hashing (callThrough peer) =
        [(.openOutbound peer greeting, .ok [.send peer greeting]),
          (.receive peer greeting greeting, .error (.protocol .peerBookFull)),
          (.receive peer verack greeting, .error (.protocol .peerBookFull))] ∧
      (manager.runSessions defaultLimits text .hashing (callThrough peer)).outcome defaultLimits text
          .hashing 100 (.receive peer ⟨.mainnet, .memPool⟩ greeting) =
        .ok [.message peer ⟨.mainnet, .memPool⟩] := by
  obtain ⟨actions, hheard⟩ := @CalledUp.hears text _ _ hcalled peer
  have hunlearned : ¬manager.LearnsAddress .outbound peer := fun hlearns => hfull (hlearns rfl)
  have hunscored : manager.banlist.entries[peer]? = none := by
    rw [hcalled.banlist]
    rfl
  let opened := manager.setSession peer ⟨.outbound, .greeted .mainnet⟩
  let answered := opened.setSession peer ⟨.outbound, .awaiting .mainnet visitorVersion⟩
  let welcomed := answered.setSession peer ⟨.outbound, .done .mainnet visitorVersion⟩
  have hversion : opened.receive defaultLimits text .hashing peer greeting greeting 100 =
      (.error (.protocol .peerBookFull), answered) :=
    hheard.trans (advanceHandshake_of_full rfl hcalled.validVersion hunlearned)
  have hverack : answered.receive defaultLimits text .hashing peer verack greeting 100 =
      (.error (.protocol .peerBookFull), welcomed) := by
    have hclean : answered.banlist.entries[peer]? = none := hunscored
    have hvalid : validateVersionMessage .hashing visitorVersion
        answered.addressManager.peers.network = .ok () := hcalled.validVersion
    exact (receive_of_handshake hclean Std.TreeMap.getElem?_insert_self rfl
      (HandshakeState.receive_verack rfl)).trans (advanceHandshake_of_full rfl hvalid hunlearned)
  have hpassed : (welcomed.receive defaultLimits text .hashing peer ⟨.mainnet, .memPool⟩ greeting
      100).1 = .ok [.message peer ⟨.mainnet, .memPool⟩] := by
    have hclean : welcomed.banlist.entries[peer]? = none := hunscored
    exact congrArg Prod.fst (receive_of_ready hclean Std.TreeMap.getElem?_insert_self rfl)
  have hopened : manager.openOutbound defaultLimits peer greeting 100 =
      .ok ([.send peer greeting], opened) := hcalled.opens peer
  constructor
  · simp only [callThrough, trace, outcome, SessionCall.call, step, hopened, Except.toOption,
      Option.map_some, Option.getD_some, Except.map, hversion, hverack]
  · simp only [callThrough, runSessions, List.map_cons, List.map_nil, run, List.foldl_cons,
      List.foldl_nil, SessionCall.call, step, hopened, Except.toOption, Option.map_some,
      Option.getD_some, hversion, hverack, outcome, hpassed]

end ConnectionManager

end Atho
