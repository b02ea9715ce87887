import Std.Data.TreeMap.Lemmas
import Std.Data.TreeSet.Lemmas
import Atho.Library.BestOf
import Atho.Library.Bytes

/-! The scheduler that spreads block downloads over the connected peers. Clock readings
are passed to the functions that take them. -/

namespace Atho

abbrev Hash48 := Bytes 48

abbrev Instant := Nat

abbrev Duration := Nat

inductive InventoryKind where
  | transaction
  | block
  deriving DecidableEq

structure InventoryVector where
  kind : InventoryKind
  hash : Hash48
  deriving DecidableEq

structure DownloadAssignment where
  peer : String
  inventory : List InventoryVector
  deriving DecidableEq

structure StaleDownload where
  peer : String
  hash : Hash48
  deriving DecidableEq

def peerTimeoutPenalty : Nat := 12
def peerNotFoundPenalty : Nat := 6
def peerDisconnectPenalty : Nat := 18
def peerSuccessDecay : Nat := 4
def peerPenaltyCap : Nat := 100

structure BlockDownloadScheduler where
  readyPeers : Std.TreeSet String := ∅
  pending : List Hash48 := []
  inflightByPeer : Std.TreeMap String (List Hash48) := ∅
  inflightOwner : Std.TreeMap Hash48 String := ∅
  inflightStarted : Std.TreeMap Hash48 Instant := ∅
  peerHints : Std.TreeMap Hash48 (Std.TreeSet String) := ∅
  failedPeers : Std.TreeMap Hash48 (Std.TreeSet String) := ∅
  completed : Std.TreeSet Hash48 := ∅
  peerPenalties : Std.TreeMap String Nat := ∅

namespace BlockDownloadScheduler

/-! Penalties, hints and failures. -/

def peerPenalty (scheduler : BlockDownloadScheduler) (peer : String) : Nat :=
  scheduler.peerPenalties[peer]?.getD 0

def penalizePeer (peer : String) (points : Nat) (scheduler : BlockDownloadScheduler) :
    BlockDownloadScheduler :=
  { scheduler with
    peerPenalties := scheduler.peerPenalties.insert peer
      (min (scheduler.peerPenalty peer + points) peerPenaltyCap) }

def decayPeerPenalty (peer : String) (points : Nat) (scheduler : BlockDownloadScheduler) :
    BlockDownloadScheduler :=
  match scheduler.peerPenalties[peer]? with
  | none => scheduler
  | some penalty =>
      { scheduler with
        peerPenalties :=
          if penalty - points = 0 then scheduler.peerPenalties.erase peer
          else scheduler.peerPenalties.insert peer (penalty - points) }

def addHint (peer : String) (hash : Hash48) (scheduler : BlockDownloadScheduler) :
    BlockDownloadScheduler :=
  { scheduler with
    peerHints := scheduler.peerHints.insert hash
      ((scheduler.peerHints[hash]?.getD ∅).insert peer) }

def removeEmptyHints (hash : Hash48) (scheduler : BlockDownloadScheduler) :
    BlockDownloadScheduler :=
  if scheduler.peerHints[hash]?.any (·.isEmpty) then
    { scheduler with peerHints := scheduler.peerHints.erase hash }
  else scheduler

def removeHint (peer : String) (hash : Hash48) (scheduler : BlockDownloadScheduler) :
    BlockDownloadScheduler :=
  removeEmptyHints hash
    { scheduler with peerHints := scheduler.peerHints.modify hash (·.erase peer) }

def addFailure (peer : String) (hash : Hash48) (scheduler : BlockDownloadScheduler) :
    BlockDownloadScheduler :=
  { scheduler with
    failedPeers := scheduler.failedPeers.insert hash
      ((scheduler.failedPeers[hash]?.getD ∅).insert peer) }

/-! The queue and the blocks in flight. -/

/-- The hash is completed, in flight or pending. -/
def isKnown (scheduler : BlockDownloadScheduler) (hash : Hash48) : Bool :=
  scheduler.completed.contains hash || scheduler.inflightOwner.contains hash ||
    scheduler.pending.contains hash

def pushFront (hash : Hash48) (scheduler : BlockDownloadScheduler) : BlockDownloadScheduler :=
  { scheduler with pending := hash :: scheduler.pending }

def pushBack (hash : Hash48) (scheduler : BlockDownloadScheduler) : BlockDownloadScheduler :=
  { scheduler with pending := scheduler.pending ++ [hash] }

/-- The hash waits in front again, unless it waits or is completed. -/
def requeueFront (hash : Hash48) (scheduler : BlockDownloadScheduler) :
    BlockDownloadScheduler :=
  if scheduler.completed.contains hash || scheduler.pending.contains hash then scheduler
  else scheduler.pushFront hash

/-- The hash is no longer in flight, and leaves the queue of `peer`. -/
def release (peer : String) (hash : Hash48) (scheduler : BlockDownloadScheduler) :
    BlockDownloadScheduler :=
  { scheduler with
    inflightOwner := scheduler.inflightOwner.erase hash
    inflightStarted := scheduler.inflightStarted.erase hash
    inflightByPeer := scheduler.inflightByPeer.modify peer (List.filter (· ≠ hash)) }

/-- The hash is in flight from `peer` since `now`. -/
def assign (peer : String) (now : Instant) (hash : Hash48) (scheduler : BlockDownloadScheduler) :
    BlockDownloadScheduler :=
  { scheduler with
    inflightByPeer := scheduler.inflightByPeer.insert peer
      (scheduler.inflightByPeer[peer]?.getD [] ++ [hash])
    inflightOwner := scheduler.inflightOwner.insert hash peer
    inflightStarted := scheduler.inflightStarted.insert hash now }

def peerInflightLen (scheduler : BlockDownloadScheduler) (peer : String) : Nat :=
  (scheduler.inflightByPeer[peer]?.getD []).length

def totalInflightLen (scheduler : BlockDownloadScheduler) : Nat :=
  scheduler.inflightOwner.size

/-- The sum that the assignment functions compare with the global cap. -/
def totalInflight (scheduler : BlockDownloadScheduler) : Nat :=
  (scheduler.inflightByPeer.toList.map fun (_, inflight) => inflight.length).sum

/-! Peers. -/

def notePeerReady (peer : String) (scheduler : BlockDownloadScheduler) :
    BlockDownloadScheduler :=
  { scheduler with
    readyPeers := scheduler.readyPeers.insert peer
    inflightByPeer := scheduler.inflightByPeer.insertIfNew peer [] }

/-- One block that was in flight when its peer went away. -/
def returnBlock (peer : String) (scheduler : BlockDownloadScheduler) (hash : Hash48) :
    BlockDownloadScheduler :=
  let scheduler := { scheduler with
    inflightOwner := scheduler.inflightOwner.erase hash
    inflightStarted := scheduler.inflightStarted.erase hash }
  let scheduler :=
    if scheduler.pending.contains hash || scheduler.completed.contains hash then scheduler
    else scheduler.pushBack hash
  (scheduler.removeHint peer hash).addFailure peer hash

def notePeerDisconnected (peer : String) (scheduler : BlockDownloadScheduler) :
    BlockDownloadScheduler :=
  let scheduler := { scheduler with readyPeers := scheduler.readyPeers.erase peer }
  match scheduler.inflightByPeer[peer]? with
  | none => scheduler
  | some inflight =>
      let scheduler :=
        { scheduler with inflightByPeer := scheduler.inflightByPeer.erase peer }
      let scheduler :=
        if inflight.isEmpty then scheduler
        else scheduler.penalizePeer peer peerDisconnectPenalty
      inflight.foldl (returnBlock peer) scheduler

/-! Announced blocks. -/

def noteHeader (peer : String) (scheduler : BlockDownloadScheduler) (hash : Hash48) :
    BlockDownloadScheduler :=
  let scheduler := scheduler.addHint peer hash
  if scheduler.isKnown hash then scheduler else scheduler.pushBack hash

def noteHeaders (peer : String) (hashes : List Hash48) (scheduler : BlockDownloadScheduler) :
    BlockDownloadScheduler :=
  hashes.foldl (noteHeader peer) scheduler

def noteInventory (peer : String) (hash : Hash48) (scheduler : BlockDownloadScheduler) :
    BlockDownloadScheduler :=
  scheduler.addHint peer hash

/-- Hint the peer that was named, if any. -/
def addOptionalHint (peer : Option String) (hash : Hash48) (scheduler : BlockDownloadScheduler) :
    BlockDownloadScheduler :=
  match peer with
  | some peer => scheduler.addHint peer hash
  | none => scheduler

def queuePriorityBlock (peer : Option String) (hash : Hash48)
    (scheduler : BlockDownloadScheduler) : Bool × BlockDownloadScheduler :=
  let scheduler := scheduler.addOptionalHint peer hash
  if scheduler.isKnown hash then (false, scheduler) else (true, scheduler.pushFront hash)

def reassignPriorityBlock (peer : Option String) (hash : Hash48)
    (scheduler : BlockDownloadScheduler) : Bool × BlockDownloadScheduler :=
  if scheduler.completed.contains hash then (false, scheduler)
  else if scheduler.inflightOwner[hash]?.any (fun owner => peer = some owner) then
    (false, scheduler)
  else
    let scheduler :=
      match scheduler.inflightOwner[hash]? with
      | some owner => scheduler.release owner hash
      | none => scheduler
    let scheduler := { scheduler with pending := scheduler.pending.erase hash }
    (true, (scheduler.addOptionalHint peer hash).pushFront hash)

/-! Completed and forgotten blocks. -/

def noteHashCompleted (scheduler : BlockDownloadScheduler) (hash : Hash48) :
    BlockDownloadScheduler :=
  let scheduler := { scheduler with
    completed := scheduler.completed.insert hash
    failedPeers := scheduler.failedPeers.erase hash
    pending := scheduler.pending.filter (· ≠ hash) }
  match scheduler.inflightOwner[hash]? with
  | some owner => (scheduler.decayPeerPenalty owner peerSuccessDecay).release owner hash
  | none => { scheduler with inflightStarted := scheduler.inflightStarted.erase hash }

def noteBlockReceived (hash : Hash48) (scheduler : BlockDownloadScheduler) :
    BlockDownloadScheduler :=
  scheduler.noteHashCompleted hash

/-- Whether anything was removed, and what is left. -/
def forgetHash (scheduler : BlockDownloadScheduler) (hash : Hash48) :
    Bool × BlockDownloadScheduler :=
  (scheduler.completed.contains hash || scheduler.pending.contains hash ||
      scheduler.inflightOwner.contains hash || scheduler.inflightStarted.contains hash ||
      scheduler.inflightByPeer.toList.any (·.2.contains hash) ||
      scheduler.peerHints.contains hash || scheduler.failedPeers.contains hash,
    { scheduler with
      completed := scheduler.completed.erase hash
      pending := scheduler.pending.filter (· ≠ hash)
      inflightOwner := scheduler.inflightOwner.erase hash
      inflightStarted := scheduler.inflightStarted.erase hash
      inflightByPeer := scheduler.inflightByPeer.map fun _ => List.filter (· ≠ hash)
      peerHints := scheduler.peerHints.erase hash
      failedPeers := scheduler.failedPeers.erase hash })

def forgetBlocks (hashes : List Hash48) (scheduler : BlockDownloadScheduler) :
    Nat × BlockDownloadScheduler :=
  hashes.foldl (fun (removed, scheduler) hash =>
    (removed + (scheduler.forgetHash hash).1.toNat, (scheduler.forgetHash hash).2)) (0, scheduler)

def forgetCompleted (hash : Hash48) (scheduler : BlockDownloadScheduler) :
    Bool × BlockDownloadScheduler :=
  (scheduler.completed.contains hash,
    { scheduler with completed := scheduler.completed.erase hash })

def pruneCompletedWhere (isCompleted : Hash48 → Bool) (scheduler : BlockDownloadScheduler) :
    Nat × BlockDownloadScheduler :=
  let candidates := Std.TreeSet.ofList (scheduler.pending ++ scheduler.inflightOwner.keys)
  let pruned := candidates.toList.filter isCompleted
  (pruned.length, pruned.foldl noteHashCompleted scheduler)

def sortPendingByKey {Key : Type} [Ord Key] (key : Hash48 → Key)
    (scheduler : BlockDownloadScheduler) : BlockDownloadScheduler :=
  { scheduler with
    pending := scheduler.pending.mergeSort fun left right =>
      (compare (key left) (key right)).isLE }

/-! The clock of the blocks in flight. -/

/-- Every block in flight from `peer` counts as started at `now`. -/
def restartInflight (peer : String) (now : Instant) (scheduler : BlockDownloadScheduler) :
    BlockDownloadScheduler :=
  match scheduler.inflightByPeer[peer]? with
  | none => scheduler
  | some inflight =>
      { scheduler with
        inflightStarted := inflight.foldl (fun started hash => started.modify hash fun _ => now)
          scheduler.inflightStarted }

def notePeerDeliveryProgress (peer : String) (now : Instant)
    (scheduler : BlockDownloadScheduler) : BlockDownloadScheduler :=
  scheduler.restartInflight peer now

/-- The second reading is only taken when the clock does not reach back far enough. -/
def backdateInflightForPeer (peer : String) (age : Duration) (now later : Instant)
    (scheduler : BlockDownloadScheduler) : BlockDownloadScheduler :=
  scheduler.restartInflight peer (if age ≤ now then now - age else later)

/-! Blocks that did not arrive. -/

/-- The peer failed to deliver the hash, which waits in front again. -/
def failBlock (peer : String) (hash : Hash48) (scheduler : BlockDownloadScheduler) :
    BlockDownloadScheduler :=
  ((scheduler.release peer hash).removeHint peer hash).addFailure peer hash

def noteNotFound (peer : String) (hashes : List Hash48) (scheduler : BlockDownloadScheduler) :
    BlockDownloadScheduler :=
  let (penalize, scheduler) := hashes.foldl (fun (penalize, scheduler) hash =>
    if scheduler.inflightOwner[hash]?.any (· ≠ peer) then (penalize, scheduler)
    else (true, (scheduler.failBlock peer hash).requeueFront hash)) (false, scheduler)
  if penalize then scheduler.penalizePeer peer peerNotFoundPenalty else scheduler

/-- One step of `requeue_stale_inflight_details`. -/
def requeueStale (requeued : List StaleDownload) (scheduler : BlockDownloadScheduler)
    (hash : Hash48) : List StaleDownload × BlockDownloadScheduler :=
  match scheduler.inflightOwner[hash]? with
  | some owner =>
      (requeued ++ [⟨owner, hash⟩],
        ((scheduler.failBlock owner hash).penalizePeer owner peerTimeoutPenalty).requeueFront hash)
  | none =>
      (requeued, requeueFront hash
        { scheduler with inflightStarted := scheduler.inflightStarted.erase hash })

def requeueStaleInflightDetails (timeout : Duration) (now : Instant)
    (scheduler : BlockDownloadScheduler) : List StaleDownload × BlockDownloadScheduler :=
  let stale := scheduler.inflightStarted.toList.filterMap fun (hash, started) =>
    if now - started ≥ timeout then some hash else none
  stale.foldl (fun (requeued, scheduler) hash => scheduler.requeueStale requeued hash)
    ([], scheduler)

def requeueStaleInflight (timeout : Duration) (now : Instant)
    (scheduler : BlockDownloadScheduler) : Nat × BlockDownloadScheduler :=
  let (requeued, scheduler) := scheduler.requeueStaleInflightDetails timeout now
  (requeued.length, scheduler)

def requeueStaleInflightForPeer (peer : String) (timeout : Duration) (now : Instant)
    (scheduler : BlockDownloadScheduler) : List StaleDownload × BlockDownloadScheduler :=
  match scheduler.inflightByPeer[peer]? with
  | none => ([], scheduler)
  | some inflight =>
      let stale := inflight.filter fun hash =>
        scheduler.inflightStarted[hash]?.any fun started => now - started ≥ timeout
      (stale.map (⟨peer, ·⟩), stale.foldl (fun scheduler hash =>
        ((scheduler.failBlock peer hash).penalizePeer peer peerTimeoutPenalty).requeueFront hash)
        scheduler)

/-! Choosing a peer. -/

/-- The peers that were told to have the block; none is a hint to nobody. -/
def hints (scheduler : BlockDownloadScheduler) (hash : Hash48) : Option (Std.TreeSet String) :=
  scheduler.peerHints[hash]?.filter fun hints => !hints.isEmpty

def isHinted (scheduler : BlockDownloadScheduler) (hash : Hash48) (peer : String) : Bool :=
  (scheduler.hints hash).all (·.contains peer)

def hasFailed (scheduler : BlockDownloadScheduler) (hash : Hash48) (peer : String) : Bool :=
  scheduler.failedPeers[hash]?.any (·.contains peer)

/-- What the peers are compared by, the least first. -/
structure Candidate where
  penalty : Nat
  inflight : Nat
  rotation : Nat
  peer : String

def Candidate.order (left right : Candidate) : Ordering :=
  (compare right.penalty left.penalty).then
    ((compare right.inflight left.inflight).then (compare right.rotation left.rotation))

abbrev Staged := Std.TreeMap String (List InventoryVector)

def candidates (scheduler : BlockDownloadScheduler) (peers : List String) (startIndex : Nat)
    (maxRequestsPerPeer maxRequestsPerBatch : Nat) (staged : Staged) (allowed : String → Bool) :
    List Candidate :=
  (peers.zipIdx.filter fun (peer, _) => allowed peer).filterMap fun (peer, index) =>
    if staged[peer]?.any fun inventory => inventory.length ≥ maxRequestsPerBatch then none
    else if scheduler.peerInflightLen peer < maxRequestsPerPeer then
      some ⟨scheduler.peerPenalty peer, scheduler.peerInflightLen peer,
        (index + peers.length - startIndex % peers.length) % peers.length, peer⟩
    else none

def selectPeerFromCandidates (scheduler : BlockDownloadScheduler) (peers : List String)
    (startIndex : Nat) (maxRequestsPerPeer maxRequestsPerBatch : Nat) (staged : Staged)
    (allowed : String → Bool) : Option String :=
  (BestOf.bestOf Candidate.order (scheduler.candidates peers startIndex maxRequestsPerPeer
    maxRequestsPerBatch staged allowed)).map Candidate.peer

def selectPeerForHashLimited (scheduler : BlockDownloadScheduler) (peers : List String)
    (startIndex : Nat) (hash : Hash48) (maxRequestsPerPeer maxRequestsPerBatch : Nat)
    (staged : Staged) : Option String :=
  if peers.isEmpty then none
  else
    (scheduler.selectPeerFromCandidates peers startIndex maxRequestsPerPeer maxRequestsPerBatch
      staged fun peer => scheduler.isHinted hash peer && !scheduler.hasFailed hash peer).or
    (scheduler.selectPeerFromCandidates peers startIndex maxRequestsPerPeer maxRequestsPerBatch
      staged (scheduler.isHinted hash))

/-! Handing out the queue. -/

/-- The rounds of `assignments_limited`: the queue is handed out from the front until the
global cap is reached or no peer can take the next block. `clock` has the reading for each
block handed out. -/
def assignQueue (peers : List String)
    (maxBlocksInFlight maxRequestsPerPeer maxRequestsPerBatch : Nat) (clock : Nat → Instant) :
    List Hash48 → (totalInflight cursor : Nat) → Staged → BlockDownloadScheduler →
      Staged × BlockDownloadScheduler
  | [], _, _, staged, scheduler => (staged, { scheduler with pending := [] })
  | hash :: queue, totalInflight, cursor, staged, scheduler =>
      if totalInflight < maxBlocksInFlight then
        match scheduler.selectPeerForHashLimited peers cursor hash maxRequestsPerPeer
            maxRequestsPerBatch staged with
        | none => (staged, { scheduler with pending := hash :: queue })
        | some peer =>
            assignQueue peers maxBlocksInFlight maxRequestsPerPeer maxRequestsPerBatch clock queue
              (totalInflight + 1) ((peers.idxOf? peer).getD cursor + 1)
              (staged.insert peer (staged[peer]?.getD [] ++ [⟨.block, hash⟩]))
              (scheduler.assign peer (clock totalInflight) hash)
      else (staged, { scheduler with pending := hash :: queue })

def assignmentsLimited (maxBlocksInFlight maxRequestsPerPeer maxRequestsPerBatch : Nat)
    (clock : Nat → Instant) (scheduler : BlockDownloadScheduler) :
    List DownloadAssignment × BlockDownloadScheduler :=
  if scheduler.readyPeers.isEmpty || scheduler.pending.isEmpty || maxBlocksInFlight = 0 then
    ([], scheduler)
  else if scheduler.totalInflight ≥ maxBlocksInFlight then ([], scheduler)
  else
    let (staged, scheduler) := assignQueue scheduler.readyPeers.toList maxBlocksInFlight
      maxRequestsPerPeer maxRequestsPerBatch clock scheduler.pending scheduler.totalInflight 0 ∅
      scheduler
    (staged.toList.map fun (peer, inventory) => ⟨peer, inventory⟩, scheduler)

def assignments (maxBlocksInFlight maxRequestsPerPeer : Nat) (clock : Nat → Instant)
    (scheduler : BlockDownloadScheduler) : List DownloadAssignment × BlockDownloadScheduler :=
  scheduler.assignmentsLimited maxBlocksInFlight maxRequestsPerPeer maxRequestsPerPeer clock

/-- Whether the scan for one peer leaves the hash in the queue. -/
def skips (scheduler : BlockDownloadScheduler) (peer : String) (allowedHash : Hash48 → Bool)
    (hash : Hash48) : Bool :=
  let allReadyPeersFailed := scheduler.failedPeers[hash]?.any fun failed =>
    !scheduler.readyPeers.isEmpty && scheduler.readyPeers.toList.all (failed.contains ·)
  !allowedHash hash || !scheduler.isHinted hash peer ||
    (scheduler.hasFailed hash peer && !allReadyPeersFailed)

/-- The rounds of `assignment_for_peer_filtered_limited`: blocks that this peer cannot take
are put aside and go back in front of what was not looked at. -/
def assignToPeer (peer : String) (maxBlocksInFlight peerCapacity : Nat)
    (allowedHash : Hash48 → Bool) (clock : Nat → Instant) :
    List Hash48 → (totalInflight : Nat) → List InventoryVector → (skipped : List Hash48) →
      BlockDownloadScheduler → List InventoryVector × BlockDownloadScheduler
  | [], _, inventory, skipped, scheduler => (inventory, { scheduler with pending := skipped })
  | hash :: queue, totalInflight, inventory, skipped, scheduler =>
      if totalInflight ≥ maxBlocksInFlight || inventory.length ≥ peerCapacity then
        (inventory, { scheduler with pending := skipped ++ hash :: queue })
      else if scheduler.skips peer allowedHash hash then
        assignToPeer peer maxBlocksInFlight peerCapacity allowedHash clock queue totalInflight
          inventory (skipped ++ [hash]) scheduler
      else
        assignToPeer peer maxBlocksInFlight peerCapacity allowedHash clock queue
          (totalInflight + 1) (inventory ++ [⟨.block, hash⟩]) skipped
          (scheduler.assign peer (clock totalInflight) hash)

def assignmentForPeerFilteredLimited (peer : String)
    (maxBlocksInFlight maxRequestsPerPeer maxRequestsPerBatch : Nat)
    (allowedHash : Hash48 → Bool) (clock : Nat → Instant) (scheduler : BlockDownloadScheduler) :
    Option DownloadAssignment × BlockDownloadScheduler :=
  if !scheduler.readyPeers.contains peer || scheduler.pending.isEmpty ||
      maxBlocksInFlight = 0 || maxRequestsPerPeer = 0 || maxRequestsPerBatch = 0 then
    (none, scheduler)
  else if scheduler.totalInflight ≥ maxBlocksInFlight then (none, scheduler)
  else
    let peerCapacity := min (maxRequestsPerPeer - scheduler.peerInflightLen peer)
      maxRequestsPerBatch
    if peerCapacity = 0 then (none, scheduler)
    else
      let (inventory, scheduler) := assignToPeer peer maxBlocksInFlight peerCapacity allowedHash
        clock scheduler.pending scheduler.totalInflight [] [] scheduler
      (if inventory.isEmpty then none else some ⟨peer, inventory⟩, scheduler)

def assignmentForPeerLimited (peer : String)
    (maxBlocksInFlight maxRequestsPerPeer maxRequestsPerBatch : Nat) (clock : Nat → Instant)
    (scheduler : BlockDownloadScheduler) : Option DownloadAssignment × BlockDownloadScheduler :=
  scheduler.assignmentForPeerFilteredLimited peer maxBlocksInFlight maxRequestsPerPeer
    maxRequestsPerBatch (fun _ => true) clock

def assignmentForPeer (peer : String) (maxBlocksInFlight maxRequestsPerPeer : Nat)
    (clock : Nat → Instant) (scheduler : BlockDownloadScheduler) :
    Option DownloadAssignment × BlockDownloadScheduler :=
  scheduler.assignmentForPeerLimited peer maxBlocksInFlight maxRequestsPerPeer
    maxRequestsPerPeer clock

def assignmentForPeerMatchingLimited (peer : String)
    (maxBlocksInFlight maxRequestsPerPeer maxRequestsPerBatch : Nat)
    (allowedHashes : Std.TreeSet Hash48) (clock : Nat → Instant)
    (scheduler : BlockDownloadScheduler) : Option DownloadAssignment × BlockDownloadScheduler :=
  scheduler.assignmentForPeerFilteredLimited peer maxBlocksInFlight maxRequestsPerPeer
    maxRequestsPerBatch (allowedHashes.contains ·) clock

/-! Whole runs. -/

/-- A call of a public function that changes the scheduler. -/
inductive Call : Type 1 where
  | notePeerReady (peer : String)
  | notePeerDisconnected (peer : String)
  | noteHeaders (peer : String) (hashes : List Hash48)
  | noteInventory (peer : String) (hash : Hash48)
  | queuePriorityBlock (peer : Option String) (hash : Hash48)
  | reassignPriorityBlock (peer : Option String) (hash : Hash48)
  | noteBlockReceived (hash : Hash48)
  | forgetBlocks (hashes : List Hash48)
  | forgetCompleted (hash : Hash48)
  | notePeerDeliveryProgress (peer : String) (now : Instant)
  | pruneCompletedWhere (isCompleted : Hash48 → Bool)
  | sortPendingByKey (Key : Type) (order : Ord Key) (key : Hash48 → Key)
  | backdateInflightForPeer (peer : String) (age : Duration) (now later : Instant)
  | noteNotFound (peer : String) (hashes : List Hash48)
  | assignments (maxBlocksInFlight maxRequestsPerPeer : Nat) (clock : Nat → Instant)
  | assignmentsLimited (maxBlocksInFlight maxRequestsPerPeer maxRequestsPerBatch : Nat)
      (clock : Nat → Instant)
  | assignmentForPeer (peer : String) (maxBlocksInFlight maxRequestsPerPeer : Nat)
      (clock : Nat → Instant)
  | assignmentForPeerLimited (peer : String)
      (maxBlocksInFlight maxRequestsPerPeer maxRequestsPerBatch : Nat) (clock : Nat → Instant)
  | assignmentForPeerMatchingLimited (peer : String)
      (maxBlocksInFlight maxRequestsPerPeer maxRequestsPerBatch : Nat)
      (allowedHashes : Std.TreeSet Hash48) (clock : Nat → Instant)
  | requeueStaleInflight (timeout : Duration) (now : Instant)
  | requeueStaleInflightDetails (timeout : Duration) (now : Instant)
  | requeueStaleInflightForPeer (peer : String) (timeout : Duration) (now : Instant)

/-- The assignments a call hands out, if any, and the scheduler after it. -/
def perform (scheduler : BlockDownloadScheduler) :
    Call → List DownloadAssignment × BlockDownloadScheduler
  | .notePeerReady peer => ([], scheduler.notePeerReady peer)
  | .notePeerDisconnected peer => ([], scheduler.notePeerDisconnected peer)
  | .noteHeaders peer hashes => ([], scheduler.noteHeaders peer hashes)
  | .noteInventory peer hash => ([], scheduler.noteInventory peer hash)
  | .queuePriorityBlock peer hash => ([], (scheduler.queuePriorityBlock peer hash).2)
  | .reassignPriorityBlock peer hash => ([], (scheduler.reassignPriorityBlock peer hash).2)
  | .noteBlockReceived hash => ([], scheduler.noteBlockReceived hash)
  | .forgetBlocks hashes => ([], (scheduler.forgetBlocks hashes).2)
  | .forgetCompleted hash => ([], (scheduler.forgetCompleted hash).2)
  | .notePeerDeliveryProgress peer now => ([], scheduler.notePeerDeliveryProgress peer now)
  | .pruneCompletedWhere isCompleted => ([], (scheduler.pruneCompletedWhere isCompleted).2)
  | .sortPendingByKey _ _ key => ([], scheduler.sortPendingByKey key)
  | .backdateInflightForPeer peer age now later =>
      ([], scheduler.backdateInflightForPeer peer age now later)
  | .noteNotFound peer hashes => ([], scheduler.noteNotFound peer hashes)
  | .assignments blocks perPeer clock => scheduler.assignments blocks perPeer clock
  | .assignmentsLimited blocks perPeer perBatch clock =>
      scheduler.assignmentsLimited blocks perPeer perBatch clock
  | .assignmentForPeer peer blocks perPeer clock =>
      (scheduler.assignmentForPeer peer blocks perPeer clock).map Option.toList id
  | .assignmentForPeerLimited peer blocks perPeer perBatch clock =>
      (scheduler.assignmentForPeerLimited peer blocks perPeer perBatch clock).map
        Option.toList id
  | .assignmentForPeerMatchingLimited peer blocks perPeer perBatch allowed clock =>
      (scheduler.assignmentForPeerMatchingLimited peer blocks perPeer perBatch allowed clock).map
        Option.toList id
  | .requeueStaleInflight timeout now => ([], (scheduler.requeueStaleInflight timeout now).2)
  | .requeueStaleInflightDetails timeout now =>
      ([], (scheduler.requeueStaleInflightDetails timeout now).2)
  | .requeueStaleInflightForPeer peer timeout now =>
      ([], (scheduler.requeueStaleInflightForPeer peer timeout now).2)

def run (scheduler : BlockDownloadScheduler) (calls : List Call) : BlockDownloadScheduler :=
  calls.foldl (fun scheduler call => (scheduler.perform call).2) scheduler

end BlockDownloadScheduler

end Atho
