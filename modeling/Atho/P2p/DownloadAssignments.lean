import Atho.P2p.DownloadLedger

/-! What the assignment functions hand out, and the books of the scheduler over whole runs. -/

namespace Atho

namespace BlockDownloadScheduler

open WorkLedger

variable {scheduler : BlockDownloadScheduler} {peer : String} {hash : Hash48}
  {forgotten : Set Hash48}

/-! The number of blocks in flight. -/

theorem totalInflight_eq (hledger : scheduler.ledger.Coherent) :
    scheduler.totalInflight = scheduler.totalInflightLen := by
  have hload {peer : String} {inflight : List Hash48}
      (hmem : (peer, inflight) ∈ scheduler.inflightByPeer.toList) :
      scheduler.ledger.load peer = inflight := by
    rw [Std.TreeMap.mem_toList_iff_getElem?_eq_some] at hmem
    simp [ledger, hmem]
  have hnodup : (scheduler.inflightByPeer.toList.flatMap Prod.snd).Nodup := by
    refine List.nodup_flatMap.mpr ⟨fun entry hentry => ?_, ?_⟩
    · exact hload hentry ▸ hledger.load_nodup entry.1
    · refine List.Pairwise.imp_of_mem ?_ Std.TreeMap.distinct_keys_toList
      intro left right hleft hright hdistinct hash hmem hmem'
      rw [← hload hleft, ← hledger.owner_iff] at hmem
      rw [← hload hright, ← hledger.owner_iff] at hmem'
      exact hdistinct (Std.LawfulEqOrd.compare_eq_iff_eq.mpr
        (Option.some.inj (hmem.symm.trans hmem')))
  have hsame (hash : Hash48) : hash ∈ scheduler.inflightByPeer.toList.flatMap Prod.snd ↔
      hash ∈ scheduler.inflightOwner.keys := by
    rw [Std.TreeMap.mem_keys, Std.TreeMap.mem_iff_isSome_getElem?, List.mem_flatMap]
    constructor
    · rintro ⟨entry, hentry, hmem⟩
      rw [← hload hentry, ← hledger.owner_iff] at hmem
      exact Option.isSome_iff_exists.mpr ⟨_, hmem⟩
    · intro howned
      obtain ⟨peer, howner⟩ := Option.isSome_iff_exists.mp howned
      have hmem := (hledger.owner_iff hash peer).mp howner
      cases hinflight : scheduler.inflightByPeer[peer]? with
      | none => simp [ledger, hinflight] at hmem
      | some inflight =>
          have hentry := Std.TreeMap.mem_toList_iff_getElem?_eq_some.mpr hinflight
          exact ⟨(peer, inflight), hentry, hload hentry ▸ hmem⟩
  have hperm := (List.perm_ext_iff_of_nodup hnodup Std.TreeMap.nodup_keys).mpr hsame
  rw [totalInflightLen, ← Std.TreeMap.length_keys, ← hperm.length_eq, List.length_flatMap]
  rfl

/-! Handing out blocks. -/

/-- The limits of an assignment call. -/
structure Caps where
  blocks : Nat
  perPeer : Nat
  perBatch : Nat

def Caps.Positive (caps : Caps) : Prop :=
  1 ≤ caps.blocks ∧ 1 ≤ caps.perPeer ∧ 1 ≤ caps.perBatch

/-- What was handed out to each peer on the way from one scheduler to another. -/
structure HandsOut (caps : Caps) (before after : BlockDownloadScheduler)
    (batch : String → List InventoryVector) : Prop where
  ready : ∀ peer, batch peer ≠ [] → peer ∈ before.readyPeers
  perBatch : ∀ peer, (batch peer).length ≤ caps.perBatch
  perPeer : ∀ peer, batch peer ≠ [] → after.peerInflightLen peer ≤ caps.perPeer
  total : ∀ peer, batch peer ≠ [] → after.totalInflightLen ≤ caps.blocks
  block : ∀ peer, ∀ entry ∈ batch peer, entry.kind = .block ∧ entry.hash ∈ before.pending
  owner : ∀ hash peer, after.inflightOwner[hash]? = some peer ↔
    before.inflightOwner[hash]? = some peer ∨ ⟨.block, hash⟩ ∈ batch peer

theorem HandsOut.refl (caps : Caps) (scheduler : BlockDownloadScheduler) :
    HandsOut caps scheduler scheduler fun _ => [] :=
  ⟨fun _ hbatch => absurd rfl hbatch, fun _ => Nat.zero_le _, fun _ hbatch => absurd rfl hbatch,
    fun _ hbatch => absurd rfl hbatch, fun _ _ hentry => absurd hentry List.not_mem_nil,
    fun _ _ => by simp⟩

theorem HandsOut.withPending {caps : Caps} {before after : BlockDownloadScheduler}
    {batch : String → List InventoryVector} (hhands : HandsOut caps before after batch)
    (queue : List Hash48) : HandsOut caps before { after with pending := queue } batch :=
  ⟨hhands.ready, hhands.perBatch, hhands.perPeer, hhands.total, hhands.block, hhands.owner⟩

theorem totalInflightLen_assign (now : Instant)
    (howner : scheduler.inflightOwner[hash]? = none) :
    (scheduler.assign peer now hash).totalInflightLen = scheduler.totalInflightLen + 1 := by
  have hnew : scheduler.inflightOwner.contains hash = false := by
    rw [← Bool.not_eq_true, Std.TreeMap.contains_iff_mem, Std.TreeMap.mem_iff_isSome_getElem?,
      howner]
    exact nofun
  rw [totalInflightLen, assign, Std.TreeMap.size_insert, hnew]
  rfl

theorem peerInflightLen_eq : scheduler.peerInflightLen peer = (scheduler.ledger.load peer).length :=
  rfl

theorem peerInflightLen_assign_self (now : Instant) :
    (scheduler.assign peer now hash).peerInflightLen peer = scheduler.peerInflightLen peer + 1 := by
  rw [peerInflightLen_eq, ledger_assign, peerInflightLen_eq]
  simp [WorkLedger.start]

theorem peerInflightLen_assign_of_ne {other : String} (now : Instant) (hother : other ≠ peer) :
    (scheduler.assign peer now hash).peerInflightLen other = scheduler.peerInflightLen other := by
  rw [peerInflightLen_eq, ledger_assign, peerInflightLen_eq]
  simp [WorkLedger.start, Function.update_of_ne hother]

theorem HandsOut.assign {caps : Caps} {before : BlockDownloadScheduler}
    {batch : String → List InventoryVector} (hhands : HandsOut caps before scheduler batch)
    (now : Instant) (hready : peer ∈ before.readyPeers) (hpending : hash ∈ before.pending)
    (howner : scheduler.inflightOwner[hash]? = none)
    (hbatch : (batch peer).length < caps.perBatch)
    (hpeer : scheduler.peerInflightLen peer < caps.perPeer)
    (htotal : scheduler.totalInflightLen < caps.blocks) :
    HandsOut caps before (scheduler.assign peer now hash)
      (Function.update batch peer (batch peer ++ [⟨.block, hash⟩])) := by
  refine ⟨fun other hother => ?_, fun other => ?_, fun other hother => ?_, fun other _ => ?_,
    fun other entry hentry => ?_, fun kept other => ?_⟩
  · by_cases hsame : other = peer
    · exact hsame ▸ hready
    · rw [Function.update_of_ne hsame] at hother
      exact hhands.ready other hother
  · by_cases hsame : other = peer
    · subst hsame
      rw [Function.update_self, List.length_append]
      exact hbatch
    · rw [Function.update_of_ne hsame]
      exact hhands.perBatch other
  · by_cases hsame : other = peer
    · subst hsame
      rw [peerInflightLen_assign_self]
      exact hpeer
    · rw [Function.update_of_ne hsame] at hother
      rw [peerInflightLen_assign_of_ne now hsame]
      exact hhands.perPeer other hother
  · rw [totalInflightLen_assign now howner]
    exact htotal
  · by_cases hsame : other = peer
    · subst hsame
      rw [Function.update_self, List.mem_append, List.mem_singleton] at hentry
      rcases hentry with hentry | rfl
      · exact hhands.block other entry hentry
      · exact ⟨rfl, hpending⟩
    · rw [Function.update_of_ne hsame] at hentry
      exact hhands.block other entry hentry
  · have hlookup : (scheduler.assign peer now hash).inflightOwner[kept]? =
        if kept = hash then some peer else scheduler.inflightOwner[kept]? :=
      (congrFun Std.TreeMap.lookups_insert kept).trans (Function.update_apply _ _ _ _)
    have hbefore := hhands.owner kept other
    rw [hlookup]
    by_cases hkept : kept = hash
    · subst hkept
      rw [howner] at hbefore
      have hnone := hbefore.not.mp nofun
      rw [not_or] at hnone
      by_cases hsame : other = peer
      · subst hsame
        simp
      · simp [Function.update_of_ne hsame, hnone, Ne.symm hsame]
    · rw [if_neg hkept]
      refine hbefore.trans (or_congr_right ?_)
      by_cases hsame : other = peer
      · subst hsame
        simp [hkept]
      · rw [Function.update_of_ne hsame]

/-! Choosing a peer. -/

section

variable {peers : List String} {startIndex perPeer perBatch : Nat} {staged : Staged}
  {allowed : String → Bool}

/-- The peer may be asked for one more block. -/
def HasRoom (scheduler : BlockDownloadScheduler) (perPeer perBatch : Nat) (staged : Staged)
    (peer : String) : Prop :=
  (∀ inventory, staged[peer]? = some inventory → inventory.length < perBatch) ∧
    scheduler.peerInflightLen peer < perPeer

theorem exists_candidate_iff :
    (∃ candidate ∈ scheduler.candidates peers startIndex perPeer perBatch staged allowed,
        candidate.peer = peer) ↔
      peer ∈ peers ∧ allowed peer = true ∧ scheduler.HasRoom perPeer perBatch staged peer := by
  have hfull : (staged[peer]?.any fun inventory => inventory.length ≥ perBatch) = false ↔
      ∀ inventory, staged[peer]? = some inventory → inventory.length < perBatch := by
    cases staged[peer]? <;> simp
  rw [HasRoom, ← hfull]
  constructor
  · rintro ⟨candidate, hmem, rfl⟩
    obtain ⟨⟨other, index⟩, hother, hcandidate⟩ := List.mem_filterMap.mp hmem
    obtain ⟨hother, hallowed⟩ := List.mem_filter.mp hother
    dsimp only at hcandidate hallowed
    split at hcandidate
    · cases hcandidate
    · next hroom =>
        split at hcandidate
        · next hinflight =>
            cases hcandidate
            exact ⟨List.mem_of_getElem? (List.mem_zipIdx_iff_getElem?.mp hother), hallowed,
              Bool.not_eq_true _ ▸ hroom, hinflight⟩
        · cases hcandidate
  · rintro ⟨hpeer, hallowed, hroom, hinflight⟩
    obtain ⟨index, hindex⟩ := List.getElem?_of_mem hpeer
    refine ⟨⟨scheduler.peerPenalty peer, scheduler.peerInflightLen peer,
      (index + peers.length - startIndex % peers.length) % peers.length, peer⟩,
      List.mem_filterMap.mpr ⟨(peer, index), List.mem_filter.mpr
        ⟨List.mem_zipIdx_iff_getElem?.mpr hindex, hallowed⟩, ?_⟩, rfl⟩
    dsimp only
    rw [hroom, if_neg Bool.false_ne_true, if_pos hinflight]

theorem selectPeerFromCandidates_spec
    (hselect : scheduler.selectPeerFromCandidates peers startIndex perPeer perBatch staged
      allowed = some peer) :
    peer ∈ peers ∧ allowed peer = true ∧ scheduler.HasRoom perPeer perBatch staged peer := by
  obtain ⟨candidate, hbest, hpeer⟩ := Option.map_eq_some_iff.mp hselect
  exact exists_candidate_iff.mp ⟨candidate, BestOf.mem_of_bestOf hbest, hpeer⟩

theorem exists_selectPeerFromCandidates (hpeer : peer ∈ peers) (hallowed : allowed peer = true)
    (hroom : scheduler.HasRoom perPeer perBatch staged peer) :
    (scheduler.selectPeerFromCandidates peers startIndex perPeer perBatch staged
      allowed).isSome := by
  obtain ⟨candidate, hmem, -⟩ := exists_candidate_iff.mpr ⟨hpeer, hallowed, hroom⟩
  obtain ⟨best, hbest⟩ := BestOf.exists_bestOf Candidate.order (List.ne_nil_of_mem hmem)
  rw [selectPeerFromCandidates, hbest]
  rfl

theorem selectPeerForHashLimited_spec
    (hselect : scheduler.selectPeerForHashLimited peers startIndex hash perPeer perBatch
      staged = some peer) :
    peer ∈ peers ∧ scheduler.isHinted hash peer = true ∧
      scheduler.HasRoom perPeer perBatch staged peer := by
  unfold selectPeerForHashLimited at hselect
  split at hselect
  · cases hselect
  · rcases Option.or_eq_some_iff.mp hselect with hfirst | ⟨-, hsecond⟩
    · obtain ⟨hpeer, hallowed, hroom⟩ := selectPeerFromCandidates_spec hfirst
      exact ⟨hpeer, (Bool.and_eq_true_iff.mp hallowed).1, hroom⟩
    · exact selectPeerFromCandidates_spec hsecond

theorem exists_selectPeerForHashLimited (hpeer : peer ∈ peers)
    (hhinted : scheduler.isHinted hash peer = true)
    (hroom : scheduler.HasRoom perPeer perBatch staged peer) :
    (scheduler.selectPeerForHashLimited peers startIndex hash perPeer perBatch
      staged).isSome := by
  have hsecond := @exists_selectPeerFromCandidates scheduler peer peers startIndex perPeer
    perBatch staged (scheduler.isHinted hash) hpeer hhinted hroom
  rw [selectPeerForHashLimited, if_neg (by simpa using List.ne_nil_of_mem hpeer),
    Option.isSome_or, hsecond, Bool.or_true]

end

/-! The rounds. -/

/-- Where a round of `assignments_limited` stands: `queue` is what is left to hand out. -/
structure Staging (caps : Caps) (before : BlockDownloadScheduler) (queue : List Hash48)
    (totalInflight : Nat) (staged : Staged) (scheduler : BlockDownloadScheduler) : Prop where
  coherent : (scheduler.ledger.withPending queue).Coherent
  hands : caps.Positive →
    HandsOut caps before scheduler fun peer : String => staged[peer]?.getD []
  total : scheduler.totalInflightLen = totalInflight
  subset : ∀ hash ∈ queue, hash ∈ before.pending
  batches : ∀ peer : String, staged[peer]? ≠ some []

theorem Staging.assign {caps : Caps} {before : BlockDownloadScheduler} {queue : List Hash48}
    {totalInflight : Nat} {staged : Staged} (now : Instant)
    (hstaging : Staging caps before (hash :: queue) totalInflight staged scheduler)
    (hready : peer ∈ before.readyPeers)
    (hroom : scheduler.HasRoom caps.perPeer caps.perBatch staged peer)
    (htotal : totalInflight < caps.blocks) :
    Keeps forgotten (scheduler.ledger.withPending (hash :: queue))
        ((scheduler.assign peer now hash).ledger.withPending queue) ∧
      Staging caps before queue (totalInflight + 1)
        (staged.insert peer (staged[peer]?.getD [] ++ [⟨.block, hash⟩]))
        (scheduler.assign peer now hash) := by
  obtain ⟨howner, -⟩ := hstaging.coherent.pending_free hash List.mem_cons_self
  have hkeeps := Keeps.dispatch peer forgotten hstaging.coherent (.refl (hash :: queue))
  have hbooks : ((scheduler.ledger.withPending (hash :: queue)).withPending queue).start hash peer =
      (scheduler.assign peer now hash).ledger.withPending queue := by
    rw [ledger_assign]
    rfl
  rw [hbooks] at hkeeps
  refine ⟨hkeeps, hkeeps.coherent, fun hpositive => ?_, ?_, ?_, ?_⟩
  · have hbatch : (staged[peer]?.getD []).length < caps.perBatch := by
      cases hinventory : staged[peer]? with
      | none => exact hpositive.2.2
      | some inventory => exact hroom.1 inventory hinventory
    rw [Std.TreeMap.lookups_insert_default]
    exact (hstaging.hands hpositive).assign now hready
      (hstaging.subset hash List.mem_cons_self) howner hbatch hroom.2 (hstaging.total ▸ htotal)
  · rw [totalInflightLen_assign now howner, hstaging.total]
  · exact fun kept hkept => hstaging.subset kept (List.mem_cons_of_mem _ hkept)
  · intro other
    rw [congrFun Std.TreeMap.lookups_insert other, Function.update_apply]
    split
    · simp
    · exact hstaging.batches other

theorem Staging.withPending {caps : Caps} {before : BlockDownloadScheduler} {queue : List Hash48}
    {totalInflight : Nat} {staged : Staged}
    (hstaging : Staging caps before queue totalInflight staged scheduler) :
    Staging caps before queue totalInflight staged { scheduler with pending := queue } :=
  ⟨hstaging.coherent, fun hpositive => (hstaging.hands hpositive).withPending queue,
    hstaging.total, hstaging.subset, hstaging.batches⟩

theorem assignQueue_spec {caps : Caps} {before : BlockDownloadScheduler} {queue : List Hash48}
    {totalInflight cursor : Nat} {staged : Staged} {clock : Nat → Instant}
    (hstaging : Staging caps before queue totalInflight staged scheduler) :
    Keeps forgotten (scheduler.ledger.withPending queue)
        (assignQueue before.readyPeers.toList caps.blocks caps.perPeer caps.perBatch clock queue
          totalInflight cursor staged scheduler).2.ledger ∧
      ∃ rest total,
        Staging caps before rest total
          (assignQueue before.readyPeers.toList caps.blocks caps.perPeer caps.perBatch clock queue
            totalInflight cursor staged scheduler).1
          (assignQueue before.readyPeers.toList caps.blocks caps.perPeer caps.perBatch clock queue
            totalInflight cursor staged scheduler).2 := by
  induction queue generalizing totalInflight cursor staged scheduler with
  | nil => exact ⟨.refl hstaging.coherent, [], _, hstaging.withPending⟩
  | cons hash queue ih =>
      have hstop : Keeps forgotten (scheduler.ledger.withPending (hash :: queue))
          { scheduler with pending := hash :: queue }.ledger := .refl hstaging.coherent
      rw [assignQueue]
      split
      · next htotal =>
          split
          · exact ⟨hstop, _, _, hstaging.withPending⟩
          · next peer hselect =>
              obtain ⟨hpeer, -, hroom⟩ := selectPeerForHashLimited_spec hselect
              obtain ⟨hkeeps, hnext⟩ := hstaging.assign (clock totalInflight)
                (Std.TreeSet.mem_toList.mp hpeer) hroom htotal
              exact ⟨hkeeps.trans (ih hnext).1, (ih hnext).2⟩
      · exact ⟨hstop, _, _, hstaging.withPending⟩

/-- Where the scan for one peer stands: `skipped` was put aside, `queue` is left. -/
structure Filling (caps : Caps) (before : BlockDownloadScheduler) (peer : String)
    (queue skipped : List Hash48) (totalInflight : Nat) (inventory : List InventoryVector)
    (scheduler : BlockDownloadScheduler) : Prop where
  coherent : (scheduler.ledger.withPending (skipped ++ queue)).Coherent
  hands : HandsOut caps before scheduler (Function.update (fun _ => []) peer inventory)
  total : scheduler.totalInflightLen = totalInflight
  subset : ∀ hash ∈ skipped ++ queue, hash ∈ before.pending
  load : scheduler.peerInflightLen peer = before.peerInflightLen peer + inventory.length

section

variable {caps : Caps} {before : BlockDownloadScheduler} {queue skipped : List Hash48}
  {totalInflight : Nat} {inventory : List InventoryVector}

theorem Filling.assign (now : Instant)
    (hfilling : Filling caps before peer (hash :: queue) skipped totalInflight inventory scheduler)
    (hready : peer ∈ before.readyPeers) (htotal : totalInflight < caps.blocks)
    (hcapacity : inventory.length < min (caps.perPeer - before.peerInflightLen peer)
      caps.perBatch) :
    Keeps forgotten (scheduler.ledger.withPending (skipped ++ hash :: queue))
        ((scheduler.assign peer now hash).ledger.withPending (skipped ++ queue)) ∧
      Filling caps before peer queue skipped (totalInflight + 1)
        (inventory ++ [⟨.block, hash⟩]) (scheduler.assign peer now hash) := by
  have hmem : hash ∈ skipped ++ hash :: queue :=
    List.mem_append_right _ List.mem_cons_self
  obtain ⟨howner, -⟩ := hfilling.coherent.pending_free hash hmem
  have hkeeps := Keeps.dispatch peer forgotten hfilling.coherent List.perm_middle
  have hbooks : ((scheduler.ledger.withPending (skipped ++ hash :: queue)).withPending
      (skipped ++ queue)).start hash peer =
        (scheduler.assign peer now hash).ledger.withPending (skipped ++ queue) := by
    rw [ledger_assign]
    rfl
  rw [hbooks] at hkeeps
  have hload := hfilling.load
  rw [lt_min_iff] at hcapacity
  refine ⟨hkeeps, hkeeps.coherent, ?_, ?_, ?_, ?_⟩
  · have hhands := hfilling.hands.assign now hready (hfilling.subset hash hmem) howner
      (by rw [Function.update_self]; exact hcapacity.2) (by omega) (hfilling.total ▸ htotal)
    rwa [Function.update_self, Function.update_idem] at hhands
  · rw [totalInflightLen_assign now howner, hfilling.total]
  · intro kept hkept
    refine hfilling.subset kept ?_
    rw [List.mem_append, List.mem_cons]
    exact (List.mem_append.mp hkept).imp_right .inr
  · rw [peerInflightLen_assign_self, hload, List.length_append, List.length_singleton]
    omega

theorem Filling.withPending
    (hfilling : Filling caps before peer queue skipped totalInflight inventory scheduler) :
    Filling caps before peer queue skipped totalInflight inventory
      { scheduler with pending := skipped ++ queue } :=
  ⟨hfilling.coherent, hfilling.hands.withPending _, hfilling.total, hfilling.subset,
    hfilling.load⟩

theorem assignToPeer_spec {allowedHash : Hash48 → Bool} {clock : Nat → Instant}
    (hready : peer ∈ before.readyPeers)
    (hfilling : Filling caps before peer queue skipped totalInflight inventory scheduler) :
    Keeps forgotten (scheduler.ledger.withPending (skipped ++ queue))
        (assignToPeer peer caps.blocks
          (min (caps.perPeer - before.peerInflightLen peer) caps.perBatch) allowedHash clock queue
          totalInflight inventory skipped scheduler).2.ledger ∧
      HandsOut caps before
        (assignToPeer peer caps.blocks
          (min (caps.perPeer - before.peerInflightLen peer) caps.perBatch) allowedHash clock queue
          totalInflight inventory skipped scheduler).2
        (Function.update (fun _ => []) peer
          (assignToPeer peer caps.blocks
            (min (caps.perPeer - before.peerInflightLen peer) caps.perBatch) allowedHash clock
            queue totalInflight inventory skipped scheduler).1) := by
  induction queue generalizing totalInflight inventory skipped scheduler with
  | nil =>
      have hstop := hfilling.withPending
      rw [List.append_nil] at hstop ⊢
      exact ⟨.refl (by simpa using hfilling.coherent), hstop.hands⟩
  | cons hash queue ih =>
      rw [assignToPeer]
      split
      · exact ⟨.refl hfilling.coherent, hfilling.withPending.hands⟩
      · next hroom =>
          simp only [ge_iff_le, Bool.or_eq_true, decide_eq_true_eq, not_or, not_le] at hroom
          split
          · have hsame : skipped ++ hash :: queue = skipped ++ [hash] ++ queue := by simp
            rw [hsame]
            exact ih ⟨hsame ▸ hfilling.coherent, hfilling.hands, hfilling.total,
              hsame ▸ hfilling.subset, hfilling.load⟩
          · obtain ⟨hkeeps, hnext⟩ :=
              hfilling.assign (clock totalInflight) hready hroom.1 hroom.2
            exact ⟨hkeeps.trans (ih hnext).1, (ih hnext).2⟩

end

/-! What a call hands out. -/

/-- The assignments of a call go to ready peers, one for each, and stay within the limits;
they are all that is new in flight. -/
structure Respects (caps : Caps) (before : BlockDownloadScheduler)
    (outcome : List DownloadAssignment × BlockDownloadScheduler) : Prop where
  peers : (outcome.1.map DownloadAssignment.peer).Nodup
  ready : ∀ assignment ∈ outcome.1, assignment.peer ∈ before.readyPeers
  perBatch : ∀ assignment ∈ outcome.1, assignment.inventory.length ≤ caps.perBatch
  perPeer : ∀ assignment ∈ outcome.1, outcome.2.peerInflightLen assignment.peer ≤ caps.perPeer
  total : outcome.1 ≠ [] → outcome.2.totalInflightLen ≤ caps.blocks
  block : ∀ assignment ∈ outcome.1, ∀ entry ∈ assignment.inventory,
    entry.kind = .block ∧ entry.hash ∈ before.pending
  owner : ∀ hash peer, outcome.2.inflightOwner[hash]? = some peer ↔
    before.inflightOwner[hash]? = some peer ∨
      ∃ assignment ∈ outcome.1, assignment.peer = peer ∧ ⟨.block, hash⟩ ∈ assignment.inventory

theorem HandsOut.respects {caps : Caps} {before after : BlockDownloadScheduler}
    {batch : String → List InventoryVector} {result : List DownloadAssignment}
    (hhands : HandsOut caps before after batch)
    (hpeers : (result.map DownloadAssignment.peer).Nodup)
    (hbatch : ∀ assignment ∈ result, batch assignment.peer = assignment.inventory ∧
      assignment.inventory ≠ [])
    (hresult : ∀ peer, batch peer ≠ [] → ∃ assignment ∈ result, assignment.peer = peer) :
    Respects caps before (result, after) := by
  have hnonempty {assignment : DownloadAssignment} (hmem : assignment ∈ result) :
      batch assignment.peer ≠ [] := by
    rw [(hbatch assignment hmem).1]
    exact (hbatch assignment hmem).2
  refine ⟨hpeers, fun assignment hmem => hhands.ready _ (hnonempty hmem),
    fun assignment hmem => ?_, fun assignment hmem => hhands.perPeer _ (hnonempty hmem),
    fun hne => ?_, fun assignment hmem entry hentry => ?_, fun hash peer => ?_⟩
  · rw [← (hbatch assignment hmem).1]
    exact hhands.perBatch _
  · obtain ⟨assignment, hmem⟩ := List.exists_mem_of_ne_nil result hne
    exact hhands.total _ (hnonempty hmem)
  · rw [← (hbatch assignment hmem).1] at hentry
    exact hhands.block _ entry hentry
  · refine (hhands.owner hash peer).trans (or_congr_right ⟨fun hentry => ?_, ?_⟩)
    · obtain ⟨assignment, hmem, rfl⟩ := hresult peer (List.ne_nil_of_mem hentry)
      exact ⟨assignment, hmem, rfl, (hbatch assignment hmem).1 ▸ hentry⟩
    · rintro ⟨assignment, hmem, rfl, hentry⟩
      rwa [(hbatch assignment hmem).1]

theorem Respects.refl (caps : Caps) (scheduler : BlockDownloadScheduler) :
    Respects caps scheduler ([], scheduler) :=
  (HandsOut.refl caps scheduler).respects List.nodup_nil (fun _ hmem => absurd hmem List.not_mem_nil)
    fun _ hbatch => absurd rfl hbatch

theorem assignmentsLimited_spec (caps : Caps) (clock : Nat → Instant)
    (hledger : scheduler.ledger.Coherent) :
    Keeps forgotten scheduler.ledger
        (scheduler.assignmentsLimited caps.blocks caps.perPeer caps.perBatch clock).2.ledger ∧
      (caps.Positive → Respects caps scheduler
        (scheduler.assignmentsLimited caps.blocks caps.perPeer caps.perBatch clock)) := by
  unfold assignmentsLimited
  split
  · exact ⟨.refl hledger, fun _ => .refl caps scheduler⟩
  · split
    · exact ⟨.refl hledger, fun _ => .refl caps scheduler⟩
    · have hstaging : Staging caps scheduler scheduler.pending scheduler.totalInflight ∅
          scheduler := by
        refine ⟨hledger, fun _ => ?_, (totalInflight_eq hledger).symm, fun _ hmem => hmem, ?_⟩
        · simpa using HandsOut.refl caps scheduler
        · simp
      obtain ⟨hkeeps, rest, total, hend⟩ :=
        @assignQueue_spec scheduler forgotten caps scheduler scheduler.pending
          scheduler.totalInflight 0 ∅ clock hstaging
      refine ⟨hkeeps, fun hpositive => (hend.hands hpositive).respects ?_ ?_ ?_⟩
      · rw [List.map_map]
        exact Std.TreeMap.map_fst_toList_eq_keys ▸ Std.TreeMap.nodup_keys
      · intro assignment hmem
        obtain ⟨⟨peer, inventory⟩, hentry, rfl⟩ := List.mem_map.mp hmem
        rw [Std.TreeMap.mem_toList_iff_getElem?_eq_some] at hentry
        exact ⟨by rw [hentry]; rfl, fun hnil => hend.batches peer (hnil ▸ hentry)⟩
      · intro peer hbatch
        cases hentry : (assignQueue scheduler.readyPeers.toList caps.blocks caps.perPeer
            caps.perBatch clock scheduler.pending scheduler.totalInflight 0 ∅ scheduler).1[peer]? with
        | none => exact absurd (by rw [hentry]; rfl) hbatch
        | some inventory =>
            exact ⟨⟨peer, inventory⟩, List.mem_map.mpr
              ⟨(peer, inventory), Std.TreeMap.mem_toList_iff_getElem?_eq_some.mpr hentry, rfl⟩, rfl⟩

theorem assignmentForPeerFilteredLimited_spec (caps : Caps) (allowedHash : Hash48 → Bool)
    (clock : Nat → Instant) (hledger : scheduler.ledger.Coherent) :
    Keeps forgotten scheduler.ledger
        (scheduler.assignmentForPeerFilteredLimited peer caps.blocks caps.perPeer caps.perBatch
          allowedHash clock).2.ledger ∧
      Respects caps scheduler
        ((scheduler.assignmentForPeerFilteredLimited peer caps.blocks caps.perPeer caps.perBatch
          allowedHash clock).map Option.toList id) := by
  unfold assignmentForPeerFilteredLimited
  split
  · exact ⟨.refl hledger, .refl caps scheduler⟩
  · next hready =>
      simp only [Bool.or_eq_true, not_or, Bool.not_eq_true', Bool.not_eq_false,
        Std.TreeSet.contains_iff_mem] at hready
      split
      · exact ⟨.refl hledger, .refl caps scheduler⟩
      · dsimp only
        split
        · exact ⟨.refl hledger, .refl caps scheduler⟩
        · have hfilling : Filling caps scheduler peer scheduler.pending []
              scheduler.totalInflight [] scheduler := by
            refine ⟨hledger, ?_, (totalInflight_eq hledger).symm, fun _ hmem => hmem, rfl⟩
            rw [Function.update_eq_self_iff.mpr rfl]
            exact .refl caps scheduler
          obtain ⟨hkeeps, hhands⟩ := @assignToPeer_spec scheduler peer forgotten caps scheduler
            scheduler.pending [] scheduler.totalInflight [] allowedHash clock hready.1.1.1.1
            hfilling
          refine ⟨hkeeps, hhands.respects ?_ ?_ ?_⟩
          · split <;> simp
          · intro assignment hmem
            split at hmem
            · exact absurd hmem List.not_mem_nil
            · next hnonempty =>
                obtain rfl := List.mem_singleton.mp hmem
                exact ⟨Function.update_self _ _ _, fun hnil =>
                  hnonempty (List.isEmpty_iff.mpr hnil)⟩
          · intro other hother
            have hsame : other = peer := by
              by_contra hne
              exact hother (Function.update_of_ne hne _ _)
            subst hsame
            rw [Function.update_self] at hother
            rw [if_neg (by simpa using hother)]
            exact ⟨_, List.mem_singleton_self _, rfl⟩

/-! Whole runs. -/

/-- The limits an assignment call is given. -/
def Call.caps : Call → Option Caps
  | .assignments blocks perPeer _ => some ⟨blocks, perPeer, perPeer⟩
  | .assignmentsLimited blocks perPeer perBatch _ => some ⟨blocks, perPeer, perBatch⟩
  | .assignmentForPeer _ blocks perPeer _ => some ⟨blocks, perPeer, perPeer⟩
  | .assignmentForPeerLimited _ blocks perPeer perBatch _ => some ⟨blocks, perPeer, perBatch⟩
  | .assignmentForPeerMatchingLimited _ blocks perPeer perBatch _ _ =>
      some ⟨blocks, perPeer, perBatch⟩
  | _ => none

/-- The blocks a call forgets on purpose. -/
def Call.forgets : Call → Set Hash48
  | .forgetBlocks hashes => { hash | hash ∈ hashes }
  | .forgetCompleted hash => {hash}
  | _ => ∅

theorem respects_perform {call : Call} {caps : Caps} (hledger : scheduler.ledger.Coherent)
    (hcaps : call.caps = some caps) (hpositive : caps.Positive) :
    Respects caps scheduler (scheduler.perform call) := by
  cases call <;> cases hcaps
  case assignments blocks perPeer clock =>
    exact (@assignmentsLimited_spec scheduler ∅ _ clock hledger).2 hpositive
  case assignmentsLimited blocks perPeer perBatch clock =>
    exact (@assignmentsLimited_spec scheduler ∅ _ clock hledger).2 hpositive
  case assignmentForPeer peer blocks perPeer clock =>
    exact (@assignmentForPeerFilteredLimited_spec scheduler peer ∅ _ _ clock hledger).2
  case assignmentForPeerLimited peer blocks perPeer perBatch clock =>
    exact (@assignmentForPeerFilteredLimited_spec scheduler peer ∅ _ _ clock hledger).2
  case assignmentForPeerMatchingLimited peer blocks perPeer perBatch allowed clock =>
    exact (@assignmentForPeerFilteredLimited_spec scheduler peer ∅ _ _ clock hledger).2

theorem keeps_perform (call : Call) (hledger : scheduler.ledger.Coherent) :
    Keeps call.forgets scheduler.ledger (scheduler.perform call).2.ledger := by
  cases call with
  | notePeerReady peer => exact keeps_notePeerReady hledger
  | notePeerDisconnected peer => exact keeps_notePeerDisconnected hledger
  | noteHeaders peer hashes => exact keeps_noteHeaders hledger
  | noteInventory peer hash => exact .refl hledger
  | queuePriorityBlock peer hash => exact keeps_queuePriorityBlock hledger
  | reassignPriorityBlock peer hash => exact keeps_reassignPriorityBlock hledger
  | noteBlockReceived hash => exact keeps_noteHashCompleted hledger
  | forgetBlocks hashes => exact keeps_forgetBlocks hledger
  | forgetCompleted hash => exact keeps_forgetCompleted hledger
  | notePeerDeliveryProgress peer now => exact keeps_restartInflight hledger
  | pruneCompletedWhere isCompleted => exact keeps_pruneCompletedWhere hledger
  | sortPendingByKey Key order key => exact keeps_sortPendingByKey hledger
  | backdateInflightForPeer peer age now later => exact keeps_restartInflight hledger
  | noteNotFound peer hashes => exact keeps_noteNotFound hledger
  | assignments blocks perPeer clock =>
      exact (assignmentsLimited_spec ⟨blocks, perPeer, perPeer⟩ clock hledger).1
  | assignmentsLimited blocks perPeer perBatch clock =>
      exact (assignmentsLimited_spec ⟨blocks, perPeer, perBatch⟩ clock hledger).1
  | assignmentForPeer peer blocks perPeer clock =>
      exact (assignmentForPeerFilteredLimited_spec ⟨blocks, perPeer, perPeer⟩ _ clock hledger).1
  | assignmentForPeerLimited peer blocks perPeer perBatch clock =>
      exact (assignmentForPeerFilteredLimited_spec ⟨blocks, perPeer, perBatch⟩ _ clock hledger).1
  | assignmentForPeerMatchingLimited peer blocks perPeer perBatch allowed clock =>
      exact (assignmentForPeerFilteredLimited_spec ⟨blocks, perPeer, perBatch⟩ _ clock hledger).1
  | requeueStaleInflight timeout now => exact keeps_requeueStaleInflightDetails hledger
  | requeueStaleInflightDetails timeout now => exact keeps_requeueStaleInflightDetails hledger
  | requeueStaleInflightForPeer peer timeout now => exact keeps_requeueStaleInflightForPeer hledger

theorem keeps_run {calls : List Call} (hledger : scheduler.ledger.Coherent) :
    Keeps { hash | ∃ call ∈ calls, hash ∈ call.forgets } scheduler.ledger
      (scheduler.run calls).ledger :=
  @Keeps.foldl _ _ _ _ ledger (fun scheduler call => (scheduler.perform call).2)
    { hash | ∃ call ∈ calls, hash ∈ call.forgets } calls
    (fun _ call hmem hstate => (keeps_perform call hstate).mono
      fun _ hforgets => ⟨call, hmem, hforgets⟩) _ hledger

theorem coherent_default : ({} : BlockDownloadScheduler).ledger.Coherent := by
  refine ⟨List.nodup_nil, ?_, ?_, ?_, ?_, ?_⟩ <;> simp [ledger]

/-- The scheduler after a run from the default state. -/
def reached (calls : List Call) : BlockDownloadScheduler :=
  ({} : BlockDownloadScheduler).run calls

theorem coherent_reached (calls : List Call) : (reached calls).ledger.Coherent :=
  (keeps_run coherent_default).coherent

/-- The block is pending, in flight or completed, and only one of them. -/
def InOneClass (scheduler : BlockDownloadScheduler) (hash : Hash48) : Prop :=
  (hash ∈ scheduler.pending ∧ hash ∉ scheduler.inflightOwner ∧ hash ∉ scheduler.completed) ∨
  (hash ∉ scheduler.pending ∧ hash ∈ scheduler.inflightOwner ∧ hash ∉ scheduler.completed) ∨
  (hash ∉ scheduler.pending ∧ hash ∉ scheduler.inflightOwner ∧ hash ∈ scheduler.completed)

theorem mem_inflightOwner_iff :
    hash ∈ scheduler.inflightOwner ↔ scheduler.ledger.owner hash ≠ none := by
  rw [Std.TreeMap.mem_iff_isSome_getElem?, Option.isSome_iff_ne_none]
  rfl

theorem inOneClass_of_tracked (hledger : scheduler.ledger.Coherent)
    (htracked : scheduler.ledger.Tracked hash) : scheduler.InOneClass hash := by
  have hpending (hmem : hash ∈ scheduler.pending) :
      hash ∉ scheduler.inflightOwner ∧ hash ∉ scheduler.completed := by
    rw [mem_inflightOwner_iff, not_not]
    exact hledger.pending_free hash hmem
  have hcompleted (hmem : hash ∈ scheduler.completed) : hash ∉ scheduler.inflightOwner := by
    rw [mem_inflightOwner_iff, not_not]
    exact hledger.done_free hash hmem
  rcases htracked with hmem | hmem | hmem
  · exact .inl ⟨hmem, hpending hmem⟩
  · rw [← mem_inflightOwner_iff] at hmem
    exact .inr (.inl ⟨fun hqueue => (hpending hqueue).1 hmem, hmem,
      fun hdone => hcompleted hdone hmem⟩)
  · exact .inr (.inr ⟨fun hqueue => (hpending hqueue).2 hmem, hcompleted hmem, hmem⟩)

def exampleHash : Hash48 := Bytes.ofNat 48 7

/-- Two peers are ready, one of them announces a block. -/
def announced : List Call :=
  [.notePeerReady "left", .notePeerReady "right", .noteHeaders "left" [exampleHash]]

/-- The block may be asked from a ready peer. -/
def Reachable (scheduler : BlockDownloadScheduler) (hash : Hash48) : Prop :=
  ∀ hints, scheduler.peerHints[hash]? = some hints →
    hints.isEmpty ∨ ∃ peer ∈ scheduler.readyPeers, peer ∈ hints

theorem isHinted_iff :
    scheduler.isHinted hash peer = true ↔
      ∀ hints, scheduler.peerHints[hash]? = some hints → hints.isEmpty ∨ peer ∈ hints := by
  unfold isHinted hints
  cases hhints : scheduler.peerHints[hash]? with
  | none => simp
  | some hints =>
      cases hempty : hints.isEmpty <;> simp [Option.filter_some, hempty]

theorem reachable_iff_isHinted (hready : ∃ peer, peer ∈ scheduler.readyPeers) :
    scheduler.Reachable hash ↔ ∃ peer ∈ scheduler.readyPeers, scheduler.isHinted hash peer := by
  simp only [isHinted_iff, Reachable]
  cases scheduler.peerHints[hash]? with
  | none => simpa using hready
  | some hints =>
      obtain ⟨ready, hready⟩ := hready
      simp only [Option.some.injEq, forall_eq']
      constructor
      · rintro (hempty | ⟨peer, hpeer, hmem⟩)
        · exact ⟨ready, hready, .inl hempty⟩
        · exact ⟨peer, hpeer, .inr hmem⟩
      · rintro ⟨peer, hpeer, hempty | hmem⟩
        · exact .inl hempty
        · exact .inr ⟨peer, hpeer, hmem⟩

theorem mem_assignQueue {peers : List String} {blocks perPeer perBatch : Nat}
    {clock : Nat → Instant} {queue : List Hash48} {totalInflight cursor : Nat} {staged : Staged}
    (hmem : peer ∈ staged) :
    peer ∈ (assignQueue peers blocks perPeer perBatch clock queue totalInflight cursor staged
      scheduler).1 := by
  induction queue generalizing totalInflight cursor staged scheduler with
  | nil => exact hmem
  | cons hash queue ih =>
      rw [assignQueue]
      split
      · split
        · exact hmem
        · exact ih (Std.TreeMap.mem_insert.mpr (.inr hmem))
      · exact hmem

/-- The queue moves exactly when its first block may be asked from a ready peer: a block that
only peers which went away were told to have stops all the others. -/
theorem assignments_nonempty_iff (calls : List Call) (blocks perPeer : Nat)
    (clock : Nat → Instant) (hash : Hash48) (rest : List Hash48)
    (hpending : (reached calls).pending = hash :: rest)
    (hready : ∃ peer, peer ∈ (reached calls).readyPeers)
    (hroom : ∀ peer ∈ (reached calls).readyPeers, (reached calls).peerInflightLen peer < perPeer)
    (htotal : (reached calls).totalInflightLen < blocks) :
    ((reached calls).assignments blocks perPeer clock).1 ≠ [] ↔
      (reached calls).Reachable hash := by
  generalize hscheduler : reached calls = scheduler at *
  have hledger : scheduler.ledger.Coherent := hscheduler ▸ coherent_reached calls
  obtain ⟨ready, hready⟩ := hready
  have hidle : ¬(scheduler.readyPeers.isEmpty || scheduler.pending.isEmpty || blocks = 0) := by
    have hpeers : scheduler.readyPeers.isEmpty = false :=
      Std.TreeSet.isEmpty_eq_false_iff_exists_mem.mpr ⟨ready, hready⟩
    have hblocks : blocks ≠ 0 := by omega
    simp [hpeers, hpending, hblocks]
  rw [← totalInflight_eq hledger] at htotal
  rw [reachable_iff_isHinted ⟨ready, hready⟩, assignments, assignmentsLimited, if_neg hidle,
    if_neg (not_le.mpr htotal), hpending, assignQueue, if_pos htotal]
  constructor
  · intro hresult
    cases hselect : scheduler.selectPeerForHashLimited scheduler.readyPeers.toList 0 hash perPeer
        perPeer ∅ with
    | none =>
        rw [hselect] at hresult
        exact absurd rfl hresult
    | some peer =>
        obtain ⟨hpeer, hhinted, -⟩ := selectPeerForHashLimited_spec hselect
        exact ⟨peer, Std.TreeSet.mem_toList.mp hpeer, hhinted⟩
  · rintro ⟨peer, hpeer, hhinted⟩
    have hselect := @exists_selectPeerForHashLimited scheduler peer hash
      scheduler.readyPeers.toList 0 perPeer perPeer ∅ (Std.TreeSet.mem_toList.mpr hpeer) hhinted
      ⟨by simp, hroom peer hpeer⟩
    obtain ⟨chosen, hselect⟩ := Option.isSome_iff_exists.mp hselect
    rw [hselect]
    dsimp only
    rw [ne_eq, List.map_eq_nil_iff]
    have hmem := @mem_assignQueue (scheduler.assign chosen (clock scheduler.totalInflight) hash)
      chosen scheduler.readyPeers.toList blocks perPeer perPeer clock rest
      (scheduler.totalInflight + 1) ((scheduler.readyPeers.toList.idxOf? chosen).getD 0 + 1)
      ((∅ : Staged).insert chosen ((∅ : Staged)[chosen]?.getD [] ++ [⟨.block, hash⟩]))
      Std.TreeMap.mem_insert_self
    rw [← Std.TreeMap.mem_keys, ← Std.TreeMap.map_fst_toList_eq_keys] at hmem
    exact fun hnil => absurd (hnil ▸ hmem) List.not_mem_nil

theorem announced_block_requested :
    (reached announced).Reachable exampleHash ∧
      ((reached announced).assignments 1 1 fun _ => 0).1 ≠ [] := by
  have hleft : "left" ∈ (reached announced).readyPeers := by decide +kernel
  have hrooms : ∀ peer ∈ (reached announced).readyPeers.toList,
      (reached announced).peerInflightLen peer < 1 := by decide +kernel
  have hreachable : (reached announced).Reachable exampleHash :=
    (reachable_iff_isHinted ⟨"left", hleft⟩).mpr ⟨"left", hleft, by decide +kernel⟩
  exact ⟨hreachable, (assignments_nonempty_iff announced 1 1 (fun _ => 0) exampleHash []
    (by decide +kernel) ⟨"left", hleft⟩
    (fun peer hpeer => hrooms peer (Std.TreeSet.mem_toList.mpr hpeer))
    (by decide +kernel)).mpr hreachable⟩

/-- The peer that announced the only pending block goes away before it was asked: nothing is
in flight, the other peer is ready, and nothing is asked from it. -/
theorem disconnected_hint_strands_queue :
    (reached (announced ++ [.notePeerDisconnected "left"])).pending = [exampleHash] ∧
      (reached (announced ++ [.notePeerDisconnected "left"])).readyPeers.toList = ["right"] ∧
      (reached (announced ++ [.notePeerDisconnected "left"])).peerInflightLen "right" = 0 ∧
      (reached (announced ++ [.notePeerDisconnected "left"])).totalInflightLen = 0 ∧
      ((reached (announced ++ [.notePeerDisconnected "left"])).assignments 1 1 fun _ => 0).1 =
        [] := by
  decide +kernel

/-! Blocks that a peer says it does not have. -/

/-- The hash is in flight from somebody else. -/
def InflightElsewhere (scheduler : BlockDownloadScheduler) (peer : String) (hash : Hash48) : Prop :=
  scheduler.inflightOwner[hash]?.any (· ≠ peer) = true

/-- What `noteNotFound` does with one hash of the list. -/
def noteMissing (peer : String) (state : Bool × BlockDownloadScheduler) (hash : Hash48) :
    Bool × BlockDownloadScheduler :=
  if state.2.inflightOwner[hash]?.any (· ≠ peer) then state
  else (true, (state.2.failBlock peer hash).requeueFront hash)

theorem noteNotFound_pending (hashes : List Hash48) :
    (scheduler.noteNotFound peer hashes).pending =
      (hashes.foldl (noteMissing peer) (false, scheduler)).2.pending := by
  unfold noteNotFound
  dsimp only
  split <;> rfl

theorem failBlock_pending : (scheduler.failBlock peer hash).pending = scheduler.pending := by
  unfold failBlock removeHint removeEmptyHints
  split <;> rfl

theorem failBlock_completed : (scheduler.failBlock peer hash).completed = scheduler.completed := by
  unfold failBlock removeHint removeEmptyHints
  split <;> rfl

theorem failBlock_inflightOwner :
    (scheduler.failBlock peer hash).inflightOwner = scheduler.inflightOwner.erase hash := by
  unfold failBlock removeHint removeEmptyHints
  split <;> rfl

theorem mem_pending_requeueFront {listed : Hash48} :
    hash ∈ (scheduler.requeueFront listed).pending ↔
      hash ∈ scheduler.pending ∨ hash = listed ∧ hash ∉ scheduler.completed := by
  unfold requeueFront
  split
  · next hmem =>
      simp only [Bool.or_eq_true, Std.TreeSet.contains_iff_mem, List.contains_iff_mem] at hmem
      constructor
      · exact .inl
      · rintro (hpending | ⟨rfl, hdone⟩)
        · exact hpending
        · exact hmem.resolve_left hdone
  · next hfree =>
      simp only [Bool.or_eq_true, Std.TreeSet.contains_iff_mem, List.contains_iff_mem,
        not_or] at hfree
      rw [pushFront, List.mem_cons]
      constructor
      · rintro (rfl | hpending)
        · exact .inr ⟨rfl, hfree.1⟩
        · exact .inl hpending
      · rintro (hpending | ⟨rfl, -⟩)
        · exact .inr hpending
        · exact .inl rfl

theorem requeueFront_completed :
    (scheduler.requeueFront hash).completed = scheduler.completed := by
  unfold requeueFront
  split <;> rfl

section NoteMissing

variable {state : Bool × BlockDownloadScheduler} {listed : Hash48}

theorem noteMissing_completed :
    (noteMissing peer state listed).2.completed = state.2.completed := by
  unfold noteMissing
  split
  · rfl
  · exact requeueFront_completed.trans failBlock_completed

theorem inflightElsewhere_noteMissing :
    (noteMissing peer state listed).2.InflightElsewhere peer hash ↔
      state.2.InflightElsewhere peer hash := by
  unfold noteMissing
  split
  · exact .rfl
  · next hown =>
      have howner : ((state.2.failBlock peer listed).requeueFront listed).inflightOwner =
          state.2.inflightOwner.erase listed := by
        rw [← @failBlock_inflightOwner state.2 peer]
        unfold requeueFront
        split <;> rfl
      unfold InflightElsewhere
      rw [howner, Std.TreeMap.getElem?_erase]
      split
      · next heq =>
          rw [Std.LawfulEqOrd.compare_eq_iff_eq] at heq
          subst heq
          exact iff_of_false (by simp) hown
      · exact .rfl

theorem mem_pending_noteMissing :
    hash ∈ (noteMissing peer state listed).2.pending ↔
      hash ∈ state.2.pending ∨
        hash = listed ∧ hash ∉ state.2.completed ∧ ¬ state.2.InflightElsewhere peer hash := by
  unfold noteMissing
  split
  · next helsewhere =>
      constructor
      · exact .inl
      · rintro (hpending | ⟨rfl, -, hown⟩)
        · exact hpending
        · exact absurd helsewhere hown
  · next hown =>
      rw [mem_pending_requeueFront, failBlock_pending, failBlock_completed]
      refine or_congr_right (and_congr_right ?_)
      rintro rfl
      exact (and_iff_left hown).symm

theorem mem_pending_foldl_noteMissing (hashes : List Hash48) :
    hash ∈ (hashes.foldl (noteMissing peer) state).2.pending ↔
      hash ∈ state.2.pending ∨
        hash ∈ hashes ∧ hash ∉ state.2.completed ∧ ¬ state.2.InflightElsewhere peer hash := by
  induction hashes generalizing state with
  | nil => simp
  | cons listed hashes induction =>
      rw [List.foldl_cons, induction, mem_pending_noteMissing, noteMissing_completed,
        inflightElsewhere_noteMissing, List.mem_cons, or_assoc, ← or_and_right]

end NoteMissing

/-- Nothing is queued that was neither pending nor in flight from the peer exactly when the
peer lists no hash that the scheduler does not know. -/
theorem noteNotFound_injects_nothing_iff (scheduler : BlockDownloadScheduler) (peer : String)
    (hashes : List Hash48) :
    (∀ hash ∈ (scheduler.noteNotFound peer hashes).pending,
      hash ∈ scheduler.pending ∨ scheduler.inflightOwner[hash]? = some peer) ↔
      ∀ hash ∈ hashes, scheduler.isKnown hash = true := by
  rw [noteNotFound_pending]
  constructor
  · intro hkept hash hlisted
    by_contra hunknown
    obtain ⟨hdone, howner, hpending⟩ := isKnown_eq_false.mp (Bool.eq_false_of_not_eq_true hunknown)
    have hfree : scheduler.inflightOwner[hash]? = none := howner
    have hqueued := (@mem_pending_foldl_noteMissing peer hash (false, scheduler) hashes).mpr
      (.inr ⟨hlisted, hdone, by simp [InflightElsewhere, hfree]⟩)
    rcases hkept hash hqueued with hbefore | hinflight
    · exact hpending hbefore
    · exact absurd (howner.symm.trans hinflight) nofun
  · intro hknown hash hqueued
    rcases (mem_pending_foldl_noteMissing hashes).mp hqueued with hbefore | ⟨hlisted, hdone, hown⟩
    · exact .inl hbefore
    -- A known hash that is neither completed nor pending is in flight, and then from this peer.
    · by_contra hneither
      rw [not_or] at hneither
      refine Bool.eq_false_iff.mp (isKnown_eq_false.mpr ⟨hdone, ?_, hneither.1⟩)
        (hknown hash hlisted)
      cases howner : scheduler.inflightOwner[hash]? with
      | none => exact howner
      | some owner =>
          refine absurd ?_ hown
          have hother : owner ≠ peer := fun heq => hneither.2 (heq ▸ howner)
          simp [InflightElsewhere, howner, hother]

/-- A peer that was asked for nothing queues a hash that nobody announced. -/
theorem made_up_hash_queued :
    let made := Bytes.ofNat 48 9
    made ∈ ((reached announced).noteNotFound "right" [made]).pending ∧
      made ∉ (reached announced).pending ∧
      (reached announced).inflightOwner[made]? = none := by
  decide +kernel

end BlockDownloadScheduler

end Atho
