import Atho.Library.TreeLookup
import Atho.Library.WorkLedger
import Atho.P2p.Downloader

/-! The scheduler keeps its books: every block waits, is in flight or is completed. -/

namespace Atho

namespace BlockDownloadScheduler

open WorkLedger

variable {scheduler : BlockDownloadScheduler} {peer : String} {hash : Hash48}
  {forgotten : Set Hash48}

/-- What the fields say about the classes of the blocks. -/
def ledger (scheduler : BlockDownloadScheduler) : WorkLedger Hash48 String where
  pending := scheduler.pending
  load peer := scheduler.inflightByPeer[peer]?.getD []
  owner hash := scheduler.inflightOwner[hash]?
  started := { hash | hash ∈ scheduler.inflightStarted }
  done := { hash | hash ∈ scheduler.completed }

/-! Hints, failures and penalties are not part of the books. -/

@[simp] theorem ledger_penalizePeer (points : Nat) :
    (scheduler.penalizePeer peer points).ledger = scheduler.ledger := rfl

@[simp] theorem ledger_decayPeerPenalty (points : Nat) :
    (scheduler.decayPeerPenalty peer points).ledger = scheduler.ledger := by
  unfold decayPeerPenalty
  split <;> rfl

@[simp] theorem ledger_addHint : (scheduler.addHint peer hash).ledger = scheduler.ledger := rfl

@[simp] theorem ledger_addOptionalHint (peer : Option String) :
    (scheduler.addOptionalHint peer hash).ledger = scheduler.ledger := by
  cases peer <;> rfl

@[simp] theorem ledger_removeHint :
    (scheduler.removeHint peer hash).ledger = scheduler.ledger := by
  unfold removeHint removeEmptyHints
  split <;> rfl

@[simp] theorem ledger_addFailure :
    (scheduler.addFailure peer hash).ledger = scheduler.ledger := rfl

/-! What the other pieces do to the books. -/

theorem ledger_pushFront :
    (scheduler.pushFront hash).ledger = scheduler.ledger.withPending (hash :: scheduler.pending) :=
  rfl

theorem ledger_assign (now : Instant) :
    (scheduler.assign peer now hash).ledger = scheduler.ledger.start hash peer := by
  ext1
  · rfl
  · exact Std.TreeMap.lookups_insert_default
  · exact Std.TreeMap.lookups_insert
  · exact Std.TreeMap.keys_insert
  · rfl

theorem ledger_release (hfree : ∀ other ≠ peer, hash ∉ scheduler.ledger.load other) :
    (scheduler.release peer hash).ledger = scheduler.ledger.stop hash := by
  ext1
  · rfl
  · funext other
    simp only [ledger, release, WorkLedger.stop, Std.TreeMap.getElem?_modify,
      Std.LawfulEqOrd.compare_eq_iff_eq]
    by_cases hsame : peer = other
    · subst hsame
      cases scheduler.inflightByPeer[peer]? <;> simp
    · have hnot := hfree other (Ne.symm hsame)
      rw [if_neg hsame]
      refine (List.filter_eq_self.mpr fun kept hkept => ?_).symm
      exact decide_eq_true fun heq => hnot (heq ▸ hkept)
  · exact Std.TreeMap.lookups_erase
  · exact Std.TreeMap.keys_erase
  · rfl

theorem ledger_stop_of_free (hledger : scheduler.ledger.Coherent)
    (howner : scheduler.inflightOwner[hash]? = none) :
    scheduler.ledger.stop hash = scheduler.ledger := by
  have hload (other : String) : hash ∉ scheduler.ledger.load other := by
    rw [← hledger.owner_iff]
    exact fun hother => nomatch howner.symm.trans hother
  ext1
  · rfl
  · funext other
    exact List.filter_eq_self.mpr fun kept hkept =>
      decide_eq_true fun heq => hload other (heq ▸ hkept)
  · exact Function.update_eq_self_iff.mpr howner.symm
  · refine Set.sdiff_singleton_eq_self fun hstarted => ?_
    exact (hledger.started_iff hash).mp hstarted howner
  · rfl

theorem ledger_eraseStarted (hledger : scheduler.ledger.Coherent)
    (howner : scheduler.inflightOwner[hash]? = none) :
    { scheduler with inflightStarted := scheduler.inflightStarted.erase hash }.ledger =
      scheduler.ledger := by
  ext1
  all_goals try rfl
  refine Std.TreeMap.keys_erase.trans (Set.sdiff_singleton_eq_self fun hstarted => ?_)
  exact (hledger.started_iff hash).mp hstarted howner

theorem free_of_owner (hledger : scheduler.ledger.Coherent)
    (howner : scheduler.inflightOwner[hash]? = none ∨
      scheduler.inflightOwner[hash]? = some peer) :
    ∀ other ≠ peer, hash ∉ scheduler.ledger.load other := by
  intro other hother hmem
  have hfound : scheduler.inflightOwner[hash]? = some other := (hledger.owner_iff _ _).mpr hmem
  rcases howner with howner | howner
  · exact nomatch howner.symm.trans hfound
  · exact hother (Option.some.inj (hfound.symm.trans howner))

/-! Queueing. -/

theorem isKnown_eq_false :
    scheduler.isKnown hash = false ↔
      hash ∉ scheduler.ledger.done ∧ scheduler.ledger.owner hash = none ∧
        hash ∉ scheduler.ledger.pending := by
  rw [← Bool.not_eq_true]
  simp only [isKnown, ledger, Bool.or_eq_true, not_or, Std.TreeSet.contains_iff_mem,
    Std.TreeMap.contains_iff_mem, List.contains_iff_mem, Std.TreeMap.mem_iff_isSome_getElem?,
    Bool.not_eq_true, Option.isSome_eq_false_iff, Option.isNone_iff_eq_none, Set.mem_ofPred_eq,
    and_assoc]

theorem keeps_pushFront (hledger : scheduler.ledger.Coherent)
    (hknown : scheduler.isKnown hash = false) :
    Keeps forgotten scheduler.ledger (scheduler.pushFront hash).ledger := by
  obtain ⟨hdone, howner, hpending⟩ := isKnown_eq_false.mp hknown
  exact .enqueue forgotten hledger howner hdone hpending (.refl _)

theorem keeps_pushBack (hledger : scheduler.ledger.Coherent)
    (hknown : scheduler.isKnown hash = false) :
    Keeps forgotten scheduler.ledger (scheduler.pushBack hash).ledger := by
  obtain ⟨hdone, howner, hpending⟩ := isKnown_eq_false.mp hknown
  exact .enqueue forgotten hledger howner hdone hpending (List.perm_append_singleton hash _)

theorem requeueFront_owner : (scheduler.requeueFront hash).ledger.owner = scheduler.ledger.owner := by
  unfold requeueFront
  split <;> rfl

theorem keeps_requeueFront (hledger : scheduler.ledger.Coherent)
    (howner : scheduler.inflightOwner[hash]? = none) :
    Keeps forgotten scheduler.ledger (scheduler.requeueFront hash).ledger := by
  unfold requeueFront
  split
  · exact .refl hledger
  · next hfree =>
      simp only [Bool.or_eq_true, Std.TreeSet.contains_iff_mem, List.contains_iff_mem,
        not_or] at hfree
      exact keeps_pushFront hledger (isKnown_eq_false.mpr ⟨hfree.1, howner, hfree.2⟩)

theorem ledger_failBlock (hledger : scheduler.ledger.Coherent)
    (howner : scheduler.inflightOwner[hash]? = none ∨
      scheduler.inflightOwner[hash]? = some peer) :
    (scheduler.failBlock peer hash).ledger = scheduler.ledger.stop hash := by
  rw [failBlock, ledger_addFailure, ledger_removeHint,
    ledger_release (free_of_owner hledger howner)]

theorem keeps_failBlock (hledger : scheduler.ledger.Coherent)
    (howner : scheduler.inflightOwner[hash]? = none ∨
      scheduler.inflightOwner[hash]? = some peer)
    {failed : BlockDownloadScheduler}
    (hfailed : failed.ledger = (scheduler.failBlock peer hash).ledger) :
    Keeps forgotten scheduler.ledger (failed.requeueFront hash).ledger := by
  have hstop : failed.ledger = scheduler.ledger.stop hash :=
    hfailed.trans (ledger_failBlock hledger howner)
  have hpending : failed.pending = scheduler.pending := congrArg WorkLedger.pending hstop
  have hdone : hash ∈ failed.completed ↔ hash ∈ scheduler.completed :=
    Set.ext_iff.mp (congrArg WorkLedger.done hstop) hash
  unfold requeueFront
  split
  · next hmem =>
      rw [hstop]
      refine .drop forgotten hledger ?_
      simp only [Bool.or_eq_true, Std.TreeSet.contains_iff_mem, List.contains_iff_mem] at hmem
      rw [hdone, hpending] at hmem
      exact hmem.symm
  · next hfree =>
      simp only [Bool.or_eq_true, Std.TreeSet.contains_iff_mem, List.contains_iff_mem,
        not_or] at hfree
      rw [hdone, hpending] at hfree
      rw [ledger_pushFront, hstop]
      exact .requeue forgotten hledger hfree.1 hfree.2 (hpending ▸ .refl _)

/-! One lemma for each function. -/

theorem keeps_notePeerReady (hledger : scheduler.ledger.Coherent) :
    Keeps forgotten scheduler.ledger (scheduler.notePeerReady peer).ledger := by
  suffices hsame : (scheduler.notePeerReady peer).ledger = scheduler.ledger by
    rw [hsame]
    exact .refl hledger
  ext1
  all_goals try rfl
  funext other
  simp only [ledger, notePeerReady, Std.TreeMap.getElem?_insertIfNew,
    Std.LawfulEqOrd.compare_eq_iff_eq]
  split
  · next hnew =>
      obtain ⟨rfl, hnew⟩ := hnew
      rw [Std.TreeMap.getElem?_eq_none hnew]
      rfl
  · rfl

theorem returnBlock_load :
    (returnBlock peer scheduler hash).ledger.load = scheduler.ledger.load := by
  rw [returnBlock, ledger_addFailure, ledger_removeHint]
  split <;> rfl

/-- While the blocks of a peer that went away are returned, those that are left still
count as its load. -/
theorem keeps_returnBlocks {inflight : List Hash48} (hempty : scheduler.ledger.load peer = [])
    (hledger : (scheduler.ledger.withLoad peer inflight).Coherent) :
    Keeps forgotten (scheduler.ledger.withLoad peer inflight)
      (inflight.foldl (returnBlock peer) scheduler).ledger := by
  induction inflight generalizing scheduler with
  | nil =>
      rw [withLoad_eq_self hempty] at hledger ⊢
      exact .refl hledger
  | cons hash inflight ih =>
      have howner : scheduler.ledger.owner hash = some peer :=
        (hledger.owner_iff hash peer).mpr (by simp)
      have hpending : hash ∉ scheduler.pending := fun hmem =>
        nomatch howner.symm.trans (hledger.pending_free hash hmem).1
      have hdone : hash ∉ scheduler.completed := fun hmem =>
        nomatch howner.symm.trans (hledger.done_free hash hmem)
      have hreturn : (returnBlock peer scheduler hash).ledger.withLoad peer inflight =
          ((scheduler.ledger.withLoad peer (hash :: inflight)).stop hash).withPending
            (scheduler.pending ++ [hash]) := by
        have hqueue : ¬(scheduler.pending.contains hash || scheduler.completed.contains hash) := by
          rw [Bool.or_eq_true, List.contains_iff_mem, Std.TreeSet.contains_iff_mem, not_or]
          exact ⟨hpending, hdone⟩
        rw [returnBlock, ledger_addFailure, ledger_removeHint, if_neg hqueue]
        ext1
        · rfl
        · exact (stop_withLoad_cons hledger).symm
        · exact Std.TreeMap.lookups_erase
        · exact Std.TreeMap.keys_erase
        · rfl
      have hstep : Keeps forgotten (scheduler.ledger.withLoad peer (hash :: inflight))
          ((returnBlock peer scheduler hash).ledger.withLoad peer inflight) := by
        rw [hreturn]
        exact .requeue forgotten hledger hdone hpending (List.perm_append_singleton hash _)
      exact hstep.trans (ih (by rw [returnBlock_load, hempty]) hstep.coherent)

theorem keeps_notePeerDisconnected (hledger : scheduler.ledger.Coherent) :
    Keeps forgotten scheduler.ledger (scheduler.notePeerDisconnected peer).ledger := by
  unfold notePeerDisconnected
  dsimp only
  split
  · exact .refl hledger
  · next inflight hinflight =>
      have hload : scheduler.ledger.load peer = inflight := by
        simp [ledger, hinflight]
      let removed : BlockDownloadScheduler :=
        { scheduler with
          readyPeers := scheduler.readyPeers.erase peer
          inflightByPeer := scheduler.inflightByPeer.erase peer }
      have hempty : removed.ledger.load peer = [] := by
        simp [removed, ledger]
      have hsame : removed.ledger.withLoad peer inflight = scheduler.ledger := by
        ext1
        all_goals try rfl
        funext other
        by_cases hother : other = peer
        · subst hother
          rw [withLoad_load_self, hload]
        · rw [withLoad_load_of_ne hother]
          simp [removed, ledger, Std.TreeMap.getElem?_erase, Ne.symm hother]
      rw [← hsame] at hledger ⊢
      split
      · exact keeps_returnBlocks hempty hledger
      · exact @keeps_returnBlocks (removed.penalizePeer peer _) _ _ _ hempty hledger

theorem keeps_noteHeaders {hashes : List Hash48} (hledger : scheduler.ledger.Coherent) :
    Keeps forgotten scheduler.ledger (scheduler.noteHeaders peer hashes).ledger := by
  refine .foldl (fun state hash _ hstate => ?_) hledger
  unfold noteHeader
  dsimp only
  split
  · exact .refl hstate
  · next hknown =>
      exact @keeps_pushBack (state.addHint peer hash) _ _ hstate (Bool.not_eq_true _ ▸ hknown)

theorem keeps_queuePriorityBlock {peer : Option String} (hledger : scheduler.ledger.Coherent) :
    Keeps forgotten scheduler.ledger (scheduler.queuePriorityBlock peer hash).2.ledger := by
  have hhint := @ledger_addOptionalHint scheduler hash peer
  rw [← hhint] at hledger ⊢
  unfold queuePriorityBlock
  dsimp only
  split
  · exact .refl hledger
  · next hknown => exact keeps_pushFront hledger (Bool.not_eq_true _ ▸ hknown)

theorem keeps_moveFront {peer : Option String} {released : BlockDownloadScheduler}
    (hledger : scheduler.ledger.Coherent) (hdone : hash ∉ scheduler.completed)
    (hreleased : released.ledger = scheduler.ledger.stop hash) :
    Keeps forgotten scheduler.ledger (pushFront hash (addOptionalHint peer hash
      { released with pending := released.pending.erase hash })).ledger := by
  have hpending : released.pending = scheduler.pending := congrArg WorkLedger.pending hreleased
  have hmoved : (pushFront hash (addOptionalHint peer hash
      { released with pending := released.pending.erase hash })).ledger =
        (scheduler.ledger.stop hash).withPending (hash :: scheduler.pending.erase hash) := by
    rw [← hreleased, ← hpending]
    cases peer <;> rfl
  rw [hmoved]
  by_cases hmem : hash ∈ scheduler.pending
  · rw [ledger_stop_of_free hledger (hledger.pending_free hash hmem).1]
    exact .reorder forgotten hledger (List.perm_cons_erase hmem).symm
  · exact .requeue forgotten hledger hdone hmem (by rw [List.erase_of_not_mem hmem]; rfl)

theorem keeps_reassignPriorityBlock {peer : Option String}
    (hledger : scheduler.ledger.Coherent) :
    Keeps forgotten scheduler.ledger (scheduler.reassignPriorityBlock peer hash).2.ledger := by
  unfold reassignPriorityBlock
  split
  · exact .refl hledger
  · next hdone =>
      split
      · exact .refl hledger
      · rw [Std.TreeSet.contains_iff_mem] at hdone
        refine keeps_moveFront hledger hdone ?_
        split
        · next owner howner => exact ledger_release (free_of_owner hledger (.inr howner))
        · next howner => rw [ledger_stop_of_free hledger howner]

/-! Completed and forgotten blocks. -/

theorem ledger_noteHashCompleted (hledger : scheduler.ledger.Coherent) :
    (scheduler.noteHashCompleted hash).ledger =
      ((scheduler.ledger.stop hash).withPending
        (scheduler.ledger.pending.filter (· ≠ hash))).finish hash := by
  let completed : BlockDownloadScheduler := { scheduler with
    completed := scheduler.completed.insert hash
    failedPeers := scheduler.failedPeers.erase hash
    pending := scheduler.pending.filter (· ≠ hash) }
  have hstop : completed.ledger.stop hash =
      ((scheduler.ledger.stop hash).withPending
        (scheduler.ledger.pending.filter (· ≠ hash))).finish hash := by
    ext1
    all_goals try rfl
    exact Std.TreeSet.members_insert
  rw [← hstop]
  unfold noteHashCompleted
  dsimp only
  split
  · next owner howner =>
      have hfree : ∀ other ≠ owner, hash ∉ scheduler.ledger.load other :=
        free_of_owner hledger (.inr howner)
      rw [ledger_release (by rw [ledger_decayPeerPenalty]; exact hfree), ledger_decayPeerPenalty]
  · next howner =>
      have hfree := ledger_stop_of_free hledger howner
      have hload := (congrArg WorkLedger.load hfree).symm
      have howners := (congrArg WorkLedger.owner hfree).symm
      ext1
      · rfl
      · exact hload
      · exact howners
      · exact Std.TreeMap.keys_erase
      · rfl

theorem keeps_noteHashCompleted (hledger : scheduler.ledger.Coherent) :
    Keeps forgotten scheduler.ledger (scheduler.noteHashCompleted hash).ledger := by
  rw [ledger_noteHashCompleted hledger]
  exact .complete hash forgotten hledger

theorem keeps_pruneCompletedWhere {isCompleted : Hash48 → Bool}
    (hledger : scheduler.ledger.Coherent) :
    Keeps forgotten scheduler.ledger (scheduler.pruneCompletedWhere isCompleted).2.ledger := by
  exact @Keeps.foldl _ _ _ _ ledger noteHashCompleted forgotten _
    (fun _ _ _ hstate => keeps_noteHashCompleted hstate) _ hledger

theorem keeps_forgetHash (hledger : scheduler.ledger.Coherent) :
    Keeps {hash} scheduler.ledger (scheduler.forgetHash hash).2.ledger := by
  have hforget : (scheduler.forgetHash hash).2.ledger =
      ((scheduler.ledger.stop hash).withPending
        (scheduler.ledger.pending.filter (· ≠ hash))).reopen hash := by
    ext1
    · rfl
    · funext other
      simp only [ledger, forgetHash, reopen, withPending, stop, Std.TreeMap.getElem?_map]
      cases scheduler.inflightByPeer[other]? <;> rfl
    · exact Std.TreeMap.lookups_erase
    · exact Std.TreeMap.keys_erase
    · exact Std.TreeSet.members_erase
  rw [hforget]
  exact .forget hash hledger

theorem keeps_forgetBlocks {hashes : List Hash48} (hledger : scheduler.ledger.Coherent) :
    Keeps { hash | hash ∈ hashes } scheduler.ledger (scheduler.forgetBlocks hashes).2.ledger := by
  refine @Keeps.foldl _ _ (Nat × BlockDownloadScheduler) _ (·.2.ledger) _ _ hashes
    (fun state hash hmem hstate => ?_) (0, scheduler) hledger
  exact (keeps_forgetHash hstate).mono (Set.singleton_subset_iff.mpr hmem)

theorem keeps_forgetCompleted (hledger : scheduler.ledger.Coherent) :
    Keeps {hash} scheduler.ledger (scheduler.forgetCompleted hash).2.ledger := by
  have hforget : (scheduler.forgetCompleted hash).2.ledger = scheduler.ledger.reopen hash := by
    ext1
    all_goals try rfl
    exact Std.TreeSet.members_erase
  rw [hforget]
  exact .reopen hash hledger

theorem keeps_sortPendingByKey {Key : Type} [Ord Key] {key : Hash48 → Key}
    (hledger : scheduler.ledger.Coherent) :
    Keeps forgotten scheduler.ledger (scheduler.sortPendingByKey key).ledger :=
  .reorder forgotten hledger (List.mergeSort_perm _ _)

theorem mem_foldl_modify {started : Std.TreeMap Hash48 Instant} {now : Instant}
    {inflight : List Hash48} :
    hash ∈ inflight.foldl (fun started hash => started.modify hash fun _ => now) started ↔
      hash ∈ started := by
  induction inflight generalizing started with
  | nil => rfl
  | cons head rest ih => rw [List.foldl_cons, ih, Std.TreeMap.mem_modify]

theorem keeps_restartInflight {now : Instant} (hledger : scheduler.ledger.Coherent) :
    Keeps forgotten scheduler.ledger (scheduler.restartInflight peer now).ledger := by
  suffices hsame : (scheduler.restartInflight peer now).ledger = scheduler.ledger by
    rw [hsame]
    exact .refl hledger
  unfold restartInflight
  split
  · rfl
  · ext1
    all_goals try rfl
    exact Set.ext fun hash => mem_foldl_modify

/-! Blocks that did not arrive. -/

theorem keeps_noteNotFound {hashes : List Hash48} (hledger : scheduler.ledger.Coherent) :
    Keeps forgotten scheduler.ledger (scheduler.noteNotFound peer hashes).ledger := by
  have hfold := @Keeps.foldl _ _ (Bool × BlockDownloadScheduler) _ (·.2.ledger)
    (fun state hash =>
      if state.2.inflightOwner[hash]?.any (· ≠ peer) then state
      else (true, (state.2.failBlock peer hash).requeueFront hash)) forgotten hashes
    (fun state hash _ hstate => by
      split
      · exact .refl hstate
      · next hother =>
          refine keeps_failBlock hstate ?_ rfl
          cases howner : state.2.inflightOwner[hash]? with
          | none => exact .inl rfl
          | some owner =>
              rw [howner, Option.any_some, decide_eq_true_eq, not_not] at hother
              exact .inr (by rw [hother]))
    (false, scheduler) hledger
  unfold noteNotFound
  dsimp only
  split <;> exact hfold

theorem keeps_requeueStaleInflightDetails {timeout : Duration} {now : Instant}
    (hledger : scheduler.ledger.Coherent) :
    Keeps forgotten scheduler.ledger
      (scheduler.requeueStaleInflightDetails timeout now).2.ledger := by
  refine @Keeps.foldl _ _ (List StaleDownload × BlockDownloadScheduler) _ (·.2.ledger) _ _ _
    (fun state hash _ hstate => ?_) ([], scheduler) hledger
  dsimp only
  unfold requeueStale
  split
  · next owner howner => exact keeps_failBlock hstate (.inr howner) rfl
  · next howner =>
      have hsame := ledger_eraseStarted hstate howner
      rw [← hsame] at hstate ⊢
      exact keeps_requeueFront hstate howner

theorem keeps_requeueStale {stale : List Hash48} (hledger : scheduler.ledger.Coherent)
    (hnodup : stale.Nodup)
    (howner : ∀ hash ∈ stale, scheduler.inflightOwner[hash]? = some peer) :
    Keeps forgotten scheduler.ledger (stale.foldl (fun scheduler hash =>
      ((scheduler.failBlock peer hash).penalizePeer peer peerTimeoutPenalty).requeueFront hash)
      scheduler).ledger := by
  induction stale generalizing scheduler with
  | nil => exact .refl hledger
  | cons hash stale ih =>
      obtain ⟨hnew, hnodup⟩ := List.nodup_cons.mp hnodup
      obtain ⟨hhash, howner⟩ := List.forall_mem_cons.mp howner
      have hstep : Keeps forgotten scheduler.ledger
          (((scheduler.failBlock peer hash).penalizePeer peer peerTimeoutPenalty).requeueFront
            hash).ledger := keeps_failBlock hledger (.inr hhash) rfl
      refine hstep.trans (ih hstep.coherent hnodup fun other hother => ?_)
      have hne : other ≠ hash := fun heq => hnew (heq ▸ hother)
      calc (((scheduler.failBlock peer hash).penalizePeer peer peerTimeoutPenalty).requeueFront
            hash).ledger.owner other
          = (scheduler.failBlock peer hash).ledger.owner other := by
            rw [requeueFront_owner, ledger_penalizePeer]
        _ = scheduler.ledger.owner other := by
            rw [ledger_failBlock hledger (.inr hhash), stop_owner_of_ne hne]
        _ = some peer := howner other hother

theorem keeps_requeueStaleInflightForPeer {timeout : Duration} {now : Instant}
    (hledger : scheduler.ledger.Coherent) :
    Keeps forgotten scheduler.ledger
      (scheduler.requeueStaleInflightForPeer peer timeout now).2.ledger := by
  unfold requeueStaleInflightForPeer
  split
  · exact .refl hledger
  · next inflight hinflight =>
      have hload : scheduler.ledger.load peer = inflight := by
        simp [ledger, hinflight]
      refine keeps_requeueStale hledger ((hload ▸ hledger.load_nodup peer).filter _) ?_
      intro hash hhash
      exact (hledger.owner_iff hash peer).mpr (hload ▸ List.mem_of_mem_filter hhash)

end BlockDownloadScheduler

end Atho
