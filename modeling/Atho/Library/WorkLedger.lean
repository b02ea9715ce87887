import Mathlib.Data.Set.Insert
import Mathlib.Data.List.Nodup
import Mathlib.Tactic

/-! Work items that wait in a queue, are carried out by a worker, or are done. -/

/-- The books of a dispatcher: the queue, the load of every worker, who carries out an
item, which items have a start time, and what is done. -/
@[ext] structure WorkLedger (Item Worker : Type) where
  pending : List Item
  load : Worker → List Item
  owner : Item → Option Worker
  started : Set Item
  done : Set Item

namespace WorkLedger

variable {Item Worker : Type} {ledger : WorkLedger Item Worker}

/-- An item is in at most one of the three classes, and the three records of what is
carried out agree. -/
structure Coherent (ledger : WorkLedger Item Worker) : Prop where
  pending_nodup : ledger.pending.Nodup
  load_nodup : ∀ worker, (ledger.load worker).Nodup
  owner_iff : ∀ item worker, ledger.owner item = some worker ↔ item ∈ ledger.load worker
  started_iff : ∀ item, item ∈ ledger.started ↔ ledger.owner item ≠ none
  pending_free : ∀ item ∈ ledger.pending, ledger.owner item = none ∧ item ∉ ledger.done
  done_free : ∀ item ∈ ledger.done, ledger.owner item = none

/-- The item is in one of the three classes. -/
def Tracked (ledger : WorkLedger Item Worker) (item : Item) : Prop :=
  item ∈ ledger.pending ∨ ledger.owner item ≠ none ∨ item ∈ ledger.done

/-- Nothing is lost but what is forgotten on purpose. -/
structure Keeps (forgotten : Set Item) (before after : WorkLedger Item Worker) : Prop where
  coherent : after.Coherent
  tracked : ∀ item ∉ forgotten, before.Tracked item → after.Tracked item

theorem Keeps.refl {forgotten : Set Item} (hledger : ledger.Coherent) :
    Keeps forgotten ledger ledger :=
  ⟨hledger, fun _ _ htracked => htracked⟩

theorem Keeps.trans {forgotten : Set Item} {first second third : WorkLedger Item Worker}
    (hfirst : Keeps forgotten first second) (hsecond : Keeps forgotten second third) :
    Keeps forgotten first third :=
  ⟨hsecond.coherent, fun item hitem htracked =>
    hsecond.tracked item hitem (hfirst.tracked item hitem htracked)⟩

theorem Keeps.mono {small large : Set Item} {before after : WorkLedger Item Worker}
    (hkeeps : Keeps small before after) (hsubset : small ⊆ large) : Keeps large before after :=
  ⟨hkeeps.coherent, fun item hitem => hkeeps.tracked item fun hsmall => hitem (hsubset hsmall)⟩

theorem Keeps.foldl {State : Type u} {Step : Type v} {books : State → WorkLedger Item Worker}
    {step : State → Step → State} {forgotten : Set Item} {steps : List Step}
    (hstep : ∀ state, ∀ next ∈ steps, (books state).Coherent →
      Keeps forgotten (books state) (books (step state next)))
    {state : State} (hstate : (books state).Coherent) :
    Keeps forgotten (books state) (books (steps.foldl step state)) := by
  induction steps generalizing state with
  | nil => exact .refl hstate
  | cons next steps ih =>
      have hnext := hstep state next List.mem_cons_self hstate
      exact hnext.trans (ih (fun state step hmem => hstep state step (List.mem_cons_of_mem _ hmem))
        hnext.coherent)

/-! The moves of a dispatcher: the queue and what is done. -/

/-- The queue holds `queue`. -/
def withPending (queue : List Item) (ledger : WorkLedger Item Worker) :
    WorkLedger Item Worker :=
  { ledger with pending := queue }

def finish (item : Item) (ledger : WorkLedger Item Worker) : WorkLedger Item Worker :=
  { ledger with done := insert item ledger.done }

def reopen (item : Item) (ledger : WorkLedger Item Worker) : WorkLedger Item Worker :=
  { ledger with done := ledger.done \ {item} }

theorem Coherent.withPending {queue : List Item} (hledger : ledger.Coherent)
    (hnodup : queue.Nodup)
    (hfree : ∀ item ∈ queue, ledger.owner item = none ∧ item ∉ ledger.done) :
    (ledger.withPending queue).Coherent :=
  { hledger with pending_nodup := hnodup, pending_free := hfree }

theorem Coherent.finish {item : Item} (hledger : ledger.Coherent)
    (hpending : item ∉ ledger.pending) (howner : ledger.owner item = none) :
    (ledger.finish item).Coherent := by
  refine { hledger with pending_free := fun kept hkept => ?_, done_free := ?_ }
  · obtain ⟨hkeptOwner, hdone⟩ := hledger.pending_free kept hkept
    refine ⟨hkeptOwner, fun hmem => ?_⟩
    rcases hmem with rfl | hmem
    · exact hpending hkept
    · exact hdone hmem
  · rintro kept (rfl | hkept)
    · exact howner
    · exact hledger.done_free kept hkept

theorem Coherent.reopen (item : Item) (hledger : ledger.Coherent) :
    (ledger.reopen item).Coherent :=
  { hledger with
    pending_free := fun kept hkept =>
      (hledger.pending_free kept hkept).imp_right fun hdone hmem => hdone hmem.1
    done_free := fun kept hkept => hledger.done_free kept hkept.1 }

theorem Keeps.enqueue {item : Item} {queue : List Item} (forgotten : Set Item)
    (hledger : ledger.Coherent) (howner : ledger.owner item = none) (hdone : item ∉ ledger.done)
    (hpending : item ∉ ledger.pending) (hqueue : queue.Perm (item :: ledger.pending)) :
    Keeps forgotten ledger (ledger.withPending queue) := by
  refine ⟨hledger.withPending (hqueue.nodup_iff.mpr
    (List.nodup_cons.mpr ⟨hpending, hledger.pending_nodup⟩)) ?_, ?_⟩
  · intro kept hkept
    rcases List.mem_cons.mp (hqueue.mem_iff.mp hkept) with rfl | hkept
    · exact ⟨howner, hdone⟩
    · exact hledger.pending_free kept hkept
  · rintro kept - (hkept | hkept)
    · exact .inl (hqueue.mem_iff.mpr (List.mem_cons_of_mem _ hkept))
    · exact .inr hkept

theorem Keeps.reorder {queue : List Item} (forgotten : Set Item) (hledger : ledger.Coherent)
    (hqueue : queue.Perm ledger.pending) :
    Keeps forgotten ledger (ledger.withPending queue) := by
  refine ⟨hledger.withPending (hqueue.nodup_iff.mpr hledger.pending_nodup) fun kept hkept =>
    hledger.pending_free kept (hqueue.mem_iff.mp hkept), ?_⟩
  rintro kept - (hkept | hkept)
  · exact .inl (hqueue.mem_iff.mpr hkept)
  · exact .inr hkept

theorem Keeps.reopen (item : Item) (hledger : ledger.Coherent) :
    Keeps {item} ledger (ledger.reopen item) := by
  refine ⟨hledger.reopen item, fun kept hkept htracked => ?_⟩
  rcases htracked with hpending | howner | hdone
  · exact .inl hpending
  · exact .inr (.inl howner)
  · exact .inr (.inr ⟨hdone, hkept⟩)

/-! An item is taken from its worker. -/

variable [DecidableEq Item]

/-- Nobody carries out the item any more. -/
def stop (item : Item) (ledger : WorkLedger Item Worker) :
    WorkLedger Item Worker :=
  { ledger with
    load := fun worker => (ledger.load worker).filter (· ≠ item)
    owner := Function.update ledger.owner item none
    started := ledger.started \ {item} }

theorem stop_owner_of_ne {item kept : Item} (hne : kept ≠ item) :
    (ledger.stop item).owner kept = ledger.owner kept :=
  Function.update_of_ne hne _ _

@[simp] theorem stop_owner_self {item : Item} : (ledger.stop item).owner item = none :=
  Function.update_self _ _ _

theorem stop_owner_none {item kept : Item} (hkept : ledger.owner kept = none) :
    (ledger.stop item).owner kept = none := by
  by_cases hitem : kept = item
  · rw [hitem, stop_owner_self]
  · rw [stop_owner_of_ne hitem, hkept]

theorem Coherent.stop (item : Item) (hledger : ledger.Coherent) :
    (ledger.stop item).Coherent := by
  refine ⟨hledger.pending_nodup, fun worker => (hledger.load_nodup worker).filter _, ?_, ?_,
    fun kept hkept => ?_, fun kept hkept => stop_owner_none (hledger.done_free kept hkept)⟩
  · intro kept worker
    by_cases hitem : kept = item
    · subst hitem
      simp [WorkLedger.stop]
    · rw [stop_owner_of_ne hitem, hledger.owner_iff]
      simp [WorkLedger.stop, hitem]
  · intro kept
    by_cases hitem : kept = item
    · subst hitem
      simp [WorkLedger.stop]
    · rw [stop_owner_of_ne hitem, ← hledger.started_iff]
      simp [WorkLedger.stop, hitem]
  · obtain ⟨howner, hdone⟩ := hledger.pending_free kept hkept
    exact ⟨stop_owner_none howner, hdone⟩

theorem Tracked.stop {item kept : Item} (hne : kept ≠ item) (htracked : ledger.Tracked kept) :
    (ledger.stop item).Tracked kept := by
  rcases htracked with hpending | howner | hdone
  · exact .inl hpending
  · exact .inr (.inl (by rwa [stop_owner_of_ne hne]))
  · exact .inr (.inr hdone)

theorem Keeps.requeue {item : Item} {queue : List Item} (forgotten : Set Item)
    (hledger : ledger.Coherent) (hdone : item ∉ ledger.done) (hpending : item ∉ ledger.pending)
    (hqueue : queue.Perm (item :: ledger.pending)) :
    Keeps forgotten ledger ((ledger.stop item).withPending queue) := by
  have henqueue :=
    Keeps.enqueue forgotten (hledger.stop item) stop_owner_self hdone hpending hqueue
  refine ⟨henqueue.coherent, fun kept hkept htracked => ?_⟩
  by_cases hitem : kept = item
  · subst hitem
    exact .inl (hqueue.mem_iff.mpr List.mem_cons_self)
  · exact henqueue.tracked kept hkept (htracked.stop hitem)

theorem Keeps.drop {item : Item} (forgotten : Set Item) (hledger : ledger.Coherent)
    (hitem : item ∈ ledger.pending ∨ item ∈ ledger.done) :
    Keeps forgotten ledger (ledger.stop item) := by
  refine ⟨hledger.stop item, fun kept _ htracked => ?_⟩
  by_cases hsame : kept = item
  · subst hsame
    exact hitem.elim .inl fun hdone => .inr (.inr hdone)
  · exact htracked.stop hsame

theorem Keeps.complete (item : Item) (forgotten : Set Item) (hledger : ledger.Coherent) :
    Keeps forgotten ledger
      (((ledger.stop item).withPending (ledger.pending.filter (· ≠ item))).finish item) := by
  have hpending : ((ledger.stop item).withPending
      (ledger.pending.filter (· ≠ item))).Coherent :=
    (hledger.stop item).withPending (hledger.pending_nodup.filter _) fun kept hkept =>
      (hledger.stop item).pending_free kept (List.mem_of_mem_filter hkept)
  refine ⟨hpending.finish (by simp [WorkLedger.withPending]) stop_owner_self, ?_⟩
  intro kept _ htracked
  by_cases hitem : kept = item
  · exact .inr (.inr (.inl hitem))
  · rcases htracked.stop hitem with hkept | howner | hdone
    · exact .inl (List.mem_filter.mpr ⟨hkept, by simpa using hitem⟩)
    · exact .inr (.inl howner)
    · exact .inr (.inr (.inr hdone))

theorem Keeps.forget (item : Item) (hledger : ledger.Coherent) :
    Keeps {item} ledger
      (((ledger.stop item).withPending (ledger.pending.filter (· ≠ item))).reopen item) := by
  have hpending : ((ledger.stop item).withPending
      (ledger.pending.filter (· ≠ item))).Coherent :=
    (hledger.stop item).withPending (hledger.pending_nodup.filter _) fun kept hkept =>
      (hledger.stop item).pending_free kept (List.mem_of_mem_filter hkept)
  refine ⟨hpending.reopen item, fun kept hkept htracked => ?_⟩
  rcases htracked.stop hkept with hmem | howner | hdone
  · exact .inl (List.mem_filter.mpr ⟨hmem, by simpa using hkept⟩)
  · exact .inr (.inl howner)
  · exact .inr (.inr ⟨hdone, hkept⟩)

/-! An item is handed to a worker. -/

variable [DecidableEq Worker]

/-- The load of the worker is `queue`. -/
def withLoad (worker : Worker) (queue : List Item) (ledger : WorkLedger Item Worker) :
    WorkLedger Item Worker :=
  { ledger with load := Function.update ledger.load worker queue }

omit [DecidableEq Item] in
@[simp] theorem withLoad_load_self {worker : Worker} {queue : List Item} :
    (ledger.withLoad worker queue).load worker = queue :=
  Function.update_self _ _ _

omit [DecidableEq Item] in
theorem withLoad_load_of_ne {worker other : Worker} {queue : List Item} (hne : other ≠ worker) :
    (ledger.withLoad worker queue).load other = ledger.load other :=
  Function.update_of_ne hne _ _

omit [DecidableEq Item] in
theorem withLoad_eq_self {worker : Worker} {queue : List Item}
    (hload : ledger.load worker = queue) : ledger.withLoad worker queue = ledger := by
  rw [withLoad, Function.update_eq_self_iff.mpr hload.symm]

theorem stop_withLoad_cons {item : Item} {worker : Worker} {queue : List Item}
    (hledger : (ledger.withLoad worker (item :: queue)).Coherent) :
    ((ledger.withLoad worker (item :: queue)).stop item).load =
      Function.update ledger.load worker queue := by
  have hnodup := hledger.load_nodup worker
  rw [withLoad_load_self, List.nodup_cons] at hnodup
  have howner := (hledger.owner_iff item worker).mpr (by simp)
  have hkeep {items : List Item} (hnot : item ∉ items) : items.filter (· ≠ item) = items :=
    List.filter_eq_self.mpr fun kept hkept => decide_eq_true fun heq => hnot (heq ▸ hkept)
  funext other
  simp only [stop]
  by_cases hsame : other = worker
  · subst hsame
    rw [withLoad_load_self, Function.update_self, List.filter_cons_of_neg (by simp),
      hkeep hnodup.1]
  · rw [withLoad_load_of_ne hsame, Function.update_of_ne hsame]
    refine hkeep fun hmem => hsame ?_
    have hother := (hledger.owner_iff item other).mpr (by rwa [withLoad_load_of_ne hsame])
    exact Option.some.inj (hother.symm.trans howner)

/-- The worker begins to carry out the item. -/
def start (item : Item) (worker : Worker) (ledger : WorkLedger Item Worker) :
    WorkLedger Item Worker :=
  { ledger with
    load := Function.update ledger.load worker (ledger.load worker ++ [item])
    owner := Function.update ledger.owner item (some worker)
    started := insert item ledger.started }

theorem Coherent.start {item : Item} (worker : Worker) (hledger : ledger.Coherent)
    (hpending : item ∉ ledger.pending) (howner : ledger.owner item = none)
    (hdone : item ∉ ledger.done) : (ledger.start item worker).Coherent := by
  have hload : item ∉ ledger.load worker := by
    rw [← hledger.owner_iff, howner]
    exact nofun
  have hother {kept : Item} (hfree : kept ≠ item) :
      (ledger.start item worker).owner kept = ledger.owner kept :=
    Function.update_of_ne hfree _ _
  have howned : (ledger.start item worker).owner item = some worker :=
    Function.update_self _ _ _
  refine ⟨hledger.pending_nodup, ?_, ?_, ?_, ?_, ?_⟩
  · intro other
    by_cases hsame : other = worker
    · subst hsame
      simp only [WorkLedger.start, Function.update_self]
      exact List.nodup_append.mpr ⟨hledger.load_nodup other, List.nodup_singleton item, by
        intro kept hkept new hnew
        rw [List.mem_singleton.mp hnew]
        exact fun heq => hload (heq ▸ hkept)⟩
    · simp only [WorkLedger.start, Function.update_of_ne hsame]
      exact hledger.load_nodup other
  · intro kept other
    by_cases hitem : kept = item
    · subst hitem
      rw [howned]
      by_cases hsame : other = worker
      · subst hsame
        simp [WorkLedger.start]
      · have hnot : kept ∉ ledger.load other := by
          rw [← hledger.owner_iff, howner]
          exact nofun
        simp [WorkLedger.start, Function.update_of_ne hsame, hnot, Ne.symm hsame]
    · rw [hother hitem, hledger.owner_iff]
      by_cases hsame : other = worker
      · subst hsame
        simp [WorkLedger.start, hitem]
      · simp [WorkLedger.start, Function.update_of_ne hsame]
  · intro kept
    by_cases hitem : kept = item
    · subst hitem
      simp [WorkLedger.start]
    · rw [hother hitem, ← hledger.started_iff]
      simp [WorkLedger.start, hitem]
  · intro kept hkept
    rw [hother fun heq => hpending (heq ▸ hkept)]
    exact hledger.pending_free kept hkept
  · intro kept hkept
    rw [hother fun heq => hdone (heq ▸ hkept)]
    exact hledger.done_free kept hkept

theorem Keeps.dispatch {item : Item} {queue : List Item} (worker : Worker)
    (forgotten : Set Item) (hledger : ledger.Coherent)
    (hqueue : ledger.pending.Perm (item :: queue)) :
    Keeps forgotten ledger ((ledger.withPending queue).start item worker) := by
  obtain ⟨hitem, hnodup⟩ := List.nodup_cons.mp (hqueue.nodup_iff.mp hledger.pending_nodup)
  have hmem : item ∈ ledger.pending := hqueue.mem_iff.mpr List.mem_cons_self
  obtain ⟨howner, hdone⟩ := hledger.pending_free item hmem
  have hrest : (ledger.withPending queue).Coherent :=
    hledger.withPending hnodup fun kept hkept =>
      hledger.pending_free kept (hqueue.mem_iff.mpr (List.mem_cons_of_mem _ hkept))
  refine ⟨hrest.start worker hitem howner hdone, fun kept _ htracked => ?_⟩
  by_cases hsame : kept = item
  · subst hsame
    exact .inr (.inl (by simp [WorkLedger.start]))
  · rcases htracked with hkept | hkept | hkept
    · exact .inl ((List.mem_cons.mp (hqueue.mem_iff.mp hkept)).resolve_left hsame)
    · exact .inr (.inl (by simpa [WorkLedger.start, WorkLedger.withPending, hsame] using hkept))
    · exact .inr (.inr hkept)

end WorkLedger
