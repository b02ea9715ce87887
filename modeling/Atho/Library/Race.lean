import Mathlib.Data.List.Basic

/-! Searchers that race for one slot: whoever finds a candidate first raises a flag and then
writes the candidate down, in two separate steps. -/

namespace Race

/-- What one searcher does next. -/
inductive Phase (α : Type*) where
  | polling (candidate : α)
  | testing (candidate : α)
  | claiming (candidate : α)
  | publishing (candidate : α)
  | finished

/-- The cells that all searchers share. -/
structure Shared (α : Type*) where
  found : Bool
  slot : α
  abort : Bool

variable {α : Type*}

/-- A load may miss what another thread has stored, but it does not see a flag raised that is
not. Whether a stop is requested is decided outside, anew at every load. Only the exchange is
certain to see the flag as it is. -/
inductive Step (good : α → Prop) (advance : α → α) :
    Shared α → Phase α → Shared α → Phase α → Prop
  | leave {shared candidate} (seenFound stop seenAbort : Bool)
      (hfound : seenFound = true → shared.found = true)
      (habort : seenAbort = true → shared.abort = true)
      (hleave : (seenFound || stop || seenAbort) = true) :
      Step good advance shared (.polling candidate) shared .finished
  | enter {shared candidate} :
      Step good advance shared (.polling candidate) shared (.testing candidate)
  | hit {shared candidate} (hgood : good candidate) :
      Step good advance shared (.testing candidate) shared (.claiming candidate)
  | miss {shared candidate} (hbad : ¬good candidate) :
      Step good advance shared (.testing candidate) shared (.polling (advance candidate))
  | claim {shared candidate} (hfree : shared.found = false) :
      Step good advance shared (.claiming candidate) { shared with found := true }
        (.publishing candidate)
  | lose {shared candidate} (htaken : shared.found = true) :
      Step good advance shared (.claiming candidate) shared .finished
  | publish {shared candidate} :
      Step good advance shared (.publishing candidate) { shared with slot := candidate } .finished

/-- What a searcher is about to claim or to write down is good. -/
def Phase.Sound (good : α → Prop) : Phase α → Prop
  | polling _ => True
  | testing _ => True
  | claiming candidate => good candidate
  | publishing candidate => good candidate
  | finished => True

/-- While the flag is up, the slot is good or its writer is still on the way. -/
structure Consistent (good : α → Prop) (shared : Shared α) (searchers : List (Phase α)) : Prop where
  sound : ∀ phase ∈ searchers, phase.Sound good
  announced : shared.found = true →
    good shared.slot ∨ ∃ candidate, Phase.publishing candidate ∈ searchers

variable {good : α → Prop} {advance : α → α} {shared after : Shared α} {phase next : Phase α}
  {searchers front back : List (Phase α)}

theorem Step.sound (hstep : Step good advance shared phase after next) (hsound : phase.Sound good) :
    next.Sound good := by
  cases hstep with
  | leave => trivial
  | enter => trivial
  | hit hgood => exact hgood
  | miss => trivial
  | claim => exact hsound
  | lose => trivial
  | publish => trivial

theorem Step.announced (hstep : Step good advance shared phase after next)
    (hsound : phase.Sound good)
    (hannounced : shared.found = true →
      good shared.slot ∨ ∃ candidate, Phase.publishing candidate ∈ front ++ phase :: back) :
    after.found = true →
      good after.slot ∨ ∃ candidate, Phase.publishing candidate ∈ front ++ next :: back := by
  intro hfound
  -- a searcher that is not the one that steps is still there afterwards
  have hothers (hslot : after.slot = shared.slot) (hbefore : shared.found = true)
      (hquiet : ∀ candidate, phase ≠ .publishing candidate) :
      good after.slot ∨ ∃ candidate, Phase.publishing candidate ∈ front ++ next :: back := by
    rcases hannounced hbefore with hgood | ⟨candidate, hmem⟩
    · exact .inl (hslot ▸ hgood)
    · refine .inr ⟨candidate, ?_⟩
      rcases List.mem_append.mp hmem with hfront | hback
      · exact List.mem_append_left _ hfront
      · rcases List.mem_cons.mp hback with heq | hback
        · exact absurd heq.symm (hquiet candidate)
        · exact List.mem_append_right _ (List.mem_cons_of_mem _ hback)
  cases hstep with
  | leave => exact hothers rfl hfound (by simp)
  | enter => exact hothers rfl hfound (by simp)
  | hit => exact hothers rfl hfound (by simp)
  | miss => exact hothers rfl hfound (by simp)
  | claim => exact .inr ⟨_, List.mem_append_right _ List.mem_cons_self⟩
  | lose => exact hothers rfl hfound (by simp)
  | publish => exact .inl hsound

theorem Consistent.step (hconsistent : Consistent good shared (front ++ phase :: back))
    (hstep : Step good advance shared phase after next) :
    Consistent good after (front ++ next :: back) := by
  have hphase := hconsistent.sound phase (List.mem_append_right _ List.mem_cons_self)
  refine ⟨?_, hstep.announced hphase hconsistent.announced⟩
  intro other hother
  rcases List.mem_append.mp hother with hfront | hback
  · exact hconsistent.sound other (List.mem_append_left _ hfront)
  · rcases List.mem_cons.mp hback with rfl | hback
    · exact hstep.sound hphase
    · exact hconsistent.sound other (List.mem_append_right _ (List.mem_cons_of_mem _ hback))

theorem Consistent.start (hconsistent : Consistent good shared searchers) (candidate : α) :
    Consistent good shared (searchers ++ [.polling candidate]) := by
  constructor
  · intro phase hphase
    rcases List.mem_append.mp hphase with hphase | hphase
    · exact hconsistent.sound phase hphase
    · rw [List.mem_singleton.mp hphase]
      trivial
  · intro hfound
    apply (hconsistent.announced hfound).imp_right
    rintro ⟨candidate, hmem⟩
    exact ⟨candidate, List.mem_append_left _ hmem⟩

theorem Consistent.withAbort (hconsistent : Consistent good shared searchers) :
    Consistent good { shared with abort := true } searchers :=
  ⟨hconsistent.sound, hconsistent.announced⟩

theorem Consistent.good_slot (hconsistent : Consistent good shared searchers)
    (hfinished : ∀ phase ∈ searchers, phase = .finished) (hfound : shared.found = true) :
    good shared.slot := by
  rcases hconsistent.announced hfound with hgood | ⟨candidate, hmem⟩
  · exact hgood
  · cases hfinished _ hmem

end Race
