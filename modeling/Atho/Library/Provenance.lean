import Mathlib.Data.List.Induction

/-! Where something that holds after a run of steps comes from. -/

variable {S E : Type*} {step : S → E → S} {holds : S → Prop} {born : S → E → Prop}

/-- What holds in the end held at first, or a step brought it about in the state that the
steps before it had led to. -/
theorem holds_foldl_iff (hstep : ∀ state event, holds (step state event) ↔
    holds state ∨ born state event) (events : List E) (start : S) :
    holds (events.foldl step start) ↔ holds start ∨
      ∃ before event behind, events = before ++ event :: behind ∧
        born (before.foldl step start) event := by
  induction events using List.reverseRecOn with
  | nil => simp
  | append_singleton events last ih =>
      rw [List.foldl_append, List.foldl_cons, List.foldl_nil, hstep, ih]
      constructor
      · rintro ((hstart | ⟨before, event, behind, rfl, hborn⟩) | hborn)
        · exact .inl hstart
        · exact .inr ⟨before, event, behind ++ [last], by simp, hborn⟩
        · exact .inr ⟨events, last, [], rfl, hborn⟩
      · rintro (hstart | ⟨before, event, behind, hevents, hborn⟩)
        · exact .inl (.inl hstart)
        · rcases List.eq_nil_or_concat behind with rfl | ⟨behind, final, rfl⟩
          · obtain ⟨rfl, hlast⟩ := List.append_inj' hevents rfl
            cases hlast
            exact .inr hborn
          · rw [List.concat_eq_append, ← List.cons_append, ← List.append_assoc] at hevents
            exact .inl (.inr ⟨before, event, behind, (List.append_inj' hevents rfl).1, hborn⟩)
