import Mathlib.Data.List.Forall2
import Mathlib.Tactic

/-! Lists of the same length whose items are related in order. -/

variable {α β γ : Type*} {R : α → β → Prop}

theorem exists_forall₂ {items : List α}
    (hR : ∀ item ∈ items, ∃ result, R item result) : ∃ results, List.Forall₂ R items results := by
  induction items with
  | nil => exact ⟨[], .nil⟩
  | cons item items ih =>
      obtain ⟨⟨result, hresult⟩, hrest⟩ := List.forall_mem_cons.mp hR
      obtain ⟨results, hresults⟩ := ih hrest
      exact ⟨result :: results, .cons hresult hresults⟩

theorem exists_of_mem_forall₂ {items : List α} {results : List β}
    (hrel : List.Forall₂ R items results) {result : β} (hmem : result ∈ results) :
    ∃ item ∈ items, R item result := by
  induction hrel with
  | nil => cases hmem
  | cons hhead htail ih =>
      rcases List.mem_cons.mp hmem with rfl | hmem
      · exact ⟨_, List.mem_cons_self, hhead⟩
      · obtain ⟨item, hitem, hR⟩ := ih hmem
        exact ⟨item, List.mem_cons_of_mem _ hitem, hR⟩

theorem exists_zip_of_forall₂ {xs : List α} {ys : List β}
    (hrel : List.Forall₂ R xs ys) (hmem : x ∈ xs) : ∃ y, (x, y) ∈ xs.zip ys ∧ R x y := by
  induction hrel with
  | nil => simp at hmem
  | @cons head head' tail tail' hhead _ ih =>
      rcases List.mem_cons.mp hmem with rfl | hmem
      · exact ⟨head', by simp, hhead⟩
      · obtain ⟨y, hy, hR⟩ := ih hmem
        exact ⟨y, by simp [hy], hR⟩

theorem forall₂_split {before after : List α} {x : α} {ys : List β}
    (hrel : List.Forall₂ R (before ++ x :: after) ys) :
    ∃ before' y after', ys = before' ++ y :: after' ∧ List.Forall₂ R before before' ∧
      R x y := by
  induction before generalizing ys with
  | nil =>
      cases hrel with
      | cons hfirst hrest => exact ⟨[], _, _, rfl, .nil, hfirst⟩
  | cons head before ih =>
      cases hrel with
      | cons hfirst hrest =>
          obtain ⟨before', y, after', rfl, hbefore, hR⟩ := ih hrest
          exact ⟨_ :: before', y, after', rfl, .cons hfirst hbefore, hR⟩

theorem getLast?_of_forall₂ {items : List α} {results : List β}
    (hrel : List.Forall₂ R items results) {item : α} (hlast : items.getLast? = some item) :
    ∃ result, results.getLast? = some result ∧ R item result := by
  induction hrel with
  | nil => cases hlast
  | @cons first first' rest rest' hfirst hrest ih =>
      cases hrest with
      | nil =>
          cases hlast
          exact ⟨first', rfl, hfirst⟩
      | cons hsecond htail =>
          rw [List.getLast?_cons_cons] at hlast ⊢
          exact ih hlast

theorem map_eq_of_forall₂ {f : α → γ} {g : β → γ}
    {items : List α} {results : List β} (hrel : List.Forall₂ R items results)
    (heq : ∀ item result, R item result → f item = g result) :
    items.map f = results.map g := by
  induction hrel with
  | nil => rfl
  | cons hhead htail ih => rw [List.map_cons, List.map_cons, heq _ _ hhead, ih]

theorem flatMap_eq_of_forall₂ {f : α → List γ} {g : β → List γ}
    {items : List α} {results : List β} (hrel : List.Forall₂ R items results)
    (heq : ∀ item ∈ items, ∀ result, R item result → f item = g result) :
    items.flatMap f = results.flatMap g := by
  induction hrel with
  | nil => rfl
  | cons hhead htail ih =>
      obtain ⟨hfirst, hrest⟩ := List.forall_mem_cons.mp heq
      rw [List.flatMap_cons, List.flatMap_cons, hfirst _ hhead, ih hrest]
