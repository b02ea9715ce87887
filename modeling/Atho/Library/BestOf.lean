import Mathlib.Data.List.Basic
import Mathlib.Tactic

/-! Keeping the best of the candidates seen so far, under a comparison that is a
total preorder. The first of several equals is kept; when equals are the same
candidate, the outcome does not depend on the order. -/

namespace BestOf

open Std

variable {α : Type u} (cmp : α → α → Ordering)

def keep (current : Option α) (candidate : α) : Option α :=
  match current with
  | none => some candidate
  | some best => if (cmp candidate best).isGT then some candidate else some best

def bestOf (candidates : List α) : Option α :=
  candidates.foldl (keep cmp) none

variable {cmp} {best : α} {candidates : List α}

theorem foldl_keep_some (cmp : α → α → Ordering) (current : α) (candidates : List α) :
    ∃ best, candidates.foldl (keep cmp) (some current) = some best := by
  induction candidates generalizing current with
  | nil => exact ⟨current, rfl⟩
  | cons candidate rest ih =>
      rw [List.foldl_cons, keep]
      split
      · exact ih candidate
      · exact ih current

theorem exists_bestOf (cmp : α → α → Ordering) (hnonempty : candidates ≠ []) :
    ∃ best, bestOf cmp candidates = some best := by
  cases candidates with
  | nil => exact absurd rfl hnonempty
  | cons first rest => exact foldl_keep_some cmp first rest

theorem mem_of_foldl_keep {current : Option α}
    (hbest : candidates.foldl (keep cmp) current = some best) :
    current = some best ∨ best ∈ candidates := by
  induction candidates generalizing current with
  | nil => exact .inl hbest
  | cons candidate rest ih =>
      rcases ih hbest with hkeep | hmem
      · cases current with
        | none => exact .inr (Option.some.inj hkeep ▸ List.mem_cons_self)
        | some first =>
            rw [keep] at hkeep
            split at hkeep
            · exact .inr (Option.some.inj hkeep ▸ List.mem_cons_self)
            · exact .inl hkeep
      · exact .inr (List.mem_cons_of_mem _ hmem)

theorem mem_of_bestOf (hbest : bestOf cmp candidates = some best) : best ∈ candidates :=
  (mem_of_foldl_keep hbest).resolve_left nofun

theorem foldl_keep_spec [TransCmp cmp] {current : α}
    (hbest : candidates.foldl (keep cmp) (some current) = some best) :
    (best = current ∨ best ∈ candidates) ∧ (cmp current best).isLE ∧
      ∀ candidate ∈ candidates, (cmp candidate best).isLE := by
  induction candidates generalizing current with
  | nil =>
      cases hbest
      exact ⟨.inl rfl, by simp [ReflCmp.compare_self], by simp⟩
  | cons candidate rest ih =>
      rw [List.foldl_cons, keep] at hbest
      split at hbest
      · next hgreater =>
          obtain ⟨hmem, hle, hrest⟩ := ih hbest
          have hlt : (cmp current candidate).isLE := by
            rw [Ordering.isGT_iff_eq_gt, OrientedCmp.gt_iff_lt] at hgreater
            exact Ordering.isLE_of_eq_lt hgreater
          refine ⟨?_, TransCmp.isLE_trans hlt hle, List.forall_mem_cons.mpr ⟨hle, hrest⟩⟩
          rcases hmem with rfl | hmem
          · exact .inr List.mem_cons_self
          · exact .inr (List.mem_cons_of_mem _ hmem)
      · next hgreater =>
          obtain ⟨hmem, hle, hrest⟩ := ih hbest
          have hkept : (cmp candidate current).isLE := by
            cases hcompare : cmp candidate current <;> simp [hcompare] at hgreater ⊢
          refine ⟨hmem.imp_right (List.mem_cons_of_mem _), hle,
            List.forall_mem_cons.mpr ⟨TransCmp.isLE_trans hkept hle, hrest⟩⟩

theorem bestOf_spec [TransCmp cmp] (hbest : bestOf cmp candidates = some best) :
    best ∈ candidates ∧ ∀ candidate ∈ candidates, (cmp candidate best).isLE := by
  cases candidates with
  | nil => cases hbest
  | cons first rest =>
      have hfold : rest.foldl (keep cmp) (some first) = some best := hbest
      obtain ⟨hmem, hle, hrest⟩ := foldl_keep_spec hfold
      exact ⟨List.mem_cons.mpr hmem, List.forall_mem_cons.mpr ⟨hle, hrest⟩⟩

theorem bestOf_eq_of_perm [TransCmp cmp] {order : List α} (hperm : order.Perm candidates)
    (hantisymm : ∀ left ∈ candidates, ∀ right ∈ candidates, cmp left right = .eq → left = right)
    (hbest : bestOf cmp candidates = some best) : bestOf cmp order = some best := by
  obtain ⟨hmem, hmax⟩ := bestOf_spec hbest
  have hnonempty : order ≠ [] := by
    rintro rfl
    exact List.not_mem_nil (hperm.mem_iff.mpr hmem)
  obtain ⟨other, hother⟩ := exists_bestOf cmp hnonempty
  obtain ⟨hmem', hmax'⟩ := bestOf_spec hother
  have hle := hmax other (hperm.mem_iff.mp hmem')
  have hge := hmax' best (hperm.mem_iff.mpr hmem)
  have heq : cmp other best = .eq := by
    rw [← OrientedCmp.isGE_iff_isLE] at hge
    cases hcompare : cmp other best <;> simp [hcompare] at hle hge ⊢
  rw [hother, hantisymm other (hperm.mem_iff.mp hmem') best hmem heq]

end BestOf
