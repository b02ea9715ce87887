import Atho.Library.KeyRelation
import Mathlib.Logic.Relation

/-! Walking a relation down from a stack of keys, visiting each key once. -/

namespace KeyRelation

open Relation

variable {κ : Type} [Ord κ]

/-- How many keys of a table have not been visited. -/
def unvisited (table : KeyRelation κ) (visited : Std.TreeSet κ) : Nat :=
  table.keys.countP fun key => !visited.contains key

section Unvisited

variable [Std.TransOrd κ] {table : KeyRelation κ} {visited : Std.TreeSet κ} {key : κ}

theorem countP_insert_le (keys : List κ) :
    keys.countP (fun other => !(visited.insert key).contains other) ≤
      keys.countP (fun other => !visited.contains other) := by
  refine List.countP_mono_left fun other _ hother => ?_
  simp only [Std.TreeSet.contains_insert, Bool.not_eq_true', Bool.or_eq_false_iff] at hother ⊢
  exact hother.2

theorem unvisited_insert_le : table.unvisited (visited.insert key) ≤ table.unvisited visited :=
  countP_insert_le table.keys

theorem unvisited_insert_lt [Std.LawfulEqOrd κ] (hfresh : visited.contains key = false)
    (hmem : key ∈ table) : table.unvisited (visited.insert key) < table.unvisited visited := by
  classical
  have hperm := List.perm_cons_erase (Std.TreeMap.mem_keys.mpr hmem)
  rw [unvisited, unvisited, hperm.countP_eq, hperm.countP_eq, List.countP_cons_of_neg (by simp),
    List.countP_cons_of_pos (by simp [hfresh])]
  exact Nat.lt_succ_of_le (countP_insert_le _)

end Unvisited

/-- The keys reached from a stack, in the order of their first visit; the top of the
stack comes first. -/
def descend [Std.TransOrd κ] [Std.LawfulEqOrd κ] (table : KeyRelation κ) (stack : List κ) (visited : Std.TreeSet κ) : List κ :=
  match stack with
  | [] => []
  | key :: rest =>
      if visited.contains key then descend table rest visited
      else
        key :: descend table ((table[key]?.getD ∅).toList.reverse ++ rest) (visited.insert key)
termination_by (table.unvisited visited, stack.length)
decreasing_by
  · exact Prod.Lex.right _ (Nat.lt_succ_self _)
  · next hfresh =>
      -- A key of the table is used up; any other key leaves a shorter stack.
      rw [Bool.not_eq_true] at hfresh
      by_cases hmem : key ∈ table
      · exact Prod.Lex.left _ _ (unvisited_insert_lt hfresh hmem)
      · rw [Std.TreeMap.getElem?_eq_none hmem]
        refine (Nat.lt_or_eq_of_le unvisited_insert_le).elim (Prod.Lex.left _ _) fun heq => ?_
        rw [heq]
        exact Prod.Lex.right _ (by simp)

variable [Std.TransOrd κ] [Std.LawfulEqOrd κ] {table : KeyRelation κ} {visited : Std.TreeSet κ}
  {key : κ}

/-- The keys that a path from the stack reaches without passing a visited one. -/
def ReachedFrom (table : KeyRelation κ) (stack : List κ) (visited : Std.TreeSet κ) (key : κ) :
    Prop :=
  ∃ top ∈ stack, top ∉ visited ∧
    ReflTransGen (fun a b => table.Related a b ∧ b ∉ visited) top key

/-- Visiting a key splits what is reached into the key, what is reached through it,
and what is reached without it. -/
theorem reachedFrom_cons_iff {rest : List κ} (hfresh : key ∉ visited) {target : κ} :
    table.ReachedFrom (key :: rest) visited target ↔ target = key ∨
      table.ReachedFrom ((table[key]?.getD ∅).toList.reverse ++ rest) (visited.insert key)
        target := by
  have hchild : ∀ {child}, child ∈ (table[key]?.getD ∅).toList.reverse ++ rest ↔
      table.Related key child ∨ child ∈ rest := by
    intro child
    rw [List.mem_append, List.mem_reverse, Std.TreeSet.mem_toList, ← related_iff_getD]
  have hinsert : ∀ {other}, other ∉ visited.insert key ↔ other ≠ key ∧ other ∉ visited := by
    intro other
    rw [Std.TreeSet.mem_insert, Std.LawfulEqOrd.compare_eq_iff_eq, not_or, eq_comm]
  constructor
  · rintro ⟨top, htop, hfree, hpath⟩
    -- The part of the path after its last visit to the key does not meet the key.
    induction hpath with
    | refl =>
        by_cases heq : top = key
        · exact .inl heq
        · refine .inr ⟨top, hchild.mpr (.inr ?_), hinsert.mpr ⟨heq, hfree⟩, .refl⟩
          exact (List.mem_cons.mp htop).resolve_left heq
    | @tail middle target _ hlink ih =>
        by_cases heq : target = key
        · exact .inl heq
        · have htarget := hinsert.mpr ⟨heq, hlink.2⟩
          rcases ih with rfl | ⟨start, hstart, hstartFree, hstartPath⟩
          · exact .inr ⟨target, hchild.mpr (.inl hlink.1), htarget, .refl⟩
          · exact .inr ⟨start, hstart, hstartFree, hstartPath.tail ⟨hlink.1, htarget⟩⟩
  · have hmono : ∀ {a b}, ReflTransGen
        (fun a b => table.Related a b ∧ b ∉ visited.insert key) a b →
        ReflTransGen (fun a b => table.Related a b ∧ b ∉ visited) a b := fun hpath =>
      hpath.lift id fun _ _ hlink => ⟨hlink.1, (hinsert.mp hlink.2).2⟩
    rintro (rfl | ⟨top, htop, hfree, hpath⟩)
    · exact ⟨target, List.mem_cons_self, hfresh, .refl⟩
    · have hfree := (hinsert.mp hfree).2
      rcases hchild.mp htop with hrelated | hrest
      · exact ⟨key, List.mem_cons_self, hfresh, .head ⟨hrelated, hfree⟩ (hmono hpath)⟩
      · exact ⟨top, List.mem_cons_of_mem _ hrest, hfree, hmono hpath⟩

theorem mem_descend (table : KeyRelation κ) (stack : List κ) (visited : Std.TreeSet κ) {key : κ} :
    key ∈ table.descend stack visited ↔ table.ReachedFrom stack visited key := by
  fun_induction descend table stack visited with
  | case1 visited => simp [ReachedFrom]
  | case2 visited top rest hvisited ih =>
      rw [ih]
      simp only [ReachedFrom, List.exists_mem_cons_iff]
      rw [or_iff_right fun hreached => hreached.1 (Std.TreeSet.contains_iff_mem.mp hvisited)]
  | case3 visited top rest hfresh ih =>
      rw [List.mem_cons, ih,
        reachedFrom_cons_iff fun hmem => hfresh (Std.TreeSet.contains_iff_mem.mpr hmem)]

theorem mem_descend_related (table : KeyRelation κ) (key : κ) {target : κ} :
    target ∈ table.descend (table[key]?.getD ∅).toList.reverse ∅ ↔
      TransGen table.Related key target := by
  simp only [mem_descend, ReachedFrom, List.mem_reverse, Std.TreeSet.mem_toList,
    ← related_iff_getD, Std.TreeSet.not_mem_emptyc, not_false_eq_true, and_true, true_and]
  exact TransGen.head'_iff.symm

end KeyRelation
