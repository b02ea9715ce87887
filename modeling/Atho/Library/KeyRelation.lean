import Std.Data.TreeMap.Lemmas
import Std.Data.TreeSet.Lemmas
import Mathlib.Tactic

/-! A relation between keys, kept as a map from each key to the keys it is related to, and two
such maps that are each other's inverse. -/

/-- Each key with the keys it is related to. -/
abbrev KeyRelation (κ : Type) [Ord κ] := Std.TreeMap κ (Std.TreeSet κ)

namespace KeyRelation

variable {κ : Type} [Ord κ]

def Related (table : KeyRelation κ) (left right : κ) : Prop :=
  ∃ items, table[left]? = some items ∧ right ∈ items

def relate (table : KeyRelation κ) (left right : κ) : KeyRelation κ :=
  table.insert left ((table[left]?.getD ∅).insert right)

/-- A key that is related to nothing any more is forgotten. -/
def unrelate (table : KeyRelation κ) (left right : κ) : KeyRelation κ :=
  match table[left]? with
  | none => table
  | some items =>
      if (items.erase right).isEmpty then table.erase left
      else table.insert left (items.erase right)

/-! A relation and its inverse. -/

def Inverse (forward backward : KeyRelation κ) : Prop :=
  ∀ a b, forward.Related a b ↔ backward.Related b a

/-- Relate a key to each of a list. -/
def link (tables : KeyRelation κ × KeyRelation κ) (key : κ) (targets : List κ) :
    KeyRelation κ × KeyRelation κ :=
  (if targets.isEmpty then tables.1 else tables.1.insert key (.ofList targets),
    targets.foldl (fun backward target => backward.relate target key) tables.2)

/-- Forget a key, on the left as well as on the right. -/
def unlink (tables : KeyRelation κ × KeyRelation κ) (key : κ) :
    KeyRelation κ × KeyRelation κ :=
  let backward := (tables.1[key]?.getD ∅).toList.foldl
    (fun backward target => backward.unrelate target key) tables.2
  ((backward[key]?.getD ∅).toList.foldl (fun forward source => forward.unrelate source key)
      (tables.1.erase key),
    backward.erase key)

variable {table : KeyRelation κ} {tables : KeyRelation κ × KeyRelation κ}
  {left right key a b : κ} {targets : List κ}

theorem related_iff_getD : table.Related a b ↔ b ∈ table[a]?.getD ∅ := by
  rw [Related]
  cases table[a]? <;> simp

variable [Std.TransOrd κ]

theorem Related.mem (hrelated : table.Related a b) : a ∈ table := by
  obtain ⟨items, hitems, -⟩ := hrelated
  exact Std.TreeMap.mem_iff_isSome_getElem?.mpr (by rw [hitems]; rfl)

theorem not_related_empty : ¬Related (∅ : KeyRelation κ) a b := by
  rintro ⟨items, hitems, -⟩
  simp at hitems

/-! Tables in which no key is filed with nothing. -/

def Proper (table : KeyRelation κ) : Prop :=
  ∀ (key : κ) (items : Std.TreeSet κ), table[key]? = some items → items.isEmpty = false

theorem Proper.relate (hproper : table.Proper) : (table.relate left right).Proper := by
  intro key items hitems
  rw [KeyRelation.relate, Std.TreeMap.getElem?_insert] at hitems
  split at hitems
  · cases hitems
    exact Std.TreeSet.isEmpty_insert
  · exact hproper key items hitems

theorem Proper.unrelate (hproper : table.Proper) : (table.unrelate left right).Proper := by
  intro key items hitems
  rw [KeyRelation.unrelate] at hitems
  split at hitems
  · exact hproper key items hitems
  · next found hfound =>
      split at hitems
      · rw [Std.TreeMap.getElem?_erase] at hitems
        split at hitems
        · cases hitems
        · exact hproper key items hitems
      · next hnonempty =>
          rw [Std.TreeMap.getElem?_insert] at hitems
          split at hitems
          · cases hitems
            exact Bool.not_eq_true _ ▸ hnonempty
          · exact hproper key items hitems

variable [Std.LawfulEqOrd κ]

/-! The keys that a table has an entry for. -/

theorem mem_relate : a ∈ table.relate left right ↔ a = left ∨ a ∈ table := by
  rw [relate, Std.TreeMap.mem_insert, Std.LawfulEqOrd.compare_eq_iff_eq, eq_comm]

theorem mem_of_mem_unrelate (hmem : a ∈ table.unrelate left right) : a ∈ table := by
  rw [unrelate] at hmem
  split at hmem
  · exact hmem
  · next items hitems =>
      split at hmem
      · exact Std.TreeMap.mem_of_mem_erase hmem
      · rw [Std.TreeMap.mem_insert, Std.LawfulEqOrd.compare_eq_iff_eq] at hmem
        rcases hmem with rfl | hmem
        · exact Std.TreeMap.mem_iff_isSome_getElem?.mpr (by rw [hitems]; rfl)
        · exact hmem

theorem mem_foldl_relate {keys : List κ} :
    a ∈ keys.foldl (fun table key => table.relate key right) table ↔ a ∈ keys ∨ a ∈ table := by
  induction keys generalizing table with
  | nil => simp
  | cons key keys ih =>
      rw [List.foldl_cons, ih, mem_relate, List.mem_cons]
      tauto

theorem mem_of_mem_foldl_unrelate {keys : List κ}
    (hmem : a ∈ keys.foldl (fun table key => table.unrelate key right) table) : a ∈ table := by
  induction keys generalizing table with
  | nil => exact hmem
  | cons key keys ih => exact mem_of_mem_unrelate (ih hmem)

theorem mem_link (hmem : a ∈ (link tables key targets).1) : a = key ∨ a ∈ tables.1 := by
  rw [link] at hmem
  dsimp only at hmem
  split at hmem
  · exact .inr hmem
  · rwa [Std.TreeMap.mem_insert, Std.LawfulEqOrd.compare_eq_iff_eq, eq_comm] at hmem

theorem mem_unlink_forward (hmem : a ∈ (unlink tables key).1) : a ≠ key ∧ a ∈ tables.1 := by
  have herased := mem_of_mem_foldl_unrelate hmem
  rwa [Std.TreeMap.mem_erase, ne_eq, Std.LawfulEqOrd.compare_eq_iff_eq, eq_comm] at herased

theorem mem_unlink_backward (hmem : a ∈ (unlink tables key).2) : a ≠ key ∧ a ∈ tables.2 := by
  rw [unlink, Std.TreeMap.mem_erase, ne_eq, Std.LawfulEqOrd.compare_eq_iff_eq, eq_comm] at hmem
  exact ⟨hmem.1, mem_of_mem_foldl_unrelate hmem.2⟩

/-! What is related. -/

variable [DecidableEq κ]

theorem related_insert {items : Std.TreeSet κ} :
    Related (table.insert left items) a b ↔
      (a = left ∧ b ∈ items) ∨ (a ≠ left ∧ table.Related a b) := by
  simp only [related_iff_getD, Std.TreeMap.getElem?_insert, Std.LawfulEqOrd.compare_eq_iff_eq]
  split
  · next heq => simp [heq]
  · next hne => simp [Ne.symm hne]

theorem related_erase : Related (table.erase left) a b ↔ a ≠ left ∧ table.Related a b := by
  simp only [related_iff_getD, Std.TreeMap.getElem?_erase, Std.LawfulEqOrd.compare_eq_iff_eq]
  split
  · next heq => simp [heq]
  · next hne => simp [Ne.symm hne]

theorem related_relate :
    (table.relate left right).Related a b ↔ (a = left ∧ b = right) ∨ table.Related a b := by
  rw [relate, related_insert, Std.TreeSet.mem_insert, Std.LawfulEqOrd.compare_eq_iff_eq]
  by_cases heq : a = left
  · subst heq
    simp [related_iff_getD, eq_comm]
  · simp [heq]

theorem related_unrelate :
    (table.unrelate left right).Related a b ↔ ¬(a = left ∧ b = right) ∧ table.Related a b := by
  rw [unrelate]
  split
  · next hnone =>
      refine ⟨fun hrelated => ⟨?_, hrelated⟩, And.right⟩
      rintro ⟨rfl, -⟩
      obtain ⟨items, hitems, -⟩ := hrelated
      rw [hnone] at hitems
      cases hitems
  · next items hitems =>
      have hleft : table.Related left b ↔ b ∈ items := by
        rw [related_iff_getD, hitems, Option.getD_some]
      have herased : b ∈ items.erase right ↔ b ≠ right ∧ b ∈ items := by
        rw [Std.TreeSet.mem_erase, ne_eq, Std.LawfulEqOrd.compare_eq_iff_eq, eq_comm]
      by_cases heq : a = left
      · subst heq
        split
        · next hempty =>
            have hnone : b ∉ items.erase right := Std.TreeSet.not_mem_of_isEmpty hempty
            rw [herased] at hnone
            simp only [related_erase, hleft]
            tauto
        · simp only [related_insert, hleft, herased]
          tauto
      · split
        · simp [related_erase, heq]
        · simp [related_insert, heq]

theorem related_foldl_relate {keys : List κ} :
    (keys.foldl (fun table key => table.relate key right) table).Related a b ↔
      (a ∈ keys ∧ b = right) ∨ table.Related a b := by
  induction keys generalizing table with
  | nil => simp
  | cons key keys ih =>
      rw [List.foldl_cons, ih, related_relate, List.mem_cons]
      tauto

theorem related_foldl_unrelate {keys : List κ} :
    (keys.foldl (fun table key => table.unrelate key right) table).Related a b ↔
      ¬(a ∈ keys ∧ b = right) ∧ table.Related a b := by
  induction keys generalizing table with
  | nil => simp
  | cons key keys ih =>
      rw [List.foldl_cons, ih, related_unrelate, List.mem_cons]
      tauto

theorem related_link (hfresh : key ∉ tables.1) :
    (link tables key targets).1.Related a b ↔
      (a = key ∧ b ∈ targets) ∨ tables.1.Related a b := by
  have hnone : ¬tables.1.Related key b := fun hrelated => hfresh hrelated.mem
  rw [link]
  cases targets with
  | nil => simp
  | cons target targets =>
      simp only [List.isEmpty_cons, Bool.false_eq_true, if_false, related_insert,
        Std.TreeSet.mem_ofList, List.contains_iff_mem]
      by_cases heq : a = key
      · subst heq
        simp [hnone]
      · simp [heq]

theorem inverse_link (hfresh : key ∉ tables.1) (hinverse : Inverse tables.1 tables.2) :
    Inverse (link tables key targets).1 (link tables key targets).2 := by
  intro a b
  rw [related_link hfresh, link, related_foldl_relate, hinverse a b]
  tauto

theorem unlink_backward (hinverse : Inverse tables.1 tables.2) :
    (unlink tables key).2.Related b a ↔ b ≠ key ∧ a ≠ key ∧ tables.1.Related a b := by
  rw [unlink, related_erase, related_foldl_unrelate, Std.TreeSet.mem_toList, ← related_iff_getD,
    ← hinverse a b]
  by_cases heq : a = key
  · subst heq
    tauto
  · simp [heq]

theorem unlink_forward (hinverse : Inverse tables.1 tables.2) :
    (unlink tables key).1.Related a b ↔ b ≠ key ∧ a ≠ key ∧ tables.1.Related a b := by
  rw [unlink, related_foldl_unrelate, related_erase, Std.TreeSet.mem_toList, ← related_iff_getD,
    related_foldl_unrelate, Std.TreeSet.mem_toList, ← related_iff_getD, ← hinverse a key]
  by_cases heq : b = key
  · subst heq
    by_cases hself : a = b
    · simp [hself]
    · simp only [hself, and_false, not_false_eq_true, true_and, and_true, ne_eq]
      tauto
  · simp [heq]

theorem inverse_unlink (hinverse : Inverse tables.1 tables.2) :
    Inverse (unlink tables key).1 (unlink tables key).2 := by
  intro a b
  rw [unlink_forward hinverse, unlink_backward hinverse]

end KeyRelation
