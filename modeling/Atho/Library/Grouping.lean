import Mathlib.Data.List.Sort
import Mathlib.Tactic
import Std.Data.TreeMap.Lemmas

/-! The positions of a list, grouped by the key that stands at them. -/

variable {κ : Type}

def fileUnder [Ord κ] (groups : Std.TreeMap κ (List Nat)) (entry : κ × Nat) :
    Std.TreeMap κ (List Nat) :=
  groups.insert entry.1 (groups[entry.1]?.getD [] ++ [entry.2])

/-- Each key with its positions. -/
def groupPositions [Ord κ] (keys : List κ) : Std.TreeMap κ (List Nat) :=
  keys.zipIdx.foldl fileUnder ∅

variable [DecidableEq κ]

/-- The positions of one key, in ascending order. -/
def positionsOf (keys : List κ) (key : κ) : List Nat :=
  (keys.zipIdx.filter (·.1 = key)).map Prod.snd

theorem mem_positionsOf {keys : List κ} {key : κ} {position : Nat} :
    position ∈ positionsOf keys key ↔ keys[position]? = some key := by
  simp [positionsOf, List.mem_zipIdx_iff_getElem?]

theorem pairwise_positionsOf (keys : List κ) (key : κ) :
    (positionsOf keys key).Pairwise (· < ·) := by
  have hall : (keys.zipIdx.map Prod.snd).Pairwise (· < ·) := by
    rw [List.zipIdx_map_snd]
    exact List.pairwise_lt_range'
  exact hall.sublist (List.filter_sublist.map Prod.snd)

variable [Ord κ] [Std.TransOrd κ] [Std.LawfulEqOrd κ]

theorem getElem?_fileUnder (groups : Std.TreeMap κ (List Nat)) (entry : κ × Nat) (key : κ) :
    (fileUnder groups entry)[key]? =
      if entry.1 = key then some (groups[key]?.getD [] ++ [entry.2]) else groups[key]? := by
  simp only [fileUnder, Std.TreeMap.getElem?_insert, Std.LawfulEqOrd.compare_eq_iff_eq]
  split
  · next heq => rw [heq]
  · rfl

theorem getElem?_foldl_fileUnder (entries : List (κ × Nat)) (groups : Std.TreeMap κ (List Nat))
    (key : κ) :
    (entries.foldl fileUnder groups)[key]? =
      if (entries.filter (·.1 = key)).isEmpty then groups[key]?
      else some (groups[key]?.getD [] ++ (entries.filter (·.1 = key)).map Prod.snd) := by
  induction entries generalizing groups with
  | nil => simp
  | cons entry entries ih =>
      rw [List.foldl_cons, ih, getElem?_fileUnder]
      by_cases hkey : entry.1 = key
      · rcases hrest : entries.filter (·.1 = key) with _ | ⟨first, rest⟩ <;> simp [hkey, hrest]
      · rw [List.filter_cons_of_neg (by simpa using hkey), if_neg hkey]

theorem getElem?_groupPositions (keys : List κ) (key : κ) :
    (groupPositions keys)[key]? =
      if (positionsOf keys key).isEmpty then none else some (positionsOf keys key) := by
  rw [groupPositions, getElem?_foldl_fileUnder, positionsOf, List.isEmpty_map]
  simp

theorem mem_toList_groupPositions {keys : List κ} {key : κ} {positions : List Nat} :
    (key, positions) ∈ (groupPositions keys).toList ↔
      positions ≠ [] ∧ positions = positionsOf keys key := by
  rw [Std.TreeMap.mem_toList_iff_getElem?_eq_some, getElem?_groupPositions]
  split
  · next hempty =>
      rw [List.isEmpty_iff.mp hempty]
      simp
  · next hne =>
      rw [Option.some.injEq, eq_comm (a := positions)]
      constructor
      · rintro rfl
        exact ⟨mt List.isEmpty_iff.mpr hne, rfl⟩
      · exact And.right

theorem groupPositions_perm (keys : List κ) :
    ((groupPositions keys).toList.flatMap Prod.snd).Perm (List.range keys.length) := by
  have hgroup : ∀ group ∈ (groupPositions keys).toList, group.2 = positionsOf keys group.1 :=
    fun group hgroup => (mem_toList_groupPositions.mp hgroup).2
  have hdistinct : (groupPositions keys).toList.Pairwise fun left right =>
      left.1 ≠ right.1 := by
    refine Std.TreeMap.distinct_keys_toList.imp fun hne heq => hne ?_
    exact Std.LawfulEqOrd.compare_eq_iff_eq.mpr heq
  refine (List.perm_ext_iff_of_nodup (List.nodup_flatMap.mpr ⟨?_, ?_⟩) List.nodup_range).mpr ?_
  · intro group hmem
    rw [hgroup group hmem]
    exact (pairwise_positionsOf keys group.1).imp fun hlt => hlt.ne
  · refine hdistinct.imp_of_mem fun {left right} hleft hright hne => ?_
    intro position hposition hother
    rw [hgroup left hleft, mem_positionsOf] at hposition
    rw [hgroup right hright, mem_positionsOf, hposition] at hother
    exact hne (Option.some.inj hother)
  · intro position
    rw [List.mem_flatMap, List.mem_range]
    constructor
    · rintro ⟨group, hmem, hposition⟩
      rw [hgroup group hmem, mem_positionsOf] at hposition
      exact (List.getElem?_eq_some_iff.mp hposition).1
    · intro hlt
      have hposition : position ∈ positionsOf keys keys[position] :=
        mem_positionsOf.mpr (List.getElem?_eq_getElem hlt)
      exact ⟨(keys[position], positionsOf keys keys[position]),
        mem_toList_groupPositions.mpr ⟨List.ne_nil_of_mem hposition, rfl⟩, hposition⟩

theorem pairwise_insertionSort_of_nodup {α ι : Type} {r : α → α → Prop} [DecidableRel r]
    [Std.Total r] [IsTrans α r] {rank : α → ι} {items : List α}
    (hnodup : (items.map rank).Nodup) :
    (items.insertionSort r).Pairwise fun left right => r left right ∧ rank left ≠ rank right := by
  have hperm := List.perm_insertionSort r items
  have hdistinct := List.pairwise_map.mp ((hperm.map rank).nodup_iff.mpr hnodup)
  exact (List.pairwise_insertionSort r items).imp₂ (fun _ _ => And.intro) hdistinct
