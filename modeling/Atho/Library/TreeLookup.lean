import Std.Data.TreeMap.Lemmas
import Std.Data.TreeSet.Lemmas
import Mathlib.Data.Set.Insert
import Mathlib.Tactic

/-! The lookups of an ordered map as a function, and its keys as a set. -/

namespace Std.TreeMap

variable {κ ν : Type} [Ord κ] [Std.TransOrd κ] [Std.LawfulEqOrd κ]
  {table : Std.TreeMap κ ν} {key : κ} {value : ν}

theorem keys_insert :
    { other | other ∈ table.insert key value } = Insert.insert key { other | other ∈ table } := by
  ext other
  rw [Set.mem_insert_iff, Set.mem_ofPred_eq, mem_insert, LawfulEqOrd.compare_eq_iff_eq, eq_comm,
    Set.mem_ofPred_eq]

theorem keys_erase :
    { other | other ∈ table.erase key } = { other | other ∈ table } \ {key} := by
  ext other
  rw [Set.mem_sdiff, Set.mem_singleton_iff, Set.mem_ofPred_eq, mem_erase, ne_eq,
    LawfulEqOrd.compare_eq_iff_eq, eq_comm, and_comm, Set.mem_ofPred_eq]

theorem nodup_toList : table.toList.Nodup :=
  distinct_keys_toList.imp fun hne heq => hne (LawfulEqOrd.compare_eq_iff_eq.mpr
    (congrArg Prod.fst heq))

variable [DecidableEq κ]

theorem lookups_insert :
    (fun other => (table.insert key value)[other]?) =
      Function.update (fun other => table[other]?) key (some value) := by
  funext other
  simp only [getElem?_insert, LawfulEqOrd.compare_eq_iff_eq, Function.update_apply,
    @eq_comm _ key]

theorem lookups_insert_default {default : ν} :
    (fun other => (table.insert key value)[other]?.getD default) =
      Function.update (fun other => table[other]?.getD default) key value := by
  funext other
  rw [congrFun lookups_insert other, Function.update_apply, Function.update_apply]
  split <;> rfl

theorem lookups_erase :
    (fun other => (table.erase key)[other]?) =
      Function.update (fun other => table[other]?) key none := by
  funext other
  simp only [getElem?_erase, LawfulEqOrd.compare_eq_iff_eq, Function.update_apply,
    @eq_comm _ key]

theorem getElem?_insert_eq_some {other : κ} {found : ν} (hfresh : table[key]? = none) :
    (table.insert key value)[other]? = some found ↔
      (other = key ∧ found = value) ∨ table[other]? = some found := by
  simp only [getElem?_insert, LawfulEqOrd.compare_eq_iff_eq]
  split
  · next heq =>
      subst heq
      simp [hfresh, eq_comm]
  · next hne => simp [Ne.symm hne]

theorem getElem?_erase_eq_some {other : κ} {found : ν} :
    (table.erase key)[other]? = some found ↔ other ≠ key ∧ table[other]? = some found := by
  simp only [getElem?_erase, LawfulEqOrd.compare_eq_iff_eq]
  split
  · next heq => simp [heq]
  · next hne => simp [Ne.symm hne]

theorem getElem?_foldl_insert {pairs : List (κ × ν)} :
    (pairs.foldl (fun table pair => table.insert pair.1 pair.2) table)[key]? =
      ((pairs.reverse.find? fun pair => pair.1 = key).map Prod.snd).or table[key]? := by
  induction pairs generalizing table with
  | nil => simp
  | cons pair rest ih =>
      simp only [List.foldl_cons, ih, List.reverse_cons, List.find?_append, List.find?_singleton,
        getElem?_insert, LawfulEqOrd.compare_eq_iff_eq, decide_eq_true_eq]
      cases List.find? (fun pair => pair.1 = key) rest.reverse with
      | some found => rfl
      | none =>
          simp only [Option.map_none, Option.none_or]
          split <;> rfl

/-! The pairs of a map as a list without repetitions. -/

theorem toList_insert_perm_of_fresh (hfresh : table[key]? = none) :
    (table.insert key value).toList.Perm ((key, value) :: table.toList) := by
  have hnew : (key, value) ∉ table.toList := by
    rw [mem_toList_iff_getElem?_eq_some, hfresh]
    exact nofun
  refine (List.perm_ext_iff_of_nodup nodup_toList (nodup_toList.cons hnew)).mpr ?_
  rintro ⟨other, found⟩
  rw [List.mem_cons, mem_toList_iff_getElem?_eq_some, mem_toList_iff_getElem?_eq_some,
    getElem?_insert_eq_some hfresh, Prod.mk.injEq]

theorem toList_insert_perm_erase :
    (table.insert key value).toList.Perm ((key, value) :: (table.erase key).toList) := by
  have hnew : (key, value) ∉ (table.erase key).toList := by
    rw [mem_toList_iff_getElem?_eq_some, getElem?_erase_self]
    exact nofun
  refine (List.perm_ext_iff_of_nodup nodup_toList (nodup_toList.cons hnew)).mpr ?_
  rintro ⟨other, found⟩
  rw [List.mem_cons, mem_toList_iff_getElem?_eq_some, mem_toList_iff_getElem?_eq_some,
    getElem?_erase_eq_some, Prod.mk.injEq]
  simp only [getElem?_insert, LawfulEqOrd.compare_eq_iff_eq]
  split
  · next heq =>
      subst heq
      simp [eq_comm]
  · next hne => simp [Ne.symm hne]

theorem toList_erase_perm (hfound : table[key]? = some value) :
    table.toList.Perm ((key, value) :: (table.erase key).toList) := by
  have hgone : (key, value) ∉ (table.erase key).toList := by
    rw [mem_toList_iff_getElem?_eq_some, getElem?_erase_self]
    exact nofun
  refine (List.perm_ext_iff_of_nodup nodup_toList (nodup_toList.cons hgone)).mpr ?_
  rintro ⟨other, found⟩
  rw [List.mem_cons, mem_toList_iff_getElem?_eq_some, mem_toList_iff_getElem?_eq_some,
    getElem?_erase_eq_some, Prod.mk.injEq]
  by_cases heq : other = key
  · subst heq
    simp [hfound, eq_comm]
  · simp [heq]

end Std.TreeMap

namespace Std.TreeSet

variable {κ : Type} [Ord κ] [Std.TransOrd κ] [Std.LawfulEqOrd κ] {items : Std.TreeSet κ} {item : κ}

theorem nodup_toList : items.toList.Nodup :=
  distinct_toList.imp fun hne heq => hne (LawfulEqOrd.compare_eq_iff_eq.mpr heq)

theorem members_insert :
    { other | other ∈ items.insert item } = Insert.insert item { other | other ∈ items } := by
  ext other
  rw [Set.mem_insert_iff, Set.mem_ofPred_eq, mem_insert, LawfulEqOrd.compare_eq_iff_eq, eq_comm,
    Set.mem_ofPred_eq]

theorem members_erase :
    { other | other ∈ items.erase item } = { other | other ∈ items } \ {item} := by
  ext other
  rw [Set.mem_sdiff, Set.mem_singleton_iff, Set.mem_ofPred_eq, mem_erase, ne_eq,
    LawfulEqOrd.compare_eq_iff_eq, eq_comm, and_comm, Set.mem_ofPred_eq]

variable {keys : List κ} {key : κ}

theorem mem_foldl_insert : key ∈ keys.foldl insert items ↔ key ∈ items ∨ key ∈ keys := by
  induction keys generalizing items with
  | nil => simp
  | cons other keys ih =>
      rw [List.foldl_cons, ih, mem_insert, LawfulEqOrd.compare_eq_iff_eq, List.mem_cons, eq_comm]
      tauto

theorem mem_foldl_erase : key ∈ keys.foldl erase items ↔ key ∈ items ∧ key ∉ keys := by
  induction keys generalizing items with
  | nil => simp
  | cons other keys ih =>
      rw [List.foldl_cons, ih, mem_erase, ne_eq, LawfulEqOrd.compare_eq_iff_eq, List.mem_cons,
        eq_comm]
      tauto

end Std.TreeSet
