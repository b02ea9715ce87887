import Mathlib.Data.List.Basic
import Mathlib.Data.List.Nodup
import Mathlib.Tactic

/-! Following the parents of items from a key until the parent is a root, visiting each key once. -/

namespace ParentWalk

variable {κ ν : Type} (lookup : κ → Option ν) (parent : ν → κ) (isRoot : κ → Bool)

/-- The items from one whose parent is the first root met to that of the key. -/
inductive PathTo : κ → List ν → Prop
  | root {key : κ} {item : ν} :
      lookup key = some item → isRoot (parent item) = true → PathTo key [item]
  | step {key : κ} {item : ν} {path : List ν} :
      lookup key = some item → isRoot (parent item) = false → PathTo (parent item) path →
        PathTo key (path ++ [item])

/-- The walk itself, with the keys it has visited and the items below the current key. -/
def walkBack [BEq κ] : (fuel : Nat) → (visited : List κ) → (key : κ) → (path : List ν) →
    Option (List ν)
  | 0, _, _, _ => none
  | fuel + 1, visited, key, path =>
      if visited.contains key then none
      else
        match lookup key with
        | none => none
        | some item =>
            if isRoot (parent item) then some (item :: path)
            else if (lookup (parent item)).isSome then
              walkBack fuel (key :: visited) (parent item) (item :: path)
            else none

variable {lookup : κ → Option ν} {parent : ν → κ} {isRoot : κ → Bool} {key : κ}
  {path left right : List ν}

namespace PathTo

theorem exists_lookup (hpath : PathTo lookup parent isRoot key path) :
    ∃ item, lookup key = some item ∧ path.getLast? = some item := by
  cases hpath with
  | root hitem => exact ⟨_, hitem, rfl⟩
  | step hitem => exact ⟨_, hitem, List.getLast?_concat⟩

theorem ne_nil (hpath : PathTo lookup parent isRoot key path) : path ≠ [] := by
  cases hpath <;> simp

theorem isRoot_head (hpath : PathTo lookup parent isRoot key path) :
    ∃ first, path.head? = some first ∧ isRoot (parent first) = true := by
  induction hpath with
  | root _ hroot => exact ⟨_, rfl, hroot⟩
  | @step _ item path _ _ hpath ih =>
      obtain ⟨first, hfirst, hroot⟩ := ih
      exact ⟨first, by rw [List.head?_append_of_ne_nil _ hpath.ne_nil, hfirst], hroot⟩

theorem unique (hleft : PathTo lookup parent isRoot key left)
    (hright : PathTo lookup parent isRoot key right) : left = right := by
  induction hleft generalizing right with
  | root hitem hroot =>
      cases hright with
      | root hother => rw [Option.some.inj (hitem.symm.trans hother)]
      | step hother hfree =>
          obtain rfl := Option.some.inj (hitem.symm.trans hother)
          rw [hroot] at hfree
          cases hfree
  | step hitem hfree _ ih =>
      cases hright with
      | root hother hroot =>
          obtain rfl := Option.some.inj (hitem.symm.trans hother)
          rw [hroot] at hfree
          cases hfree
      | step hother _ hrest =>
          obtain rfl := Option.some.inj (hitem.symm.trans hother)
          rw [ih hrest]

theorem exists_keys (hpath : PathTo lookup parent isRoot key path) :
    ∃ keys : List κ, keys.length = path.length ∧ keys.Nodup ∧
      ∀ other ∈ keys, ∃ shorter, PathTo lookup parent isRoot other shorter ∧
        shorter.length ≤ path.length := by
  induction hpath with
  | @root key item hitem hroot =>
      refine ⟨[key], rfl, List.nodup_singleton key, fun other hother => ?_⟩
      obtain rfl := List.mem_singleton.mp hother
      exact ⟨[item], .root hitem hroot, Nat.le_refl _⟩
  | @step key item path hitem hfree hpath ih =>
      obtain ⟨keys, hlength, hnodup, hshorter⟩ := ih
      have hwhole := PathTo.step hitem hfree hpath
      refine ⟨key :: keys, by simp [hlength], List.nodup_cons.mpr ⟨fun hmem => ?_, hnodup⟩,
        fun other hother => ?_⟩
      · obtain ⟨shorter, hother, hle⟩ := hshorter key hmem
        rw [hother.unique hwhole, List.length_append, List.length_singleton] at hle
        omega
      · rcases List.mem_cons.mp hother with rfl | hmem
        · exact ⟨_, hwhole, Nat.le_refl _⟩
        · obtain ⟨shorter, hother, hle⟩ := hshorter other hmem
          exact ⟨shorter, hother, by rw [List.length_append]; omega⟩

theorem length_le (hpath : PathTo lookup parent isRoot key path) {known : List κ}
    (hknown : ∀ other item, lookup other = some item → other ∈ known) :
    path.length ≤ known.length := by
  obtain ⟨keys, hlength, hnodup, hkeys⟩ := hpath.exists_keys
  rw [← hlength]
  refine (hnodup.subperm fun other hother => ?_).length_le
  obtain ⟨shorter, hshorter, -⟩ := hkeys other hother
  obtain ⟨item, hitem, -⟩ := hshorter.exists_lookup
  exact hknown other item hitem

theorem exists_tip {P : List ν → Prop} {known : List κ}
    (hknown : ∀ other item, lookup other = some item → other ∈ known)
    (hgrow : ∀ key path child item, PathTo lookup parent isRoot key path → P path →
      lookup child = some item → parent item = key → isRoot key = false ∧ P (path ++ [item]))
    (hpath : PathTo lookup parent isRoot key path) (hholds : P path) :
    ∃ tip rest, PathTo lookup parent isRoot tip (path ++ rest) ∧ P (path ++ rest) ∧
      ∀ child item, lookup child = some item → parent item ≠ tip := by
  induction hgap : known.length - path.length generalizing key path with
  | zero =>
      refine ⟨key, [], by rwa [List.append_nil], by rwa [List.append_nil], ?_⟩
      intro child item hitem hparent
      obtain ⟨hfree, -⟩ := hgrow key path child item hpath hholds hitem hparent
      subst hparent
      have hle := (PathTo.step hitem hfree hpath).length_le hknown
      rw [List.length_append, List.length_singleton] at hle
      omega
  | succ gap ih =>
      by_cases hlast : ∀ child item, lookup child = some item → parent item ≠ key
      · exact ⟨key, [], by rwa [List.append_nil], by rwa [List.append_nil], hlast⟩
      · push Not at hlast
        obtain ⟨child, item, hitem, hparent⟩ := hlast
        obtain ⟨hfree, hnext⟩ := hgrow key path child item hpath hholds hitem hparent
        subst hparent
        obtain ⟨tip, rest, htip, hrest, hend⟩ := ih (.step hitem hfree hpath) hnext
          (by rw [List.length_append, List.length_singleton]; omega)
        rw [List.append_assoc] at htip hrest
        exact ⟨tip, _, htip, hrest, hend⟩

end PathTo

section Walk

variable [BEq κ] {fuel : Nat} {visited : List κ}

theorem pathTo_of_walkBack {below whole : List ν}
    (hwalk : walkBack lookup parent isRoot fuel visited key below = some whole) :
    ∃ path, PathTo lookup parent isRoot key path ∧ whole = path ++ below := by
  induction fuel generalizing visited key below with
  | zero => cases hwalk
  | succ fuel ih =>
      unfold walkBack at hwalk
      split at hwalk
      · cases hwalk
      · split at hwalk
        · cases hwalk
        · next item hitem =>
            split at hwalk
            · next hroot =>
                cases hwalk
                exact ⟨[item], .root hitem hroot, rfl⟩
            · next hroot =>
                split at hwalk
                · obtain ⟨path, hpath, rfl⟩ := ih hwalk
                  exact ⟨path ++ [item], .step hitem (Bool.eq_false_of_not_eq_true hroot) hpath,
                    List.append_cons path item below⟩
                · cases hwalk

theorem walkBack_of_pathTo [LawfulBEq κ] (hpath : PathTo lookup parent isRoot key path)
    (hfuel : path.length ≤ fuel)
    (hvisited : ∀ other ∈ visited, ∀ longer, PathTo lookup parent isRoot other longer →
      path.length < longer.length) (below : List ν) :
    walkBack lookup parent isRoot fuel visited key below = some (path ++ below) := by
  induction hpath generalizing fuel visited below with
  | @root key item hitem hroot =>
      have hfresh : key ∉ visited := fun hmem =>
        absurd (hvisited key hmem _ (.root hitem hroot)) (Nat.lt_irrefl _)
      obtain ⟨fuel, rfl⟩ : ∃ more, fuel = more + 1 := ⟨fuel - 1, by simp at hfuel; omega⟩
      simp [walkBack, hfresh, hitem, hroot]
  | @step key item path hitem hfree hpath ih =>
      have hwhole := PathTo.step hitem hfree hpath
      have hfresh : key ∉ visited := fun hmem =>
        absurd (hvisited key hmem _ hwhole) (Nat.lt_irrefl _)
      rw [List.length_append, List.length_singleton] at hfuel
      obtain ⟨fuel, rfl⟩ : ∃ more, fuel = more + 1 := ⟨fuel - 1, by omega⟩
      obtain ⟨above, habove, -⟩ := hpath.exists_lookup
      have hrest := @ih fuel (key :: visited) (by omega) (fun other hother longer hlonger => by
        rcases List.mem_cons.mp hother with rfl | hmem
        · rw [hlonger.unique hwhole]
          simp
        · have hlt := hvisited other hmem longer hlonger
          rw [List.length_append] at hlt
          omega) (item :: below)
      simp [walkBack, hfresh, hitem, hfree, habove, hrest]

theorem walkBack_eq_some_iff [LawfulBEq κ] {known : List κ}
    (hknown : ∀ other item, lookup other = some item → other ∈ known)
    (hfuel : known.length ≤ fuel) :
    walkBack lookup parent isRoot fuel [] key [] = some path ↔
      PathTo lookup parent isRoot key path := by
  constructor
  · intro hwalk
    obtain ⟨found, hfound, rfl⟩ := pathTo_of_walkBack hwalk
    rwa [List.append_nil]
  · intro hpath
    rw [walkBack_of_pathTo hpath ((hpath.length_le hknown).trans hfuel) (by simp) [],
      List.append_nil]

end Walk

end ParentWalk
