import Mathlib.Data.Finmap
import Mathlib.Tactic

/-! Hash trees that pair neighbours layer by layer and pair the last node of an
odd layer with itself. Such a tree does not determine its leaves: a layer and
the layer with its last node repeated have the same parents. It does when the
leaves are distinct and no leaf hashes the same input as an inner node. -/

namespace PairTree

variable (pair : α → α → ι) (hash : ι → α)

/-- The inputs hashed for the layer above. -/
def pairs : List α → List ι
  | [] => []
  | [last] => [pair last last]
  | left :: right :: rest => pair left right :: pairs rest

def parents (layer : List α) : List α :=
  (pairs pair layer).map hash

/-- Build layer after layer until one node is left. -/
def climb : (fuel : Nat) → List α → List α
  | 0, layer => layer
  | fuel + 1, layer =>
      if layer.length ≤ 1 then layer else climb fuel (parents pair hash layer)

def root (layer : List α) : Option α :=
  (climb pair hash layer.length layer).head?

/-- Everything that `climb` hashes. -/
def climbInputs : (fuel : Nat) → List α → List ι
  | 0, _ => []
  | fuel + 1, layer =>
      if layer.length ≤ 1 then []
      else pairs pair layer ++ climbInputs fuel (parents pair hash layer)

variable {pair hash}

theorem length_pairs (layer : List α) :
    (pairs pair layer).length = (layer.length + 1) / 2 := by
  fun_induction pairs pair layer with
  | case1 => simp
  | case2 last => simp
  | case3 left right rest ih =>
      simp only [List.length_cons, ih]
      omega

theorem length_parents (layer : List α) :
    (parents pair hash layer).length = (layer.length + 1) / 2 := by
  rw [parents, List.length_map, length_pairs]

theorem length_climb {fuel : Nat} {layer : List α} (hfuel : layer.length ≤ fuel)
    (hne : layer ≠ []) : (climb pair hash fuel layer).length = 1 := by
  have hpos := List.length_pos_iff.mpr hne
  induction fuel generalizing layer with
  | zero => omega
  | succ fuel ih =>
      rw [climb]
      split
      · omega
      · have hparents := @length_parents _ _ pair hash layer
        refine ih (by omega) (List.ne_nil_of_length_pos (by omega)) (by omega)

theorem climb_eq_of_root_eq {left right : List α} (hleft : left ≠ []) (hright : right ≠ [])
    (hroot : root pair hash left = root pair hash right) :
    climb pair hash left.length left = climb pair hash right.length right := by
  obtain ⟨top, htop⟩ := List.length_eq_one_iff.mp
    (@length_climb _ _ pair hash left.length left le_rfl hleft)
  obtain ⟨top', htop'⟩ := List.length_eq_one_iff.mp
    (@length_climb _ _ pair hash right.length right le_rfl hright)
  rw [root, root, htop, htop'] at hroot
  simp_all

/-- Climbing is going to the parents some number of times, hashing the pairs of
every layer passed. -/
theorem climb_eq_iterate (fuel : Nat) (layer : List α) :
    ∃ depth, climb pair hash fuel layer = (parents pair hash)^[depth] layer ∧
      ∀ level < depth, ∀ input ∈ pairs pair ((parents pair hash)^[level] layer),
        input ∈ climbInputs pair hash fuel layer := by
  induction fuel generalizing layer with
  | zero => exact ⟨0, rfl, by simp⟩
  | succ fuel ih =>
      rw [climb, climbInputs]
      split
      · exact ⟨0, rfl, by simp⟩
      · obtain ⟨depth, hclimb, hinputs⟩ := ih (parents pair hash layer)
        refine ⟨depth + 1, hclimb, ?_⟩
        intro level hlevel input hinput
        cases level with
        | zero => exact List.mem_append_left _ hinput
        | succ level =>
            exact List.mem_append_right _ (hinputs level (by omega) input hinput)

theorem eq_of_map_eq {inputs : Set ι} (hhash : Set.InjOn hash inputs) {left right : List ι}
    (hleft : ∀ input ∈ left, input ∈ inputs) (hright : ∀ input ∈ right, input ∈ inputs)
    (heq : left.map hash = right.map hash) : left = right := by
  induction left generalizing right with
  | nil => simpa using heq.symm
  | cons head tail ih =>
      cases right with
      | nil => simp at heq
      | cons head' tail' =>
          simp only [List.map_cons, List.cons.injEq, List.forall_mem_cons] at heq hleft hright
          rw [hhash hleft.1 hright.1 heq.1, ih hleft.2 hright.2 heq.2]

section Injective

variable (hpair : ∀ {left right left' right'},
  pair left right = pair left' right' → left = left' ∧ right = right')
variable {inputs : Set ι} (hhash : Set.InjOn hash inputs)

include hpair

theorem pairs_injective_of_length {left right : List α}
    (hlength : left.length = right.length) (heq : pairs pair left = pairs pair right) :
    left = right := by
  fun_induction pairs pair left generalizing right with
  | case1 => exact (List.length_eq_zero_iff.mp hlength.symm).symm
  | case2 last =>
      obtain ⟨last', rfl⟩ := List.length_eq_one_iff.mp hlength.symm
      simp only [pairs, List.cons.injEq, and_true] at heq
      rw [(hpair heq).1]
  | case3 first second rest ih =>
      match right with
      | [] | [_] => simp at hlength
      | first' :: second' :: rest' =>
          simp only [pairs, List.cons.injEq] at heq
          obtain ⟨rfl, rfl⟩ := hpair heq.1
          rw [ih (by simpa using hlength) heq.2]

theorem length_eq_of_nodup {left right : List α} (hleft : left.Nodup)
    (hright : right.Nodup) (heq : pairs pair left = pairs pair right) :
    left.length = right.length := by
  fun_induction pairs pair left generalizing right with
  | case1 =>
      have := congrArg List.length heq
      simp only [List.length_nil, length_pairs] at this
      simp only [List.length_nil]
      omega
  | case2 last =>
      match right with
      | [] => simp [pairs] at heq
      | [_] => rfl
      | first' :: second' :: rest' =>
          simp only [pairs, List.cons.injEq] at heq
          obtain ⟨rfl, rfl⟩ := hpair heq.1
          simp at hright
  | case3 first second rest ih =>
      match right with
      | [] => simp [pairs] at heq
      | [last'] =>
          simp only [pairs, List.cons.injEq] at heq
          obtain ⟨rfl, rfl⟩ := hpair heq.1
          simp at hleft
      | first' :: second' :: rest' =>
          simp only [pairs, List.cons.injEq] at heq
          simp only [List.nodup_cons] at hleft hright
          simp [ih hleft.2.2 hright.2.2 heq.2]

omit hpair in
theorem exists_mem_of_mem_pairs {layer : List α} {input : ι}
    (hmem : input ∈ pairs pair layer) :
    ∃ first ∈ layer, ∃ second, input = pair first second := by
  fun_induction pairs pair layer with
  | case1 => simp at hmem
  | case2 last => exact ⟨last, by simp, last, by simpa using hmem⟩
  | case3 left right rest ih =>
      rcases List.mem_cons.mp hmem with rfl | hmem
      · exact ⟨left, by simp, right, rfl⟩
      · obtain ⟨first, hfirst, second, hinput⟩ := ih hmem
        exact ⟨first, by simp [hfirst], second, hinput⟩

theorem nodup_pairs {layer : List α} (hnodup : layer.Nodup) :
    (pairs pair layer).Nodup := by
  fun_induction pairs pair layer with
  | case1 => exact List.nodup_nil
  | case2 last => exact List.nodup_singleton _
  | case3 left right rest ih =>
      simp only [List.nodup_cons, List.mem_cons, not_or] at hnodup
      refine List.nodup_cons.mpr ⟨?_, ih hnodup.2.2⟩
      intro hmem
      obtain ⟨first, hfirst, second, heq⟩ := exists_mem_of_mem_pairs hmem
      obtain ⟨rfl, -⟩ := hpair heq
      exact hnodup.1.2 hfirst

include hhash

theorem parents_injective_of_length {left right : List α}
    (hleft : ∀ input ∈ pairs pair left, input ∈ inputs)
    (hright : ∀ input ∈ pairs pair right, input ∈ inputs)
    (hlength : left.length = right.length)
    (heq : parents pair hash left = parents pair hash right) : left = right :=
  pairs_injective_of_length hpair hlength (eq_of_map_eq hhash hleft hright heq)

theorem parents_injective_of_nodup {left right : List α}
    (hleft : ∀ input ∈ pairs pair left, input ∈ inputs)
    (hright : ∀ input ∈ pairs pair right, input ∈ inputs)
    (hnodup : left.Nodup) (hnodup' : right.Nodup)
    (heq : parents pair hash left = parents pair hash right) : left = right := by
  have hpairs := eq_of_map_eq hhash hleft hright heq
  exact pairs_injective_of_length hpair (length_eq_of_nodup hpair hnodup hnodup' hpairs) hpairs

theorem nodup_parents {layer : List α} (hinputs : ∀ input ∈ pairs pair layer, input ∈ inputs)
    (hnodup : layer.Nodup) : (parents pair hash layer).Nodup :=
  (nodup_pairs hpair hnodup).map_on fun _ hleft _ hright heq =>
    hhash (hinputs _ hleft) (hinputs _ hright) heq

theorem nodup_iterate {layer : List α} {depth : Nat}
    (hinputs : ∀ level < depth,
      ∀ input ∈ pairs pair ((parents pair hash)^[level] layer), input ∈ inputs)
    (hnodup : layer.Nodup) : ((parents pair hash)^[depth] layer).Nodup := by
  induction depth with
  | zero => exact hnodup
  | succ depth ih =>
      rw [Function.iterate_succ_apply']
      refine nodup_parents hpair hhash (hinputs depth (by omega)) (ih ?_)
      exact fun level hlevel => hinputs level (by omega)

/-- Going down from a common layer, the shallower tree's leaves are a layer of
the deeper one. -/
theorem descend {left right : List α} {depth extra : Nat} (hleft : left.Nodup)
    (hright : right.Nodup)
    (hinputs : ∀ level < depth,
      ∀ input ∈ pairs pair ((parents pair hash)^[level] left), input ∈ inputs)
    (hinputs' : ∀ level < depth + extra,
      ∀ input ∈ pairs pair ((parents pair hash)^[level] right), input ∈ inputs)
    (heq : (parents pair hash)^[depth] left = (parents pair hash)^[depth + extra] right) :
    left = (parents pair hash)^[extra] right := by
  induction depth with
  | zero => simpa using heq
  | succ depth ih =>
      rw [Nat.add_right_comm, Function.iterate_succ_apply', Function.iterate_succ_apply'] at heq
      refine ih (fun level hlevel => hinputs level (by omega))
        (fun level hlevel => hinputs' level (by omega)) ?_
      refine parents_injective_of_nodup hpair hhash (hinputs depth (by omega))
        (hinputs' (depth + extra) (by omega)) ?_ ?_ heq
      · exact nodup_iterate hpair hhash (fun level hlevel => hinputs level (by omega)) hleft
      · exact nodup_iterate hpair hhash (fun level hlevel => hinputs' level (by omega)) hright

omit hpair in
theorem eq_zero_of_leaves_eq_iterate {leaves : List ι} {right : List α} {extra : Nat}
    (hne : leaves ≠ []) (hleaves : ∀ leaf ∈ leaves, leaf ∈ inputs)
    (hseparate : ∀ leaf ∈ leaves, ∀ first second, leaf ≠ pair first second)
    (hinputs : ∀ level < extra,
      ∀ input ∈ pairs pair ((parents pair hash)^[level] right), input ∈ inputs)
    (heq : leaves.map hash = (parents pair hash)^[extra] right) : extra = 0 := by
  cases extra with
  | zero => rfl
  | succ extra =>
      exfalso
      rw [Function.iterate_succ_apply'] at heq
      have hpairs := eq_of_map_eq hhash hleaves (hinputs extra (by omega)) heq
      obtain ⟨leaf, hleaf⟩ := List.exists_mem_of_ne_nil leaves hne
      obtain ⟨first, -, second, hinput⟩ := exists_mem_of_mem_pairs (hpairs ▸ hleaf)
      exact hseparate leaf hleaf first second hinput

/-- What makes a tree determine its leaves, when all it hashes is in `inputs`. -/
structure Committed (pair : α → α → ι) (hash : ι → α) (inputs : Set ι)
    (leaves : List ι) : Prop where
  ne_nil : leaves ≠ []
  leaves_mem : ∀ leaf ∈ leaves, leaf ∈ inputs
  climb_mem : ∀ input ∈ climbInputs pair hash leaves.length (leaves.map hash), input ∈ inputs
  nodup : leaves.Nodup
  separate : ∀ leaf ∈ leaves, ∀ first second, leaf ≠ pair first second

omit hpair in
theorem Committed.nodup_map {leaves : List ι} (hcommitted : Committed pair hash inputs leaves) :
    (leaves.map hash).Nodup :=
  hcommitted.nodup.map_on fun _ hleft _ hright heq =>
    hhash (hcommitted.leaves_mem _ hleft) (hcommitted.leaves_mem _ hright) heq

/-- Distinct leaves that no inner node can be taken for are determined by the
root. -/
theorem leaves_eq_of_root_eq {left right : List ι}
    (hleft : Committed pair hash inputs left) (hright : Committed pair hash inputs right)
    (hroot : root pair hash (left.map hash) = root pair hash (right.map hash)) :
    left = right := by
  have htop := climb_eq_of_root_eq (by simpa using hleft.ne_nil)
    (by simpa using hright.ne_nil) hroot
  rw [List.length_map, List.length_map] at htop
  obtain ⟨depth, hclimb, hpairs⟩ := @climb_eq_iterate _ _ pair hash left.length (left.map hash)
  obtain ⟨depth', hclimb', hpairs'⟩ :=
    @climb_eq_iterate _ _ pair hash right.length (right.map hash)
  rw [hclimb, hclimb'] at htop
  have hlevels : ∀ level < depth,
      ∀ input ∈ pairs pair ((parents pair hash)^[level] (left.map hash)), input ∈ inputs :=
    fun level hlevel input hinput =>
      hleft.climb_mem input (hpairs level hlevel input hinput)
  have hlevels' : ∀ level < depth',
      ∀ input ∈ pairs pair ((parents pair hash)^[level] (right.map hash)), input ∈ inputs :=
    fun level hlevel input hinput =>
      hright.climb_mem input (hpairs' level hlevel input hinput)
  -- The shallower tree is descended to its leaves; the other must end there too.
  rcases Nat.le_total depth depth' with hle | hle
  · obtain ⟨extra, rfl⟩ := Nat.exists_eq_add_of_le hle
    have hlayer := descend hpair hhash (hleft.nodup_map hhash) (hright.nodup_map hhash)
      hlevels hlevels' htop
    obtain rfl := eq_zero_of_leaves_eq_iterate hhash hleft.ne_nil hleft.leaves_mem
      hleft.separate (fun level hlevel => hlevels' level (by omega)) hlayer
    exact eq_of_map_eq hhash hleft.leaves_mem hright.leaves_mem hlayer
  · obtain ⟨extra, rfl⟩ := Nat.exists_eq_add_of_le hle
    have hlayer := descend hpair hhash (hright.nodup_map hhash) (hleft.nodup_map hhash)
      hlevels' hlevels htop.symm
    obtain rfl := eq_zero_of_leaves_eq_iterate hhash hright.ne_nil hright.leaves_mem
      hright.separate (fun level hlevel => hlevels level (by omega)) hlayer
    exact (eq_of_map_eq hhash hright.leaves_mem hleft.leaves_mem hlayer).symm

theorem layer_eq_of_climb_eq {fuel : Nat} {left right : List α}
    (hlength : left.length = right.length)
    (hleft : ∀ input ∈ climbInputs pair hash fuel left, input ∈ inputs)
    (hright : ∀ input ∈ climbInputs pair hash fuel right, input ∈ inputs)
    (heq : climb pair hash fuel left = climb pair hash fuel right) : left = right := by
  induction fuel generalizing left right with
  | zero => exact heq
  | succ fuel ih =>
      rw [climb, climb, hlength] at heq
      rw [climbInputs, hlength] at hleft
      rw [climbInputs] at hright
      split at heq
      · exact heq
      · next hlong =>
          rw [if_neg hlong] at hleft hright
          simp only [List.mem_append, or_imp, forall_and] at hleft hright
          have hparents : (parents pair hash left).length = (parents pair hash right).length := by
            rw [length_parents, length_parents, hlength]
          have hlayers := ih hparents hleft.2 hright.2 heq
          exact parents_injective_of_length hpair hhash hleft.1 hright.1 hlength hlayers

end Injective

end PairTree
