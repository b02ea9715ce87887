import Mathlib.Data.Nat.Digits.Lemmas
import Mathlib.Tactic

/-! Conversion from one positional system to another by multiplying and adding. Lists of
digits have the lowest one first. -/

namespace Radix

/-- The digits of `factor` times a number plus `carry`; what is carried out of the highest
digit becomes new ones. -/
def mulAdd (base factor : Nat) : (carry : Nat) → List Nat → List Nat
  | carry, [] => Nat.digits base carry
  | carry, digit :: rest =>
      let value := digit * factor + carry
      value % base :: mulAdd base factor (value / base) rest

/-- The digits of a number without zeros in front, but one for zero. -/
def canonical (base value : Nat) : List Nat :=
  if value = 0 then [0] else Nat.digits base value

/-- What symbols denote, the highest one first. -/
def value (factor : Nat) (symbols : List Nat) : Nat :=
  symbols.foldl (fun total symbol => total * factor + symbol) 0

/-- One symbol after the other is brought into the digits of another system. -/
def convert (base factor : Nat) (symbols : List Nat) : List Nat :=
  symbols.foldl (fun digits symbol => mulAdd base factor symbol digits) [0]

variable {base factor : Nat}

theorem mulAdd_digits (hbase : 1 < base) (hfactor : 0 < factor) (carry number : Nat) :
    mulAdd base factor carry (Nat.digits base number) =
      Nat.digits base (number * factor + carry) := by
  induction number using Nat.strong_induction_on generalizing carry with
  | _ number ih =>
      rcases Nat.eq_zero_or_pos number with rfl | hpos
      · simp [mulAdd]
      · have hless : number / base < number := Nat.div_lt_self hpos hbase
        have hsplit : number * factor + carry =
            (number % base * factor + carry) + base * (number / base * factor) := by
          conv_lhs => rw [← Nat.mod_add_div number base]
          ring
        have hpositive : 0 < number * factor + carry :=
          Nat.add_pos_left (Nat.mul_pos hpos hfactor) carry
        rw [Nat.digits_def' hbase hpos, mulAdd, Nat.digits_def' hbase hpositive, hsplit,
          Nat.add_mul_mod_self_left, Nat.add_mul_div_left _ _ (Nat.zero_lt_of_lt hbase),
          Nat.add_comm (_ / base), ih _ hless]

theorem mulAdd_canonical (hbase : 1 < base) (hfactor : 0 < factor) (carry number : Nat) :
    mulAdd base factor carry (canonical base number) =
      canonical base (number * factor + carry) := by
  unfold canonical
  rcases Nat.eq_zero_or_pos number with rfl | hpos
  · rcases Nat.eq_zero_or_pos carry with rfl | hcarry
    · simp [mulAdd]
    · rw [if_pos rfl, Nat.zero_mul, Nat.zero_add, if_neg hcarry.ne', mulAdd,
        Nat.digits_def' hbase hcarry, Nat.zero_mul, Nat.zero_add, mulAdd]
  · have hpositive : 0 < number * factor + carry :=
      Nat.add_pos_left (Nat.mul_pos hpos hfactor) carry
    rw [if_neg hpos.ne', if_neg hpositive.ne', mulAdd_digits hbase hfactor]

theorem convert_eq (hbase : 1 < base) (hfactor : 0 < factor) (symbols : List Nat) :
    convert base factor symbols = canonical base (value factor symbols) := by
  have hrun : ∀ start, symbols.foldl (fun digits symbol => mulAdd base factor symbol digits)
      (canonical base start) =
        canonical base (symbols.foldl (fun total symbol => total * factor + symbol) start) := by
    induction symbols with
    | nil => simp
    | cons symbol rest ih =>
        intro start
        rw [List.foldl_cons, List.foldl_cons, mulAdd_canonical hbase hfactor, ih]
  exact hrun 0

theorem lt_of_mem_canonical (hbase : 1 < base) {number digit : Nat}
    (hdigit : digit ∈ canonical base number) : digit < base := by
  unfold canonical at hdigit
  split at hdigit
  · rw [List.mem_singleton.mp hdigit]
    exact Nat.zero_lt_of_lt hbase
  · exact Nat.digits_lt_base hbase hdigit

theorem length_canonical_pos (number : Nat) : 0 < (canonical base number).length := by
  unfold canonical
  split
  · exact Nat.one_pos
  · next hne => exact List.length_pos_iff.mpr (Nat.digits_ne_nil_iff_ne_zero.mpr hne)

theorem length_canonical_le_iff (hbase : 1 < base) {number width : Nat} (hwidth : 0 < width) :
    (canonical base number).length ≤ width ↔ number < base ^ width := by
  unfold canonical
  split
  · next hzero =>
      have hpow : 0 < base ^ width := Nat.pow_pos (Nat.zero_lt_of_lt hbase)
      simp only [List.length_singleton, hzero, hpow, iff_true]
      exact hwidth
  · exact Nat.digits_length_le_iff hbase number

theorem value_eq_ofDigits (symbols : List Nat) :
    value factor symbols = Nat.ofDigits factor symbols.reverse := by
  induction symbols using List.reverseRecOn with
  | nil => rfl
  | append_singleton rest symbol ih =>
      rw [value, List.foldl_append, List.foldl_cons, List.foldl_nil, ← value, ih,
        List.reverse_append, List.reverse_singleton, List.singleton_append, Nat.ofDigits_cons,
        Nat.mul_comm, Nat.add_comm]

theorem value_canonical (number : Nat) :
    value base (canonical base number).reverse = number := by
  rw [value_eq_ofDigits, List.reverse_reverse, canonical]
  split
  · next hzero => simp [hzero]
  · exact Nat.ofDigits_digits base number

theorem value_replicate_zero (count : Nat) (symbols : List Nat) :
    value factor (List.replicate count 0 ++ symbols) = value factor symbols := by
  induction count with
  | zero => rfl
  | succ count ih =>
      rw [List.replicate_succ, List.cons_append, value, List.foldl_cons, Nat.zero_mul]
      exact ih

theorem canonical_value_iff (hbase : 1 < base) {symbols : List Nat} (hne : symbols ≠ [])
    (hsymbols : ∀ symbol ∈ symbols, symbol < base) :
    (canonical base (value base symbols)).reverse = symbols ↔
      symbols.head? ≠ some 0 ∨ symbols = [0] := by
  constructor
  · intro hcanonical
    by_contra hnot
    obtain ⟨hhead, hlong⟩ := not_or.mp hnot
    rw [← hcanonical, ne_eq, not_not, List.head?_reverse, canonical] at hhead
    rw [← hcanonical, canonical] at hlong
    split at hhead
    · next hzero => exact hlong (by rw [if_pos hzero]; rfl)
    · next hpos =>
        rw [List.getLast?_eq_getLast_of_ne_nil (Nat.digits_ne_nil_iff_ne_zero.mpr hpos)] at hhead
        exact Nat.getLast_digit_ne_zero base hpos (Option.some.inj hhead)
  · rintro (hhead | rfl)
    · have hdigits : Nat.digits base (value base symbols) = symbols.reverse := by
        rw [value_eq_ofDigits]
        refine Nat.digits_ofDigits base hbase _ (by simpa using hsymbols) fun hrev => ?_
        rw [List.getLast_reverse]
        intro hzero
        exact hhead (by rw [← hzero, List.head?_eq_some_head])
      have hpos : value base symbols ≠ 0 := by
        rw [← Nat.digits_ne_nil_iff_ne_zero (b := base), hdigits]
        simpa using hne
      rw [canonical, if_neg hpos, hdigits, List.reverse_reverse]
    · simp [value, canonical]

end Radix
