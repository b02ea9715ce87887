import Atho.Library.Checked
import Atho.Library.Radix

/-! Numbers written in decimal digits, and machine words read from them. -/

namespace UInt64

def checkedMul (left right : UInt64) : Option UInt64 :=
  if left.toNat * right.toNat < 2 ^ 64 then some (left * right) else none

theorem checkedMul_eq_some {left right product : UInt64} :
    left.checkedMul right = some product ↔ product.toNat = left.toNat * right.toNat := by
  have hbound := product.toNat_lt
  unfold checkedMul
  split
  · next hlt =>
      rw [Option.some.injEq, ← UInt64.toNat_inj, UInt64.toNat_mul, Nat.mod_eq_of_lt hlt]
      exact eq_comm
  · next hge =>
      simp only [reduceCtorEq, false_iff]
      omega

end UInt64

namespace Decimal

def digitChar (digit : Nat) : Char :=
  Char.ofNat (48 + digit)

def digitValue (char : Char) : Nat :=
  char.toNat - 48

/-- The digits of a number, without zeros in front. -/
def text (number : Nat) : List Char :=
  (Radix.canonical 10 number).reverse.map digitChar

/-- The number that digits denote. -/
def value (digits : List Char) : Nat :=
  Radix.value 10 (digits.map digitValue)

theorem digitValue_digitChar {digit : Nat} (hdigit : digit < 10) :
    digitValue (digitChar digit) = digit := by
  interval_cases digit <;> rfl

theorem isDigit_digitChar {digit : Nat} (hdigit : digit < 10) : (digitChar digit).isDigit = true := by
  interval_cases digit <;> rfl

theorem isDigit_of_mem_text {number : Nat} {char : Char} (hmem : char ∈ text number) :
    char.isDigit = true := by
  obtain ⟨digit, hdigit, rfl⟩ := List.mem_map.mp hmem
  exact isDigit_digitChar (Radix.lt_of_mem_canonical (by decide) (List.mem_reverse.mp hdigit))

theorem text_ne_nil (number : Nat) : text number ≠ [] := by
  have hpos := @Radix.length_canonical_pos 10 number
  intro hnil
  have hlength := congrArg List.length hnil
  rw [text, List.length_map, List.length_reverse, List.length_nil] at hlength
  omega

theorem value_text (number : Nat) : value (text number) = number := by
  have hdigits : (text number).map digitValue = (Radix.canonical 10 number).reverse := by
    rw [text, List.map_map]
    refine (List.map_congr_left fun digit hdigit => ?_).trans (List.map_id _)
    exact digitValue_digitChar (Radix.lt_of_mem_canonical (by decide) (List.mem_reverse.mp hdigit))
  rw [value, hdigits, Radix.value_canonical]

theorem length_text_le {number width : Nat} (hwidth : 0 < width) :
    (text number).length ≤ width ↔ number < 10 ^ width := by
  rw [text, List.length_map, List.length_reverse]
  exact Radix.length_canonical_le_iff (by decide) hwidth

theorem value_concat (digits : List Char) (last : Char) :
    value (digits ++ [last]) = value digits * 10 + digitValue last := by
  simp [value, Radix.value]

theorem value_append_zeros (digits : List Char) (count : Nat) :
    value (digits ++ List.replicate count '0') = value digits * 10 ^ count := by
  induction count with
  | zero => simp
  | succ count ih =>
      rw [List.replicate_succ', ← List.append_assoc, value_concat, ih, pow_succ, Nat.mul_assoc]
      rfl

theorem value_zeros_append (digits : List Char) (count : Nat) :
    value (List.replicate count '0' ++ digits) = value digits := by
  rw [value, List.map_append, List.map_replicate]
  exact Radix.value_replicate_zero count _

/-! Machine words. -/

def pushDigit (total : UInt64) (char : Char) : Option UInt64 :=
  (total.checkedMul 10).bind fun shifted => shifted.checkedAdd (UInt64.ofNat (digitValue char))

/-- Digits as a machine word, unless there are none or it overflows. -/
def parseU64 (digits : List Char) : Option UInt64 :=
  if digits = [] then none else digits.foldlM pushDigit 0

theorem digitValue_lt {char : Char} (hdigit : char.isDigit = true) : digitValue char < 10 := by
  simp only [Char.isDigit, ge_iff_le, Bool.and_eq_true, decide_eq_true_eq] at hdigit
  have hupper : char.toNat ≤ 57 := UInt32.le_iff_toNat_le.mp hdigit.2
  unfold digitValue
  omega

theorem pushDigit_eq_some {total next : UInt64} {char : Char} (hdigit : char.isDigit = true) :
    pushDigit total char = some next ↔ next.toNat = total.toNat * 10 + digitValue char := by
  have hsmall := digitValue_lt hdigit
  have hvalue : (UInt64.ofNat (digitValue char)).toNat = digitValue char := by
    rw [UInt64.toNat_ofNat']
    exact Nat.mod_eq_of_lt (by omega)
  rw [pushDigit, Option.bind_eq_some_iff]
  simp only [UInt64.checkedMul_eq_some, UInt64.checkedAdd_eq_some, hvalue]
  constructor
  · rintro ⟨shifted, hshifted, hnext⟩
    rw [hnext, hshifted]
    rfl
  · intro hnext
    have hbound := next.toNat_lt
    refine ⟨UInt64.ofNat (total.toNat * 10), ?_, ?_⟩
    · rw [UInt64.toNat_ofNat']
      exact Nat.mod_eq_of_lt (by omega)
    · rw [UInt64.toNat_ofNat', Nat.mod_eq_of_lt (by omega), hnext]

theorem parseU64_eq_some {digits : List Char} {word : UInt64} (hne : digits ≠ [])
    (hdigits : ∀ char ∈ digits, char.isDigit = true) :
    parseU64 digits = some word ↔ word.toNat = value digits := by
  have hloop (digits : List Char) (hdigits : ∀ char ∈ digits, char.isDigit = true) :
      ∀ word : UInt64, digits.foldlM pushDigit 0 = some word ↔ word.toNat = value digits := by
    induction digits using List.reverseRecOn with
    | nil =>
        intro word
        rw [List.foldlM_nil, Option.pure_def, Option.some.injEq, ← UInt64.toNat_inj]
        exact eq_comm
    | append_singleton digits last ih =>
        intro word
        have hrest := ih fun char hchar => hdigits char (List.mem_append_left _ hchar)
        rw [List.foldlM_append, value_concat, Option.bind_eq_bind, Option.bind_eq_some_iff]
        simp only [hrest, List.foldlM_cons, List.foldlM_nil, bind_pure,
          pushDigit_eq_some (hdigits last (by simp))]
        constructor
        · rintro ⟨total, htotal, hword⟩
          rw [hword, htotal]
        · intro hword
          -- the digits before the last denote less, so they fit as well
          have hfits : value digits < 2 ^ 64 := by
            have hbound := word.toNat_lt
            omega
          have htotal : (UInt64.ofNat (value digits)).toNat = value digits := by
            rw [UInt64.toNat_ofNat']
            exact Nat.mod_eq_of_lt hfits
          exact ⟨_, htotal, by rw [htotal, hword]⟩
  rw [parseU64, if_neg hne]
  exact hloop digits hdigits word

end Decimal
