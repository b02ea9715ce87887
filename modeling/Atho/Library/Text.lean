import Mathlib.Data.List.DropRight
import Mathlib.Data.List.Basic

/-! Blanks in texts. -/

namespace Text

/-- The characters of the Unicode property `White_Space`. -/
def isWhitespace (char : Char) : Bool :=
  (9 ≤ char.toNat && char.toNat ≤ 13) || char.toNat == 0x20 || char.toNat == 0x85 ||
    char.toNat == 0xA0 || char.toNat == 0x1680 ||
    (0x2000 ≤ char.toNat && char.toNat ≤ 0x200A) || char.toNat == 0x2028 ||
    char.toNat == 0x2029 || char.toNat == 0x202F || char.toNat == 0x205F || char.toNat == 0x3000

/-- A text without what `drop` holds of at its ends. -/
def trimMatches (drop : Char → Bool) (text : List Char) : List Char :=
  (text.dropWhile drop).rdropWhile drop

def trim (text : List Char) : List Char :=
  trimMatches isWhitespace text

variable {drop keep : Char → Bool} {text : List Char} {words : List (List Char)}

theorem filter_trimMatches (hkept : ∀ char, drop char = true → keep char = false) :
    (trimMatches drop text).filter keep = text.filter keep := by
  have hdropped {dropped : List Char} (hall : ∀ char ∈ dropped, drop char = true) :
      dropped.filter keep = [] := by
    apply List.filter_eq_nil_iff.mpr
    intro char hchar
    simp [hkept char (hall char hchar)]
  have hfront : (text.dropWhile drop).filter keep = text.filter keep := by
    conv_rhs => rw [← List.takeWhile_append_dropWhile (p := drop) (l := text),
      List.filter_append, hdropped fun _ => List.mem_takeWhile_imp]
    rfl
  rw [← hfront, trimMatches]
  conv_rhs => rw [← List.rdropWhile_append_rtakeWhile (p := drop) (l := text.dropWhile drop),
    List.filter_append, hdropped fun _ => List.mem_rtakeWhile_imp]
  rw [List.append_nil]

end Text
