import Mathlib.Data.Finmap
import Mathlib.Tactic

/-! Fixed-width byte arrays and the little- and big-endian layout of numbers. -/

/-- A byte array of exactly `width` bytes. -/
structure Bytes (width : Nat) where
  toList : List UInt8
  length_toList : toList.length = width
deriving DecidableEq, Repr

/-- The `width` low-order bytes of a number, least significant first. -/
def leBytes : (width value : Nat) → List UInt8
  | 0, _ => []
  | width + 1, value => UInt8.ofNat value :: leBytes width (value / 256)

/-- The `width` low-order bytes of a number, most significant first. -/
def beBytes (width value : Nat) : List UInt8 :=
  (leBytes width value).reverse

@[simp] theorem length_leBytes (width value : Nat) :
    (leBytes width value).length = width := by
  induction width generalizing value with
  | zero => rfl
  | succ width ih => simp [leBytes, ih]

@[simp] theorem length_beBytes (width value : Nat) :
    (beBytes width value).length = width := by
  simp [beBytes]

theorem pow_bytes_eq (width : Nat) : 256 ^ width = 2 ^ (8 * width) := by
  rw [pow_mul]
  rfl

theorem leBytes_injective {width left right : Nat}
    (hleft : left < 256 ^ width) (hright : right < 256 ^ width)
    (heq : leBytes width left = leBytes width right) : left = right := by
  induction width generalizing left right with
  | zero =>
      simp only [pow_zero] at hleft hright
      omega
  | succ width ih =>
      simp only [leBytes, List.cons.injEq] at heq
      obtain ⟨hhead, htail⟩ := heq
      have hlow : left % 256 = right % 256 := by
        have := congrArg UInt8.toNat hhead
        simpa using this
      have hhigh : left / 256 = right / 256 := by
        refine ih ?_ ?_ htail
        · rw [Nat.div_lt_iff_lt_mul (by decide)]
          simpa [pow_succ] using hleft
        · rw [Nat.div_lt_iff_lt_mul (by decide)]
          simpa [pow_succ] using hright
      omega

namespace Bytes

@[ext] theorem ext {left right : Bytes width}
    (heq : left.toList = right.toList) : left = right := by
  cases left
  cases right
  cases heq
  rfl

attribute [simp] length_toList

/-- The all-zero array. -/
def zero (width : Nat) : Bytes width :=
  ⟨List.replicate width 0, by simp⟩

/-- The big-endian array of a number, reduced to its `width` low-order bytes. -/
def ofNat (width value : Nat) : Bytes width :=
  ⟨beBytes width value, by simp⟩

/-- The number a big-endian array denotes. -/
def toNat (bytes : Bytes width) : Nat :=
  bytes.toList.foldl (fun value byte => value * 256 + byte.toNat) 0

/-- Keep the first `short` bytes of an array. -/
def truncate (short : Nat) (bytes : Bytes width) (hle : short ≤ width) :
    Bytes short :=
  ⟨bytes.toList.take short, by simp [hle]⟩

/-- Arrays compare lexicographically, first byte first. -/
instance : Ord (Bytes width) :=
  ⟨fun left right => compare left.toList right.toList⟩

theorem compare_def (left right : Bytes width) :
    compare left right = compare left.toList right.toList := rfl

theorem compare_eq_iff {left right : Bytes width} :
    compare left right = .eq ↔ left = right := by
  rw [compare_def, Std.LawfulEqCmp.compare_eq_iff_eq]
  exact ⟨ext, congrArg toList⟩

instance : Std.LawfulEqOrd (Bytes width) where
  compare_self := compare_eq_iff.mpr rfl
  eq_of_compare := compare_eq_iff.mp

instance : Std.TransOrd (Bytes width) :=
  inferInstanceAs (Std.TransCmp (compareOn toList))

/-! Big-endian arrays of one width compare as the numbers they denote. -/

theorem foldl_digits (start : Nat) (bytes : List UInt8) :
    bytes.foldl (fun value byte => value * 256 + byte.toNat) start =
      start * 256 ^ bytes.length +
        bytes.foldl (fun value byte => value * 256 + byte.toNat) 0 := by
  induction bytes generalizing start with
  | nil => simp
  | cons byte rest ih =>
      rw [List.foldl_cons, List.foldl_cons, ih, ih (0 * 256 + byte.toNat), List.length_cons]
      ring

theorem foldl_digits_lt (bytes : List UInt8) :
    bytes.foldl (fun value byte => value * 256 + byte.toNat) 0 < 256 ^ bytes.length := by
  induction bytes with
  | nil => simp
  | cons byte rest ih =>
      have hbyte := byte.toNat_lt
      have hscale : byte.toNat * 256 ^ rest.length ≤ 255 * 256 ^ rest.length :=
        Nat.mul_le_mul_right _ (by omega)
      rw [List.foldl_cons, foldl_digits, List.length_cons, pow_succ, Nat.zero_mul, Nat.zero_add]
      omega

theorem toNat_lt (bytes : Bytes width) : bytes.toNat < 256 ^ width := by
  have hlt := foldl_digits_lt bytes.toList
  rwa [bytes.length_toList] at hlt

theorem compare_digits {left right : List UInt8} (hlength : left.length = right.length) :
    compare left right =
      compare (left.foldl (fun value byte => value * 256 + byte.toNat) 0)
        (right.foldl (fun value byte => value * 256 + byte.toNat) 0) := by
  induction left generalizing right with
  | nil =>
      obtain rfl := List.length_eq_zero_iff.mp hlength.symm
      rfl
  | cons first left ih =>
      cases right with
      | nil => cases hlength
      | cons second right =>
          have hrest : left.length = right.length := Nat.succ.inj hlength
          have hleft := foldl_digits_lt left
          have hright := foldl_digits_lt right
          rw [List.foldl_cons, List.foldl_cons, foldl_digits, foldl_digits _ right, hrest]
          rw [hrest] at hleft
          rw [List.compare_cons_cons, ih hrest]
          have hdigit : compare first second = compare first.toNat second.toNat := by
            simp only [compare, compareOfLessAndEq, UInt8.lt_iff_toNat_lt, ← UInt8.toNat_inj]
          rw [hdigit, Nat.zero_mul, Nat.zero_add, Nat.zero_add]
          rcases lt_trichotomy first.toNat second.toNat with hlt | heq | hgt
          · have hscale : (first.toNat + 1) * 256 ^ right.length ≤
                second.toNat * 256 ^ right.length := Nat.mul_le_mul_right _ hlt
            rw [Nat.succ_mul] at hscale
            rw [compare_lt_iff_lt.mpr hlt, Ordering.lt_then, eq_comm, compare_lt_iff_lt]
            omega
          · rw [heq, compare_eq_iff_eq.mpr rfl, Ordering.eq_then]
            simp only [Nat.compare_eq_ite_lt, Nat.add_lt_add_iff_left]
          · have hscale : (second.toNat + 1) * 256 ^ right.length ≤
                first.toNat * 256 ^ right.length := Nat.mul_le_mul_right _ hgt
            rw [Nat.succ_mul] at hscale
            rw [compare_gt_iff_gt.mpr hgt, Ordering.gt_then, eq_comm, compare_gt_iff_gt]
            omega

theorem compare_eq_compare_toNat (left right : Bytes width) :
    compare left right = compare left.toNat right.toNat :=
  compare_digits (left.length_toList.trans right.length_toList.symm)

theorem eq_of_toNat_eq {left right : Bytes width} (heq : left.toNat = right.toNat) :
    left = right := by
  rw [← compare_eq_iff, compare_eq_compare_toNat, heq]
  exact Std.ReflOrd.compare_self

end Bytes
