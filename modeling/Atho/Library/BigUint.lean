import Atho.Library.Bytes
import Atho.Library.Checked

/-! Numbers of any size, written big-endian into arrays of a fixed width, and the
saturating product of machine numbers. -/

def UInt64.saturatingMul (left right : UInt64) : UInt64 :=
  if left.toNat * right.toNat < 2 ^ 64 then left * right else UInt64.ofNat (2 ^ 64 - 1)

theorem UInt64.toNat_saturatingMul (left right : UInt64) :
    (left.saturatingMul right).toNat = min (left.toNat * right.toNat) (2 ^ 64 - 1) := by
  unfold saturatingMul
  split
  · next hlt =>
      rw [UInt64.toNat_mul, Nat.mod_eq_of_lt hlt]
      omega
  · rw [UInt64.toNat_ofNat_of_lt' (by decide)]
    omega

namespace BigUint

/-- The bytes of a number, most significant first and none to spare. -/
def toBytesBe (value : Nat) : List UInt8 :=
  if value = 0 then [0] else ((Nat.digits 256 value).map UInt8.ofNat).reverse

/-- The low-order bytes of a number in an array of a given width, with zeroes in front
when there are too few. -/
def toArray (width value : Nat) : Bytes width :=
  let bytes := toBytesBe value
  if hlong : width ≤ bytes.length then
    ⟨bytes.drop (bytes.length - width), by simp; omega⟩
  else ⟨List.replicate (width - bytes.length) 0 ++ bytes, by simp; omega⟩

theorem leBytes_eq_digits (width value : Nat) :
    leBytes width value =
      ((Nat.digits 256 value).map UInt8.ofNat ++ List.replicate width 0).take width := by
  induction width generalizing value with
  | zero => rfl
  | succ width ih =>
      rcases Nat.eq_zero_or_pos value with rfl | hpos
      · have hzero := ih 0
        simp only [Nat.digits_zero, List.map_nil, List.nil_append, List.take_replicate,
          Nat.min_self] at hzero ⊢
        rw [leBytes, Nat.zero_div, hzero, List.replicate_succ]
        rfl
      · have hlow : UInt8.ofNat (value % 256) = UInt8.ofNat value := by
          apply UInt8.toNat_inj.mp
          simp
        rw [leBytes, ih, Nat.digits_def' (by decide) hpos, List.map_cons, List.cons_append,
          List.take_succ_cons, hlow]
        congr 1
        simp only [List.take_append, List.take_replicate]
        congr 2
        omega

theorem reverse_toBytesBe (width value : Nat) :
    ((toBytesBe value).reverse ++ List.replicate width 0).take width = leBytes width value := by
  rw [leBytes_eq_digits, toBytesBe]
  split
  · next hzero =>
      subst hzero
      have hzeroes : [0].reverse ++ List.replicate width (0 : UInt8) =
          List.replicate (width + 1) 0 := rfl
      rw [hzeroes, List.take_replicate, Nat.digits_zero, List.map_nil, List.nil_append,
        List.take_replicate]
      congr 1
      omega
  · rw [List.reverse_reverse]

theorem toArray_eq_ofNat (width value : Nat) : toArray width value = Bytes.ofNat width value := by
  apply Bytes.ext
  change _ = (leBytes width value).reverse
  rw [← reverse_toBytesBe, List.take_append, List.take_replicate, List.reverse_append,
    List.reverse_replicate, List.length_reverse, List.take_reverse, List.reverse_reverse]
  simp only [toArray]
  split
  · next hlong => simp [hlong]
  · next hshort =>
      have hzero : (toBytesBe value).length - width = 0 := by omega
      have hleft : min (width - (toBytesBe value).length) width =
          width - (toBytesBe value).length := by omega
      rw [hzero, List.drop_zero, hleft]

end BigUint

namespace Bytes

theorem toNat_ofNat (width value : Nat) :
    (Bytes.ofNat width value).toNat = value % 256 ^ width := by
  change (leBytes width value).reverse.foldl _ 0 = _
  induction width generalizing value with
  | zero => simp [leBytes, Nat.mod_one]
  | succ width ih =>
      rw [leBytes, List.reverse_cons, List.foldl_append, ih, pow_succ', Nat.mod_mul]
      simp
      ring

end Bytes
