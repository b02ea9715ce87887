import Atho.Core.Pow

/-! The proof of a target, and the order on branches by work, height and tip hash. -/

namespace Atho

open Std

/-- The complement formula is the quotient of the hash space by the number of good hashes, and
its subtraction stays above zero. -/
theorem blockProof_eq {target : Bytes 48} (hne : target.toNat ≠ 0) :
    target.toNat ≤ 2 ^ 384 - 1 ∧ blockProof target = 2 ^ 384 / (target.toNat + 1) := by
  have hlt : target.toNat < 2 ^ 384 := by
    calc target.toNat < 256 ^ 48 := target.toNat_lt
      _ = 2 ^ 384 := pow_bytes_eq 48
  refine ⟨by omega, ?_⟩
  have hsplit : 2 ^ 384 = (2 ^ 384 - 1 - target.toNat) + (target.toNat + 1) := by omega
  rw [blockProof, if_neg hne]
  conv_rhs => rw [hsplit]
  rw [Nat.add_div_right _ (Nat.succ_pos _)]

theorem blockProof_antitone {target easier : Bytes 48} (hne : target.toNat ≠ 0)
    (hle : target.toNat ≤ easier.toNat) : blockProof easier ≤ blockProof target := by
  rw [(blockProof_eq hne).2, (blockProof_eq (by omega : easier.toNat ≠ 0)).2]
  exact Nat.div_le_div_left (by omega) (Nat.succ_pos _)

instance (crypto : Crypto) : TransCmp (compareBranchWork crypto) :=
  inferInstanceAs (TransCmp
    (compareLex
      (compareLex (compareOn accumulatedChainWork)
        (compareOn fun blocks => blocks.getLast?.map fun block => block.header.height))
      (fun current candidate => compareOn
        (fun blocks : List Block => blocks.getLast?.map fun block => block.header.blockHash crypto)
        candidate current)))

theorem compareBranchWork_eq {crypto : Crypto} {left right : List Block}
    (heq : compareBranchWork crypto left right = .eq) :
    accumulatedChainWork left = accumulatedChainWork right ∧
      (left.getLast?.map fun block => block.header.height) =
        (right.getLast?.map fun block => block.header.height) ∧
      (left.getLast?.map fun block => block.header.blockHash crypto) =
        (right.getLast?.map fun block => block.header.blockHash crypto) := by
  simp only [compareBranchWork, Ordering.then_eq_eq] at heq
  obtain ⟨⟨hwork, hheight⟩, hhash⟩ := heq
  exact ⟨LawfulEqOrd.eq_of_compare hwork, LawfulEqOrd.eq_of_compare hheight,
    (LawfulEqOrd.eq_of_compare hhash).symm⟩

theorem accumulatedChainWork_append (left right : List Block) :
    accumulatedChainWork (left ++ right) =
      accumulatedChainWork left + accumulatedChainWork right := by
  rw [accumulatedChainWork, List.map_append, List.sum_append]
  rfl

theorem compare_add_left (common left right : Nat) :
    compare (common + left) (common + right) = compare left right := by
  simp only [Nat.compare_eq_ite_lt, Nat.add_lt_add_iff_left]

theorem compareBranchWork_append (crypto : Crypto) (common : List Block) {left right : List Block}
    (hleft : left ≠ []) (hright : right ≠ []) :
    compareBranchWork crypto (common ++ left) (common ++ right) =
      compareBranchWork crypto left right := by
  simp only [compareBranchWork, accumulatedChainWork_append, compare_add_left,
    List.getLast?_append_of_ne_nil _ hleft, List.getLast?_append_of_ne_nil _ hright]

/-- The proof of a target is a quotient that falls with the target; the order on branches is
total, calls branches equal only if they have equal work and the same tip, and does not look at
what they have in common. -/
theorem branch_work_order (crypto : Crypto) :
    (∀ target : Bytes 48, target.toNat ≠ 0 →
      target.toNat ≤ 2 ^ 384 - 1 ∧ blockProof target = 2 ^ 384 / (target.toNat + 1)) ∧
    (∀ target easier : Bytes 48, target.toNat ≠ 0 → target.toNat ≤ easier.toNat →
      blockProof easier ≤ blockProof target) ∧
    (∀ left right, compareBranchWork crypto left right =
      (compareBranchWork crypto right left).swap) ∧
    (∀ left middle right, (compareBranchWork crypto left middle).isLE →
      (compareBranchWork crypto middle right).isLE →
        (compareBranchWork crypto left right).isLE) ∧
    (∀ left right, compareBranchWork crypto left right = .eq →
      accumulatedChainWork left = accumulatedChainWork right ∧
        (left.getLast?.map fun block => block.header.height) =
          (right.getLast?.map fun block => block.header.height) ∧
        (left.getLast?.map fun block => block.header.blockHash crypto) =
          (right.getLast?.map fun block => block.header.blockHash crypto)) ∧
    ∀ common left right, left ≠ [] → right ≠ [] →
      compareBranchWork crypto (common ++ left) (common ++ right) =
        compareBranchWork crypto left right :=
  ⟨fun _ => blockProof_eq, fun _ _ => blockProof_antitone, fun _ _ => OrientedCmp.eq_swap,
    fun _ _ _ => TransCmp.isLE_trans, fun _ _ => compareBranchWork_eq,
    fun common _ _ => compareBranchWork_append crypto common⟩

end Atho
