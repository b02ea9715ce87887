import Atho.Core.Network

/-! Block rewards and cumulative issuance. -/

namespace Atho

def getBlockRewardAtoms (height : UInt64) : UInt64 :=
  let halvings := height / halvingIntervalBlocks
  let reward := if 64 ≤ halvings then 0 else initialBlockRewardAtoms >>> halvings
  if reward < tailRewardAtoms then tailRewardAtoms else reward

def blockSubsidyAtomsForNetwork (_network : Network) (height : UInt64) : UInt64 :=
  getBlockRewardAtoms height

def genesisCoinbaseAtomsForNetwork (_network : Network) : UInt64 :=
  getBlockRewardAtoms 0

def u128Max : Nat := 2 ^ 128 - 1

/-- One pass of the era loop for each unit of fuel; the loop ends when no blocks
remain, and every pass but the last removes a whole era. -/
def cumulativeIssuedLoop : (fuel : Nat) → (remainingBlocks : UInt64) → (issued : Nat) →
    (reward : UInt64) → Nat
  | 0, _, issued, _ => issued
  | fuel + 1, remainingBlocks, issued, reward =>
      if 0 < remainingBlocks then
        let eraBlocks := min remainingBlocks halvingIntervalBlocks
        let effectiveReward := max reward tailRewardAtoms
        let issued := min (issued + eraBlocks.toNat * effectiveReward.toNat) u128Max
        let reward :=
          if tailRewardAtoms < reward then max (reward / 2) tailRewardAtoms
          else tailRewardAtoms
        cumulativeIssuedLoop fuel (remainingBlocks - eraBlocks) issued reward
      else issued

def cumulativeIssuedBeforeHeight (height : UInt64) : Nat :=
  if height = 0 then 0
  else cumulativeIssuedLoop (height.toNat / halvingIntervalBlocks.toNat + 1) height 0
    initialBlockRewardAtoms

def cumulativeIssuedThroughHeight (height : UInt64) : Nat :=
  cumulativeIssuedBeforeHeight (height.saturatingAdd 1)

def cumulativeIssuedThroughHeightForNetwork (_network : Network) (height : UInt64) : Nat :=
  cumulativeIssuedThroughHeight height

/-! The era loop adds up the rewards of the single heights. -/

/-- The reward of every block of an era. -/
def eraReward (era : Nat) : Nat :=
  max (initialBlockRewardAtoms.toNat / 2 ^ era) tailRewardAtoms.toNat

theorem eraReward_le (era : Nat) : eraReward era ≤ initialBlockRewardAtoms.toNat :=
  Nat.max_le.mpr ⟨Nat.div_le_self _ _, by decide⟩

theorem tail_le_eraReward (era : Nat) : tailRewardAtoms.toNat ≤ eraReward era :=
  Nat.le_max_right _ _

theorem eraReward_succ (era : Nat) :
    eraReward (era + 1) =
      if tailRewardAtoms.toNat < eraReward era then
        max (eraReward era / 2) tailRewardAtoms.toNat
      else tailRewardAtoms.toNat := by
  have hhalf : initialBlockRewardAtoms.toNat / 2 ^ (era + 1) =
      initialBlockRewardAtoms.toNat / 2 ^ era / 2 := by
    rw [Nat.pow_succ, Nat.div_div_eq_div_mul]
  split_ifs with hlarge <;> simp only [eraReward, hhalf] at hlarge ⊢ <;> omega

theorem getBlockRewardAtoms_toNat (height : UInt64) :
    (getBlockRewardAtoms height).toNat =
      eraReward (height.toNat / halvingIntervalBlocks.toNat) := by
  have hshift : (if 64 ≤ height / halvingIntervalBlocks then 0
      else initialBlockRewardAtoms >>> (height / halvingIntervalBlocks)).toNat =
        initialBlockRewardAtoms.toNat / 2 ^ (height.toNat / halvingIntervalBlocks.toNat) := by
    rw [← UInt64.toNat_div]
    split
    · next hlarge =>
        rw [UInt64.le_iff_toNat_le] at hlarge
        refine (Nat.div_eq_of_lt ?_).symm
        calc initialBlockRewardAtoms.toNat < 2 ^ 64 := by decide
          _ ≤ _ := Nat.pow_le_pow_right (by decide) hlarge
    · next hsmall =>
        simp only [UInt64.not_le, UInt64.lt_iff_toNat_lt, UInt64.reduceToNat] at hsmall
        rw [UInt64.toNat_shiftRight, Nat.mod_eq_of_lt hsmall, Nat.shiftRight_eq_div_pow]
  simp only [getBlockRewardAtoms, eraReward, ← hshift]
  generalize (if 64 ≤ height / halvingIntervalBlocks then 0
    else initialBlockRewardAtoms >>> (height / halvingIntervalBlocks)) = reward
  split
  · next hless =>
      rw [UInt64.lt_iff_toNat_lt] at hless
      omega
  · next hless =>
      rw [UInt64.not_lt, UInt64.le_iff_toNat_le] at hless
      omega

theorem sum_eraReward_first (era : Nat) {count : Nat}
    (hcount : count ≤ halvingIntervalBlocks.toNat) :
    ∑ i ∈ Finset.range count, eraReward (era + i / halvingIntervalBlocks.toNat) =
      count * eraReward era := by
  rw [Finset.sum_congr rfl fun i hi => by
    rw [Nat.div_eq_of_lt ((Finset.mem_range.mp hi).trans_le hcount)]]
  simp

theorem cumulativeIssuedLoop_eq {fuel : Nat} {remaining : UInt64} {issued : Nat}
    {reward : UInt64} {era : Nat} (hreward : reward.toNat = eraReward era)
    (hfuel : remaining.toNat ≤ fuel * halvingIntervalBlocks.toNat)
    (hbound : issued + remaining.toNat * initialBlockRewardAtoms.toNat ≤ u128Max) :
    cumulativeIssuedLoop fuel remaining issued reward =
      issued + ∑ i ∈ Finset.range remaining.toNat,
        eraReward (era + i / halvingIntervalBlocks.toNat) := by
  induction fuel generalizing remaining issued reward era with
  | zero =>
      have hnone : remaining.toNat = 0 := by omega
      simp [cumulativeIssuedLoop, hnone]
  | succ fuel ih =>
      rw [cumulativeIssuedLoop]
      split
      · next hpositive =>
          have hmin : (min remaining halvingIntervalBlocks).toNat =
              min remaining.toNat halvingIntervalBlocks.toNat := UInt64.toNat_min ..
          generalize heraBlocks : min remaining halvingIntervalBlocks = eraBlocks at hmin ⊢
          have hle : eraBlocks ≤ remaining := by
            rw [UInt64.le_iff_toNat_le, hmin]
            exact Nat.min_le_left _ _
          have hsplit : remaining.toNat = eraBlocks.toNat + (remaining - eraBlocks).toNat := by
            rw [UInt64.toNat_sub_of_le _ _ hle]
            rw [UInt64.le_iff_toNat_le] at hle
            omega
          have heffective : (max reward tailRewardAtoms).toNat = eraReward era := by
            rw [UInt64.toNat_max, hreward]
            exact Nat.max_eq_left (tail_le_eraReward era)
          have hnext : (if tailRewardAtoms < reward then max (reward / 2) tailRewardAtoms
              else tailRewardAtoms).toNat = eraReward (era + 1) := by
            rw [eraReward_succ, ← hreward]
            simp only [← UInt64.lt_iff_toNat_lt]
            split
            · rw [UInt64.toNat_max, UInt64.toNat_div]
              rfl
            · rfl
          have hsum : ∑ i ∈ Finset.range remaining.toNat,
              eraReward (era + i / halvingIntervalBlocks.toNat) =
                eraBlocks.toNat * eraReward era +
                ∑ i ∈ Finset.range (remaining - eraBlocks).toNat,
                  eraReward (era + 1 + i / halvingIntervalBlocks.toNat) := by
            rw [hsplit, Finset.sum_range_add, sum_eraReward_first era (by omega)]
            congr 1
            refine Finset.sum_congr rfl fun i hi => ?_
            -- Blocks remain only behind a whole era.
            have hwhole : eraBlocks.toNat = halvingIntervalBlocks.toNat := by
              have hlt := Finset.mem_range.mp hi
              omega
            rw [hwhole, Nat.add_div_left _ (by decide)]
            congr 1
            omega
          have hissued : eraBlocks.toNat * eraReward era ≤
              eraBlocks.toNat * initialBlockRewardAtoms.toNat :=
            Nat.mul_le_mul_left _ (eraReward_le era)
          rw [hsplit, Nat.add_mul] at hbound
          rw [Nat.succ_mul] at hfuel
          dsimp only
          rw [heffective, Nat.min_eq_left (by omega), ih hnext (by omega) (by omega), hsum]
          omega
      · next hnone =>
          rw [UInt64.not_lt, UInt64.le_iff_toNat_le] at hnone
          have hnone : remaining.toNat = 0 := by simpa using hnone
          simp [hnone]

theorem cumulativeIssuedBeforeHeight_eq (height : UInt64) :
    cumulativeIssuedBeforeHeight height =
      ∑ i ∈ Finset.range height.toNat, eraReward (i / halvingIntervalBlocks.toNat) := by
  unfold cumulativeIssuedBeforeHeight
  split
  · next hzero => simp [hzero]
  · have hbound : height.toNat * initialBlockRewardAtoms.toNat ≤ u128Max := by
      calc height.toNat * initialBlockRewardAtoms.toNat
          ≤ 2 ^ 64 * initialBlockRewardAtoms.toNat :=
            Nat.mul_le_mul_right _ height.toNat_lt.le
        _ ≤ u128Max := by decide
    have hfuel : height.toNat < _ := Nat.lt_div_mul_add (b := halvingIntervalBlocks.toNat)
      (by decide)
    have hreward : initialBlockRewardAtoms.toNat = eraReward 0 := by decide
    rw [cumulativeIssuedLoop_eq hreward (by rw [Nat.succ_mul]; omega) (by omega)]
    simp

theorem cumulativeIssuedBeforeHeight_succ {height next : UInt64}
    (hnext : next.toNat = height.toNat + 1) :
    cumulativeIssuedBeforeHeight next =
      cumulativeIssuedBeforeHeight height + (getBlockRewardAtoms height).toNat := by
  rw [cumulativeIssuedBeforeHeight_eq, cumulativeIssuedBeforeHeight_eq, hnext,
    Finset.sum_range_succ, getBlockRewardAtoms_toNat]

/-- Issuance in closed form: what the era loop adds up is what the single heights reward. -/
theorem issued_eq_sum_rewards (height : UInt64) :
    cumulativeIssuedBeforeHeight height =
        ∑ i ∈ Finset.range height.toNat, (getBlockRewardAtoms (UInt64.ofNat i)).toNat ∧
      (height.toNat < 2 ^ 64 - 1 →
        cumulativeIssuedThroughHeight height =
          ∑ i ∈ Finset.range height.toNat, (getBlockRewardAtoms (UInt64.ofNat i)).toNat +
            (getBlockRewardAtoms height).toNat) := by
  have hsum : cumulativeIssuedBeforeHeight height =
      ∑ i ∈ Finset.range height.toNat, (getBlockRewardAtoms (UInt64.ofNat i)).toNat := by
    rw [cumulativeIssuedBeforeHeight_eq]
    refine Finset.sum_congr rfl fun i hi => ?_
    have hlt : i < 2 ^ 64 := (Finset.mem_range.mp hi).trans height.toNat_lt
    rw [getBlockRewardAtoms_toNat, UInt64.toNat_ofNat_of_lt' hlt]
  refine ⟨hsum, fun hheight => ?_⟩
  have hnext : (height.saturatingAdd 1).toNat = height.toNat + 1 := by
    rw [UInt64.toNat_saturatingAdd, UInt64.toNat_one]
    omega
  rw [cumulativeIssuedThroughHeight, cumulativeIssuedBeforeHeight_succ hnext, hsum]

theorem issued_through_first_heights :
    cumulativeIssuedThroughHeight 2 =
      ∑ i ∈ Finset.range 2, (getBlockRewardAtoms (UInt64.ofNat i)).toNat +
        (getBlockRewardAtoms 2).toNat :=
  (issued_eq_sum_rewards 2).2 (by decide)

end Atho
