import Atho.Core.Retarget
import Atho.Library.BigUint

/-! The retarget in machine arithmetic: 64-bit timespans that saturate, targets that
pass through numbers of any size, and the exact integers behind both. -/

namespace Atho

/-! The source's own arithmetic. -/

namespace Machine

def expectedTimespanSecondsForWindow (windowBlocks : Nat) : UInt64 :=
  (UInt64.ofNat targetBlockTimeSeconds).saturatingMul (UInt64.ofNat (windowBlocks - 1))

def clamp (value low high : UInt64) : UInt64 :=
  if value < low then low else if high < value then high else value

def boundedActualTimespan (actualTimespan targetTimespan : UInt64) : UInt64 :=
  let minActual := targetTimespan.saturatingMul
    ((100 : UInt64).saturatingSub (UInt64.ofNat maxAdjustDownPercent)) / 100
  let maxActual := targetTimespan.saturatingMul
    ((100 : UInt64).saturatingAdd (UInt64.ofNat maxAdjustUpPercent)) / 100
  let damped :=
    if targetTimespan ≤ actualTimespan then
      targetTimespan.saturatingAdd
        ((actualTimespan - targetTimespan) / UInt64.ofNat dampingFactor)
    else
      targetTimespan.saturatingSub
        ((targetTimespan - actualTimespan) / UInt64.ofNat dampingFactor)
  clamp damped minActual maxActual

def biguintToTarget (value : Nat) : Bytes 48 :=
  BigUint.toArray 48 value

def actualTimespan (blocks : List Block) (windowLength : Nat) : UInt64 :=
  let tipIndex := blocks.length - 1
  let oldIndex := blocks.length - windowLength
  let timestampAt (index : Nat) : UInt64 :=
    (blocks[index]?.map fun block => block.header.timestamp).getD 0
  if windowLength < averagingWindowBlocks then
    (timestampAt tipIndex).saturatingSub (timestampAt oldIndex)
  else
    (medianTimePastBlocks blocks tipIndex).saturatingSub (medianTimePastBlocks blocks oldIndex)

def nextTargetFromBlocks (network : Network) (blocks : List Block) : Bytes 48 :=
  let blocks := withoutGenesis blocks
  let windowLength := min blocks.length averagingWindowBlocks
  if windowLength < 2 then initialTargetForNetwork network
  else
    let window := blocks.drop (blocks.length - windowLength)
    let expectedTimespan := expectedTimespanSecondsForWindow windowLength
    let boundedTimespan :=
      boundedActualTimespan (actualTimespan blocks windowLength) expectedTimespan
    let averageTarget := meanTargetBlocks window
    let threshold := averageTarget * boundedTimespan.toNat / expectedTimespan.toNat
    clampTarget (biguintToTarget threshold)

/-! Nothing saturates within the averaging window. -/

theorem toNat_expectedTimespan {windowBlocks : Nat}
    (hwindow : windowBlocks ≤ averagingWindowBlocks) :
    (expectedTimespanSecondsForWindow windowBlocks).toNat =
      Atho.expectedTimespanSecondsForWindow windowBlocks := by
  rw [averagingWindowBlocks] at hwindow
  rw [expectedTimespanSecondsForWindow, UInt64.toNat_saturatingMul,
    UInt64.toNat_ofNat_of_lt' (by decide), UInt64.toNat_ofNat_of_lt' (by
      change _ < 2 ^ 64
      omega), Atho.expectedTimespanSecondsForWindow, targetBlockTimeSeconds]
  omega

theorem toNat_clamp {value low high : UInt64} (hle : low.toNat ≤ high.toNat) :
    (clamp value low high).toNat = max low.toNat (min value.toNat high.toNat) := by
  unfold clamp
  simp only [UInt64.lt_iff_toNat_lt]
  split_ifs <;> omega

theorem toNat_boundedActualTimespan (actualTimespan : UInt64) {targetTimespan : UInt64}
    (htarget : targetTimespan.toNat ≤ 1600) :
    (boundedActualTimespan actualTimespan targetTimespan).toNat =
      Atho.boundedActualTimespan actualTimespan.toNat targetTimespan.toNat := by
  have hactual := actualTimespan.toNat_lt
  have hmin : (targetTimespan.saturatingMul ((100 : UInt64).saturatingSub
      (UInt64.ofNat maxAdjustDownPercent)) / 100).toNat =
      targetTimespan.toNat * (100 - maxAdjustDownPercent) / 100 := by
    rw [UInt64.toNat_div, UInt64.toNat_saturatingMul,
      show ((100 : UInt64).saturatingSub (UInt64.ofNat maxAdjustDownPercent)).toNat =
        100 - maxAdjustDownPercent from rfl, Nat.min_eq_left]
    · rfl
    · simp only [maxAdjustDownPercent]
      omega
  have hmax : (targetTimespan.saturatingMul ((100 : UInt64).saturatingAdd
      (UInt64.ofNat maxAdjustUpPercent)) / 100).toNat =
      targetTimespan.toNat * (100 + maxAdjustUpPercent) / 100 := by
    rw [UInt64.toNat_div, UInt64.toNat_saturatingMul,
      show ((100 : UInt64).saturatingAdd (UInt64.ofNat maxAdjustUpPercent)).toNat =
        100 + maxAdjustUpPercent from rfl, Nat.min_eq_left]
    · rfl
    · simp only [maxAdjustUpPercent]
      omega
  have hfactor : (UInt64.ofNat dampingFactor).toNat = dampingFactor := rfl
  rw [boundedActualTimespan, Atho.boundedActualTimespan, toNat_clamp, hmin, hmax]
  · congr 2
    simp only [UInt64.le_iff_toNat_le]
    split
    · next hle =>
        rw [UInt64.toNat_saturatingAdd, UInt64.toNat_div, hfactor,
          UInt64.toNat_sub_of_le _ _ (UInt64.le_iff_toNat_le.mpr hle), dampingFactor]
        omega
    · next hlt =>
        rw [UInt64.toNat_saturatingSub, UInt64.toNat_div, hfactor,
          UInt64.toNat_sub_of_le _ _ (UInt64.le_iff_toNat_le.mpr (by omega))]
  · rw [hmin, hmax]
    exact Nat.div_le_div_right (Nat.mul_le_mul_left _ (by decide))

theorem toNat_actualTimespan (blocks : List Block) (windowLength : Nat) :
    (actualTimespan blocks windowLength).toNat = Atho.actualTimespan blocks windowLength := by
  unfold actualTimespan Atho.actualTimespan
  split <;> rfl

theorem nextTargetFromBlocks_eq (network : Network) (blocks : List Block) :
    nextTargetFromBlocks network blocks = Atho.nextTargetFromBlocks network blocks := by
  rw [nextTargetFromBlocks, Atho.nextTargetFromBlocks]
  generalize withoutGenesis blocks = history
  have hwindow : min history.length averagingWindowBlocks ≤ averagingWindowBlocks :=
    Nat.min_le_right _ _
  generalize min history.length averagingWindowBlocks = windowLength at hwindow
  have hexpected := toNat_expectedTimespan hwindow
  have hsmall : (expectedTimespanSecondsForWindow windowLength).toNat ≤ 1600 := by
    rw [hexpected, Atho.expectedTimespanSecondsForWindow, targetBlockTimeSeconds]
    rw [averagingWindowBlocks] at hwindow
    omega
  dsimp only
  rw [toNat_boundedActualTimespan _ hsmall, toNat_actualTimespan, hexpected, biguintToTarget,
    BigUint.toArray_eq_ofNat]

end Machine

/-! The bounds of a target as numbers. -/

theorem pow_bytes : 256 ^ 48 = 2 ^ 384 :=
  pow_bytes_eq 48

theorem toNat_maxDifficultyTarget : maxDifficultyTarget.toNat = 0xFFF := by
  decide +kernel

theorem toNat_minDifficultyTarget : minDifficultyTarget.toNat = 2 ^ 368 - 1 := by
  decide +kernel

theorem targetWithinBounds_iff {target : Bytes 48} :
    targetWithinBounds target = true ↔ 0xFFF ≤ target.toNat ∧ target.toNat ≤ 2 ^ 368 - 1 := by
  rw [targetWithinBounds, Bool.and_eq_true, Bytes.compare_eq_compare_toNat,
    Bytes.compare_eq_compare_toNat, toNat_maxDifficultyTarget, toNat_minDifficultyTarget,
    Nat.isGE_compare, Nat.isLE_compare]

theorem toNat_clampTarget (target : Bytes 48) :
    (clampTarget target).toNat = max 0xFFF (min (2 ^ 368 - 1) target.toNat) := by
  unfold clampTarget
  rw [Bytes.compare_eq_compare_toNat, Bytes.compare_eq_compare_toNat,
    toNat_maxDifficultyTarget, toNat_minDifficultyTarget]
  simp only [Ordering.isLT_iff_eq_lt, Ordering.isGT_iff_eq_gt, Nat.compare_eq_lt,
    Nat.compare_eq_gt]
  split_ifs with hlow hhigh
  · rw [toNat_maxDifficultyTarget]
    omega
  · rw [toNat_minDifficultyTarget]
    omega
  · omega

/-! The averaging window. -/

def averagingWindow (blocks : List Block) : List Block :=
  recent averagingWindowBlocks (withoutGenesis blocks)

/-- The timespan the retarget measures over the averaging window. -/
def measuredTimespan (blocks : List Block) : Nat :=
  actualTimespan (withoutGenesis blocks) (averagingWindow blocks).length

/-- At least two blocks besides genesis, all of them with targets within the bounds. -/
structure Retargetable (blocks : List Block) : Prop where
  length : 2 ≤ (withoutGenesis blocks).length
  targets : ∀ block ∈ withoutGenesis blocks,
    targetWithinBounds block.header.difficultyTargetOrBits = true

/-- The target before it is clamped, for a window with a given mean target. -/
def retargetThreshold (mean windowLength measured : Nat) : Nat :=
  let expected := expectedTimespanSecondsForWindow windowLength
  mean * boundedActualTimespan measured expected / expected

theorem boundedActualTimespan_le (measured expected : Nat) :
    boundedActualTimespan measured expected ≤ expected * 2 := by
  simp only [boundedActualTimespan, maxAdjustDownPercent, maxAdjustUpPercent]
  omega

theorem boundedActualTimespan_mono {measured longer : Nat} (hle : measured ≤ longer)
    (expected : Nat) :
    boundedActualTimespan measured expected ≤ boundedActualTimespan longer expected := by
  have hdamped : (if expected ≤ measured then expected + (measured - expected) / dampingFactor
      else expected - (expected - measured) / dampingFactor) ≤
      if expected ≤ longer then expected + (longer - expected) / dampingFactor
      else expected - (expected - longer) / dampingFactor := by
    simp only [dampingFactor]
    split_ifs <;> omega
  exact max_le_max_left _ (min_le_min_right _ hdamped)

theorem retargetThreshold_mono {measured longer : Nat} (hle : measured ≤ longer)
    (mean windowLength : Nat) :
    retargetThreshold mean windowLength measured ≤ retargetThreshold mean windowLength longer :=
  Nat.div_le_div_right (Nat.mul_le_mul_left _ (boundedActualTimespan_mono hle _))

theorem retargetThreshold_lt {mean : Nat} (hmean : mean ≤ 2 ^ 368 - 1)
    (windowLength measured : Nat) : retargetThreshold mean windowLength measured < 2 ^ 384 := by
  have hbounded : retargetThreshold mean windowLength measured ≤ mean * 2 := by
    refine Nat.div_le_of_le_mul ?_
    rw [mul_left_comm]
    exact Nat.mul_le_mul_left _ (boundedActualTimespan_le _ _)
  have hpow : 2 ^ 384 = 2 ^ 368 * 2 ^ 16 := by rw [← pow_add]
  omega

theorem meanTargetBlocks_le {blocks : List Block}
    (htargets : ∀ block ∈ blocks,
      targetWithinBounds block.header.difficultyTargetOrBits = true) :
    meanTargetBlocks blocks ≤ 2 ^ 368 - 1 := by
  have hsum := List.sum_le_card_nsmul
    (blocks.map fun block => block.header.difficultyTargetOrBits.toNat) (2 ^ 368 - 1)
    (by
      intro target htarget
      obtain ⟨block, hblock, rfl⟩ := List.mem_map.mp htarget
      exact (targetWithinBounds_iff.mp (htargets block hblock)).2)
  rw [List.length_map, smul_eq_mul] at hsum
  exact Nat.div_le_of_le_mul hsum

namespace Retargetable

variable {blocks : List Block} (hblocks : Retargetable blocks)
include hblocks

theorem two_le_window : 2 ≤ (averagingWindow blocks).length := by
  have hlength := hblocks.length
  rw [averagingWindow, length_recent, averagingWindowBlocks]
  omega

theorem mean_le : meanTargetBlocks (averagingWindow blocks) ≤ 2 ^ 368 - 1 :=
  meanTargetBlocks_le fun block hblock =>
    hblocks.targets block ((recent_suffix _ _).mem hblock)

theorem toNat_nextTarget (network : Network) :
    (Machine.nextTargetFromBlocks network blocks).toNat =
      max 0xFFF (min (2 ^ 368 - 1)
        (retargetThreshold (meanTargetBlocks (averagingWindow blocks))
          (averagingWindow blocks).length (measuredTimespan blocks))) := by
  have htwo := hblocks.two_le_window
  have hfits := retargetThreshold_lt hblocks.mean_le (averagingWindow blocks).length
    (measuredTimespan blocks)
  have hmin : min (withoutGenesis blocks).length averagingWindowBlocks =
      (averagingWindow blocks).length := by
    rw [averagingWindow, length_recent, Nat.min_comm]
  have hwindow : (withoutGenesis blocks).drop
      ((withoutGenesis blocks).length - (averagingWindow blocks).length) =
      averagingWindow blocks := by
    rw [← hmin, averagingWindow, recent]
    congr 1
    omega
  rw [Machine.nextTargetFromBlocks_eq, nextTargetFromBlocks]
  dsimp only
  rw [hmin, if_neg (by omega), hwindow, toNat_clampTarget, Bytes.toNat_ofNat]
  change max _ (min _ (retargetThreshold _ _ (measuredTimespan blocks) % _)) = _
  rw [pow_bytes, Nat.mod_eq_of_lt hfits]

end Retargetable

/-- With two or more blocks besides genesis and targets within the bounds, the retarget
divides by no zero, loses no high bits, and returns the exact clamped quotient; a longer
measured timespan over the same targets never lowers it. -/
theorem retarget_exact_and_monotone (network : Network) :
    (∀ blocks, Retargetable blocks →
      let window := averagingWindow blocks
      let mean :=
        (window.map fun block => block.header.difficultyTargetOrBits.toNat).sum / window.length
      let expected := targetBlockTimeSeconds * (window.length - 1)
      let bounded := boundedActualTimespan (measuredTimespan blocks) expected
      let threshold := mean * bounded / expected
      0 < window.length ∧ 0 < expected ∧
        (Machine.expectedTimespanSecondsForWindow window.length).toNat = expected ∧
        (Machine.boundedActualTimespan
          (Machine.actualTimespan (withoutGenesis blocks) window.length)
          (Machine.expectedTimespanSecondsForWindow window.length)).toNat = bounded ∧
        (Machine.biguintToTarget threshold).toNat = threshold ∧
        (Machine.nextTargetFromBlocks network blocks).toNat =
          max 0xFFF (min (2 ^ 368 - 1) threshold) ∧
        targetWithinBounds (Machine.nextTargetFromBlocks network blocks) = true) ∧
    ∀ blocks slower, Retargetable blocks → Retargetable slower →
      ((averagingWindow blocks).map fun block => block.header.difficultyTargetOrBits) =
        ((averagingWindow slower).map fun block => block.header.difficultyTargetOrBits) →
      measuredTimespan blocks ≤ measuredTimespan slower →
      (Machine.nextTargetFromBlocks network blocks).toNat ≤
        (Machine.nextTargetFromBlocks network slower).toNat := by
  constructor
  · intro blocks hblocks
    have htwo := hblocks.two_le_window
    have hseventeen : (averagingWindow blocks).length ≤ averagingWindowBlocks := by
      rw [averagingWindow, length_recent]
      exact Nat.min_le_left _ _
    have hexpected := Machine.toNat_expectedTimespan hseventeen
    have hsmall : (Machine.expectedTimespanSecondsForWindow
        (averagingWindow blocks).length).toNat ≤ 1600 := by
      rw [hexpected, expectedTimespanSecondsForWindow, targetBlockTimeSeconds]
      rw [averagingWindowBlocks] at hseventeen
      omega
    refine ⟨by omega, by rw [targetBlockTimeSeconds]; omega, hexpected, ?_, ?_,
      hblocks.toNat_nextTarget network, ?_⟩
    · rw [Machine.toNat_boundedActualTimespan _ hsmall, Machine.toNat_actualTimespan, hexpected]
      rfl
    · rw [Machine.biguintToTarget, BigUint.toArray_eq_ofNat, Bytes.toNat_ofNat, pow_bytes]
      exact Nat.mod_eq_of_lt (retargetThreshold_lt hblocks.mean_le _ _)
    · rw [targetWithinBounds_iff, hblocks.toNat_nextTarget network]
      omega
  · intro blocks slower hblocks hslower htargets hmeasured
    have hlength : (averagingWindow blocks).length = (averagingWindow slower).length := by
      simpa using congrArg List.length htargets
    have hmean : meanTargetBlocks (averagingWindow blocks) =
        meanTargetBlocks (averagingWindow slower) := by
      have hnumbers := congrArg (List.map Bytes.toNat) htargets
      rw [List.map_map, List.map_map] at hnumbers
      rw [meanTargetBlocks, meanTargetBlocks, hlength]
      exact congrArg (fun numbers => numbers.sum / (averagingWindow slower).length) hnumbers
    rw [hblocks.toNat_nextTarget, hslower.toNat_nextTarget, hmean, hlength]
    exact max_le_max_left _ (min_le_min_left _ (retargetThreshold_mono hmeasured _ _))

theorem steady_history_retargetable : Retargetable (steadyBlocks .mainnet) :=
  ⟨by decide +kernel, by decide +kernel⟩

theorem steady_history_target_within_bounds :
    Retargetable (steadyBlocks .mainnet) ∧
      targetWithinBounds (Machine.nextTargetFromBlocks .mainnet (steadyBlocks .mainnet)) = true :=
  ⟨steady_history_retargetable,
    ((retarget_exact_and_monotone .mainnet).1 _ steady_history_retargetable).2.2.2.2.2.2⟩

end Atho
