import Atho.Core.Pow

/-! What the retarget and the median time read: the last 27 blocks of a history
determine both. -/

namespace Atho

/-- The blocks the retarget reads: a full averaging window, and the median window
that ends at the first block of it. -/
def retargetReach : Nat := averagingWindowBlocks + medianWindowBlocks - 1

/-- The last `count` entries of a list. -/
def recent (count : Nat) (entries : List α) : List α :=
  entries.drop (entries.length - count)

theorem recent_suffix (count : Nat) (entries : List α) : recent count entries <:+ entries :=
  List.drop_suffix _ _

theorem length_recent (count : Nat) (entries : List α) :
    (recent count entries).length = min count entries.length := by
  rw [recent, List.length_drop]
  omega

theorem recent_of_le {entries : List α} (hlength : entries.length ≤ count) :
    recent count entries = entries := by
  rw [recent, Nat.sub_eq_zero_of_le hlength, List.drop_zero]

theorem recent_append (older : List α) {newer : List α} (hlength : count ≤ newer.length) :
    recent count (older ++ newer) = recent count newer := by
  rw [recent, recent, List.length_append, Nat.add_sub_assoc hlength, List.drop_append]
  simp

theorem recent_succ_concat (count : Nat) (entries : List α) (last : α) :
    recent (count + 1) (entries ++ [last]) = recent count entries ++ [last] := by
  rw [recent, recent, List.length_append, List.length_singleton, Nat.add_sub_add_right,
    List.drop_append_of_le_length (by omega)]

theorem getLast?_of_suffix {newer entries : List α} (hsuffix : newer <:+ entries)
    (hnonempty : newer ≠ []) : entries.getLast? = newer.getLast? := by
  obtain ⟨older, rfl⟩ := hsuffix
  rw [List.getLast?_append_of_ne_nil older hnonempty]

theorem withoutGenesis_suffix (blocks : List Block) : withoutGenesis blocks <:+ blocks := by
  cases blocks with
  | nil => exact List.suffix_refl []
  | cons first rest =>
      rw [withoutGenesis]
      split
      · exact List.suffix_cons first rest
      · exact List.suffix_refl _

theorem medianTimePastBlocks_append (older newer : List Block) {index : Nat}
    (hindex : medianWindowBlocks ≤ index + 1) :
    medianTimePastBlocks (older ++ newer) (older.length + index) =
      medianTimePastBlocks newer index := by
  have htake : (older ++ newer).take (older.length + index + 1) =
      older ++ newer.take (index + 1) := by
    rw [Nat.add_assoc, List.take_length_add_append]
  have hstart : older.length + index + 1 - medianWindowBlocks =
      older.length + (index + 1 - medianWindowBlocks) := by omega
  rw [medianTimePastBlocks, medianTimePastBlocks, htake, hstart, List.drop_length_add_append]

theorem actualTimespan_append (older : List Block) {newer : List Block}
    (hlength : retargetReach ≤ newer.length) :
    actualTimespan (older ++ newer) averagingWindowBlocks =
      actualTimespan newer averagingWindowBlocks := by
  simp only [retargetReach, averagingWindowBlocks, medianWindowBlocks] at hlength
  have htip : (older ++ newer).length - 1 = older.length + (newer.length - 1) := by
    rw [List.length_append]; omega
  have hold : (older ++ newer).length - averagingWindowBlocks =
      older.length + (newer.length - averagingWindowBlocks) := by
    rw [List.length_append, averagingWindowBlocks]; omega
  simp only [actualTimespan, htip, hold, lt_irrefl, if_false]
  rw [medianTimePastBlocks_append, medianTimePastBlocks_append] <;>
    simp only [medianWindowBlocks, averagingWindowBlocks] <;> omega

/-- The retarget rule on a history from which genesis has been taken away. -/
def nextTargetFromWindow (network : Network) (blocks : List Block) : Bytes 48 :=
  let windowLength := min blocks.length averagingWindowBlocks
  if windowLength < 2 then initialTargetForNetwork network
  else
    let window := blocks.drop (blocks.length - windowLength)
    let expected := expectedTimespanSecondsForWindow windowLength
    let bounded := boundedActualTimespan (actualTimespan blocks windowLength) expected
    clampTarget (.ofNat 48 (meanTargetBlocks window * bounded / expected))

theorem nextTargetFromBlocks_eq (network : Network) (blocks : List Block) :
    nextTargetFromBlocks network blocks =
      nextTargetFromWindow network (withoutGenesis blocks) := rfl

theorem nextTargetFromWindow_append (network : Network) (older : List Block)
    {newer : List Block} (hlength : retargetReach ≤ newer.length) :
    nextTargetFromWindow network (older ++ newer) = nextTargetFromWindow network newer := by
  have hwindow : averagingWindowBlocks ≤ newer.length :=
    Nat.le_trans (by decide) hlength
  have hfull : min (older ++ newer).length averagingWindowBlocks = averagingWindowBlocks := by
    rw [List.length_append]; omega
  have hdrop : (older ++ newer).drop ((older ++ newer).length - averagingWindowBlocks) =
      newer.drop (newer.length - averagingWindowBlocks) :=
    recent_append older hwindow
  simp only [nextTargetFromWindow, hfull, Nat.min_eq_right hwindow, hdrop,
    actualTimespan_append older hlength]

/-- A history and the last 27 or more blocks of it ask for the same target, whether
or not the shorter list still begins with another block. -/
theorem nextTargetFromBlocks_of_common (network : Network) {blocks full newer : List Block}
    (hblocks : newer <:+ withoutGenesis blocks) (hfull : newer <:+ withoutGenesis full)
    (hlength : retargetReach ≤ newer.length) :
    nextTargetFromBlocks network blocks = nextTargetFromBlocks network full := by
  obtain ⟨left, hleft⟩ := hblocks
  obtain ⟨right, hright⟩ := hfull
  rw [nextTargetFromBlocks_eq, nextTargetFromBlocks_eq, ← hleft, ← hright,
    nextTargetFromWindow_append network left hlength,
    nextTargetFromWindow_append network right hlength]

theorem targetForNextBlockWithTimestamp_of_common (network : Network)
    {blocks full newer : List Block} (hblocks : newer <:+ withoutGenesis blocks)
    (hfull : newer <:+ withoutGenesis full) (hlength : retargetReach ≤ newer.length)
    (timestamp : UInt64) :
    targetForNextBlockWithTimestamp network blocks timestamp =
      targetForNextBlockWithTimestamp network full timestamp := by
  have hnonempty : newer ≠ [] := by
    rintro rfl
    exact absurd hlength (by decide)
  have hlast : blocks.getLast? = full.getLast? := by
    rw [getLast?_of_suffix (hblocks.trans (withoutGenesis_suffix blocks)) hnonempty,
      getLast?_of_suffix (hfull.trans (withoutGenesis_suffix full)) hnonempty]
  rw [targetForNextBlockWithTimestamp, targetForNextBlockWithTimestamp, hlast,
    nextTargetFromBlocks_of_common network hblocks hfull hlength]

theorem minimumNextBlockTimestamp_append (older : List Block) {newer : List Block}
    (hlength : medianWindowBlocks ≤ newer.length) :
    minimumNextBlockTimestamp (older ++ newer) = minimumNextBlockTimestamp newer := by
  have hpositive : 0 < newer.length := Nat.lt_of_lt_of_le (by decide) hlength
  have hnewer : newer.isEmpty = false :=
    List.isEmpty_eq_false_iff.mpr (List.length_pos_iff.mp hpositive)
  have happended : (older ++ newer).isEmpty = false :=
    List.isEmpty_eq_false_iff.mpr
      (List.append_ne_nil_of_right_ne_nil older (List.length_pos_iff.mp hpositive))
  have htip : (older ++ newer).length - 1 = older.length + (newer.length - 1) := by
    rw [List.length_append]; omega
  rw [minimumNextBlockTimestamp, minimumNextBlockTimestamp, medianTimePastFromBlocks,
    medianTimePastFromBlocks, hnewer, happended, htip,
    medianTimePastBlocks_append older newer (by omega)]

theorem minimumNextBlockTimestamp_of_common {blocks full newer : List Block}
    (hblocks : newer <:+ blocks) (hfull : newer <:+ full)
    (hlength : medianWindowBlocks ≤ newer.length) :
    minimumNextBlockTimestamp blocks = minimumNextBlockTimestamp full := by
  obtain ⟨left, rfl⟩ := hblocks
  obtain ⟨right, rfl⟩ := hfull
  rw [minimumNextBlockTimestamp_append left hlength,
    minimumNextBlockTimestamp_append right hlength]

/-! The reach is exact. -/

theorem withoutGenesis_of_ne {blocks : List Block}
    (hheights : ∀ block ∈ blocks, block.header.height ≠ 0) : withoutGenesis blocks = blocks := by
  cases blocks with
  | nil => rfl
  | cons first rest =>
      have hfirst := hheights first (by simp)
      rw [withoutGenesis, if_neg fun hgenesis => hfirst hgenesis.1]

/-- A block every hundred seconds, each with the same target. -/
def steadyBlock (network : Network) (height : Nat) : Block :=
  { header :=
      { version := 1
        networkId := network
        height := UInt64.ofNat height
        previousBlockHash := .zero 48
        merkleRoot := .zero 48
        witnessRoot := .zero 48
        foundersHashSha3_384 := .zero 48
        foundersHashSha3_512 := .zero 64
        timestamp := UInt64.ofNat (targetBlockTimeSeconds * height)
        difficultyTargetOrBits := .ofNat 48 (2 ^ 360)
        nonce := 0 }
    transactions := [] }

def steadyBlocks (network : Network) : List Block :=
  (List.range 28).map fun index => steadyBlock network (index + 1)

/-- Behind a history with more than 27 blocks after genesis, the last 27 decide the next
target and the least timestamp; the last 26 do not always decide the target. -/
theorem retarget_reads_last_27 (network : Network) :
    (∀ (genesis : Block) (rest : List Block) (timestamp : UInt64), 27 < rest.length →
      (∀ block ∈ rest, block.header.height ≠ 0) →
      targetForNextBlockWithTimestamp network (genesis :: rest) timestamp =
          targetForNextBlockWithTimestamp network (recent 27 (genesis :: rest)) timestamp ∧
        minimumNextBlockTimestamp (genesis :: rest) =
          minimumNextBlockTimestamp (recent 27 (genesis :: rest))) ∧
    ∃ (genesis : Block) (rest : List Block) (timestamp : UInt64), 27 < rest.length ∧
      genesis.header.height = 0 ∧ (∀ block ∈ rest, block.header.height ≠ 0) ∧
      targetForNextBlockWithTimestamp network (genesis :: rest) timestamp ≠
        targetForNextBlockWithTimestamp network (recent 26 (genesis :: rest)) timestamp := by
  constructor
  · intro genesis rest timestamp hlength hheights
    have hrecent : recent 27 (genesis :: rest) = recent 27 rest :=
      recent_append [genesis] hlength.le
    have hreach : 27 ≤ (recent 27 rest).length := by
      rw [length_recent]
      omega
    have hsuffix : recent 27 rest <:+ withoutGenesis (genesis :: rest) := by
      rw [withoutGenesis]
      split
      · exact recent_suffix 27 rest
      · exact (recent_suffix 27 rest).trans (List.suffix_cons genesis rest)
    have hkept : withoutGenesis (recent 27 rest) = recent 27 rest :=
      withoutGenesis_of_ne fun block hblock => hheights block ((recent_suffix 27 rest).mem hblock)
    have hself : recent 27 rest <:+ withoutGenesis (recent 27 rest) := by
      rw [hkept]
    rw [hrecent]
    exact ⟨targetForNextBlockWithTimestamp_of_common network hsuffix hself hreach timestamp,
      minimumNextBlockTimestamp_of_common (hsuffix.trans (withoutGenesis_suffix _))
        (List.suffix_refl _) (Nat.le_trans (by decide) hreach)⟩
  · refine ⟨steadyBlock network 0, steadyBlocks network, 2800, ?_⟩
    cases network <;> decide +kernel

theorem steady_history_recent :
    27 < (steadyBlocks .testnet).length ∧
      targetForNextBlockWithTimestamp .testnet
          (steadyBlock .testnet 0 :: steadyBlocks .testnet) 2900 =
        targetForNextBlockWithTimestamp .testnet
          (recent 27 (steadyBlock .testnet 0 :: steadyBlocks .testnet)) 2900 :=
  ⟨by decide, ((retarget_reads_last_27 .testnet).1 (steadyBlock .testnet 0)
    (steadyBlocks .testnet) 2900 (by decide) (by decide +kernel)).1⟩

end Atho
