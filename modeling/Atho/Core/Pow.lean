import Atho.Core.Block

/-! Difficulty targets, retargeting, and the work order on branches. -/

namespace Atho

def targetBlockTimeSeconds : Nat := 100
def averagingWindowBlocks : Nat := 17
def medianWindowBlocks : Nat := 11
def dampingFactor : Nat := 4
def maxAdjustUpPercent : Nat := 16
def maxAdjustDownPercent : Nat := 32
def testnetStallResetSeconds : UInt64 := 600

def minDifficultyTarget : Bytes 48 := .ofNat 48 (2 ^ 368 - 1)
def maxDifficultyTarget : Bytes 48 := .ofNat 48 0xFFF
def genesisTarget : Bytes 48 := minDifficultyTarget

def initialTargetForNetwork : Network → Bytes 48
  | .mainnet => genesisTarget
  | .testnet => genesisTarget
  | .regnet => genesisTarget
  | .prunetest => minDifficultyTarget

def expectedTimespanSecondsForWindow (windowBlocks : Nat) : Nat :=
  targetBlockTimeSeconds * (windowBlocks - 1)

def blockProof (target : Bytes 48) : Nat :=
  let target := target.toNat
  if target = 0 then 0 else (2 ^ 384 - 1 - target) / (target + 1) + 1

def medianU64 (values : List UInt64) : UInt64 :=
  (values.insertionSort (· ≤ ·)).getD (values.length / 2) 0

/-- The median timestamp of the window that ends at `index`. -/
def medianTimePastBlocks (blocks : List Block) (index : Nat) : UInt64 :=
  let start := index + 1 - medianWindowBlocks
  medianU64 (((blocks.take (index + 1)).drop start).map fun block => block.header.timestamp)

def boundedActualTimespan (actualTimespan targetTimespan : Nat) : Nat :=
  let minActual := targetTimespan * (100 - maxAdjustDownPercent) / 100
  let maxActual := targetTimespan * (100 + maxAdjustUpPercent) / 100
  let damped :=
    if targetTimespan ≤ actualTimespan then
      targetTimespan + (actualTimespan - targetTimespan) / dampingFactor
    else targetTimespan - (targetTimespan - actualTimespan) / dampingFactor
  max minActual (min damped maxActual)

def meanTargetBlocks (blocks : List Block) : Nat :=
  (blocks.map fun block => block.header.difficultyTargetOrBits.toNat).sum / blocks.length

def clampTarget (target : Bytes 48) : Bytes 48 :=
  if (compare target maxDifficultyTarget).isLT then maxDifficultyTarget
  else if (compare target minDifficultyTarget).isGT then minDifficultyTarget
  else target

/-- The history without its genesis block, unless genesis is all there is. -/
def withoutGenesis : List Block → List Block
  | [] => []
  | first :: rest =>
      if first.header.height = 0 ∧ rest ≠ [] then rest else first :: rest

/-- The span from the first to the last block of the averaging window: of raw
timestamps while the window is not full, of median times once it is. -/
def actualTimespan (blocks : List Block) (windowLength : Nat) : Nat :=
  let tipIndex := blocks.length - 1
  let oldIndex := blocks.length - windowLength
  let timestampAt (index : Nat) : UInt64 :=
    (blocks[index]?.map fun block => block.header.timestamp).getD 0
  if windowLength < averagingWindowBlocks then
    ((timestampAt tipIndex).saturatingSub (timestampAt oldIndex)).toNat
  else
    ((medianTimePastBlocks blocks tipIndex).saturatingSub
      (medianTimePastBlocks blocks oldIndex)).toNat

def nextTargetFromBlocks (network : Network) (blocks : List Block) : Bytes 48 :=
  let blocks := withoutGenesis blocks
  let windowLength := min blocks.length averagingWindowBlocks
  if windowLength < 2 then initialTargetForNetwork network
  else
    let window := blocks.drop (blocks.length - windowLength)
    let expected := expectedTimespanSecondsForWindow windowLength
    let bounded := boundedActualTimespan (actualTimespan blocks windowLength) expected
    clampTarget (.ofNat 48 (meanTargetBlocks window * bounded / expected))

def targetForNextBlockWithTimestamp (network : Network) (previousBlocks : List Block)
    (nextTimestamp : UInt64) : Bytes 48 :=
  let stalled : Bool := match previousBlocks.getLast? with
    | none => false
    | some previous =>
        testnetStallResetSeconds < nextTimestamp.saturatingSub previous.header.timestamp
  if network = .testnet ∧ stalled then minDifficultyTarget
  else nextTargetFromBlocks network previousBlocks

/-- The target for a next block that comes at the expected time. -/
def targetForNextBlock (network : Network) (previousBlocks : List Block) : Bytes 48 :=
  let nextTimestamp := (previousBlocks.getLast?.map fun block =>
    block.header.timestamp.saturatingAdd (UInt64.ofNat targetBlockTimeSeconds)).getD 0
  targetForNextBlockWithTimestamp network previousBlocks nextTimestamp

def accumulatedChainWork (blocks : List Block) : Nat :=
  (blocks.map fun block => blockProof block.header.difficultyTargetOrBits).sum

/-- Work first, then the height of the tip, then the smaller tip hash. -/
def compareBranchWork (crypto : Crypto) (candidate current : List Block) : Ordering :=
  let height := fun (blocks : List Block) =>
    blocks.getLast?.map fun block => block.header.height
  let hash := fun (blocks : List Block) =>
    blocks.getLast?.map fun block => block.header.blockHash crypto
  ((compare (accumulatedChainWork candidate) (accumulatedChainWork current)).then
    (compare (height candidate) (height current))).then
      (compare (hash current) (hash candidate))

def branchIsPreferred (crypto : Crypto) (candidate current : List Block) : Bool :=
  (compareBranchWork crypto candidate current).isGT

def medianTimePastFromBlocks (previousBlocks : List Block) : Option UInt64 :=
  if previousBlocks.isEmpty then none
  else some (medianTimePastBlocks previousBlocks (previousBlocks.length - 1))

def minimumNextBlockTimestamp (previousBlocks : List Block) : Option UInt64 :=
  (medianTimePastFromBlocks previousBlocks).map fun timestamp => timestamp.saturatingAdd 1

def targetWithinBounds (target : Bytes 48) : Bool :=
  (compare target maxDifficultyTarget).isGE && (compare target minDifficultyTarget).isLE

def meetsTarget (hash target : Bytes 48) : Bool :=
  (compare hash target).isLE

end Atho
