import Atho.Storage.BlockValidation
import Atho.Storage.UtxoJournal

/-! The chainstate: connecting and disconnecting blocks, branch selection with
its two ways of switching, and loading from storage. -/

namespace Atho

structure ChainstateSnapshot where
  height : UInt64
  tipHash : Bytes 48
  tipHeader : Option BlockHeader
  deriving DecidableEq

structure TransactionArchiveRecord where
  height : UInt64
  transaction : Transaction
  deriving DecidableEq

/-- The database calls that the chainstate makes, over an arbitrary database
state. A commit without a UTXO image persists the block alone. -/
structure StorageBackend (σ : Type) where
  loadBlock : σ → Bytes 48 → Except StorageError (Option Block)
  loadBlockRecordHeight : σ → Bytes 48 → Except StorageError (Option UInt64)
  loadBlockHashByHeight : σ → UInt64 → Except StorageError (Option (Bytes 48))
  loadTransaction : σ → Bytes 48 → Except StorageError (Option TransactionArchiveRecord)
  commitChainstate : σ → ChainstateSnapshot → Option UtxoSet → Option (UInt64 × Block) →
    Except StorageError Unit × σ
  replaceChainstate : σ → ChainstateSnapshot → UtxoSet → List Block →
    Except StorageError Unit × σ
  pruneArchivedBlocks : σ → UInt64 → UInt64 → σ

/-- What the chainstate takes from its surroundings; the overrides are the
values of the two prunetest environment variables that parse. -/
structure Host (σ : Type) extends StorageBackend σ where
  crypto : Crypto
  prunetestPruneDepth : Option UInt64
  prunetestMaxReorgDepth : Option UInt64

structure ChainUndo where
  previousTip : Option BlockHeader
  previousTipHash : Bytes 48
  blockUndo : BlockUndo
  deriving DecidableEq

/-- What has happened to a chainstate; no function reads it. A block is withdrawn
when its commit failed and reinstated when the commit of its removal failed; it
clashes when the UTXO set refuses it after validation. -/
inductive ChainEvent where
  | connected (block : Block)
  | withdrawn (block : Block)
  | clashed (block : Block)
  | disconnected (block : Block)
  | reinstated (block : Block)
  | replaced (blocks : List Block)
  | replaceFailed
  deriving DecidableEq

/-- The part of a chainstate that is held in memory. -/
structure ChainMemory where
  network : Network
  tip : Option BlockHeader
  tipHash : Bytes 48
  height : UInt64
  blocks : List Block
  blockIndexByHash : Finmap fun _ : Bytes 48 => Nat
  utxos : UtxoSet
  undoStack : List ChainUndo

structure Chainstate (σ : Type) extends ChainMemory where
  storage : Option σ
  history : List ChainEvent

inductive ChainSelectionOutcome where
  | extended
  | reorged
  | keptCurrent
  deriving DecidableEq

structure ChainSelectionResult where
  outcome : ChainSelectionOutcome
  disconnected : List Block
  deriving DecidableEq

def effectivePruneDepth (host : Host σ) (network : Network) : UInt64 :=
  match network, host.prunetestPruneDepth with
  | .prunetest, some value => max value 1
  | _, _ => pruneDepthBlocks

def effectiveMaxReorgDepth (host : Host σ) (network : Network) : UInt64 :=
  match network, host.prunetestMaxReorgDepth with
  | .prunetest, some value => value
  | _, _ => maxReorgDepthBlocks

def buildBlockIndexByHash (crypto : Crypto) (blocks : List Block) :
    Finmap fun _ : Bytes 48 => Nat :=
  blocks.zipIdx.foldl
    (fun index entry => index.insert (entry.1.header.blockHash crypto) entry.2) ∅

def reorgDepthError (currentHeight forkHeight maxReorgDepth : UInt64) :
    Option StorageError :=
  let depth := currentHeight.saturatingSub forkHeight
  if maxReorgDepth < depth then
    some (.reorgTooDeep depth maxReorgDepth forkHeight currentHeight)
  else none

def validateBranchSequence (crypto : Crypto) : List Block → Except StorageError Unit
  | left :: right :: rest => do
      rejectWhen (right.header.previousBlockHash ≠ left.header.blockHash crypto ∨
        right.header.height ≠ left.header.height.saturatingAdd 1) .invalidBranchSequence
      validateBranchSequence crypto (right :: rest)
  | _ => .ok ()

theorem validateBranchSequence_eq {crypto : Crypto} {blocks : List Block}
    (hlinked : blocks.IsChain fun left right =>
      right.header.previousBlockHash = left.header.blockHash crypto)
    (hheights : blocks.IsChain fun left right =>
      right.header.height = left.header.height.saturatingAdd 1) :
    validateBranchSequence crypto blocks = .ok () := by
  induction blocks with
  | nil => rfl
  | cons left rest ih =>
      cases rest with
      | nil => rfl
      | cons right rest =>
          rw [List.isChain_cons_cons] at hlinked hheights
          simp only [validateBranchSequence, bind_eq_ok, rejectWhen_eq_ok,
            decide_eq_false_iff_not, not_or, ne_eq, not_not]
          exact ⟨(), ⟨hlinked.1, hheights.1⟩, ih hlinked.2 hheights.2⟩

/-! The steps in memory. -/

namespace ChainMemory

def genesis (crypto : Crypto) (network : Network) : ChainMemory :=
  let genesis := genesisBlock crypto network
  { network := network
    tip := some genesis.header
    tipHash := genesisHash crypto network
    height := 0
    blocks := [genesis]
    blockIndexByHash := buildBlockIndexByHash crypto [genesis]
    utxos := UtxoSet.genesisUtxos crypto network
    undoStack := [] }

def nextDifficultyTargetForTimestamp (memory : ChainMemory) (nextTimestamp : UInt64) :
    Bytes 48 :=
  targetForNextBlockWithTimestamp memory.network memory.blocks nextTimestamp

/-- Validation of a block as the successor of the tip. -/
def validateNext (crypto : Crypto) (now : UInt64) (memory : ChainMemory) (block : Block) :
    Except ValidationError Unit :=
  validateBlockWithContext crypto now block (memory.height.saturatingAdd 1) memory.network
    memory.tipHash (memory.nextDifficultyTargetForTimestamp block.header.timestamp)
    memory.blocks memory.utxos

/-- The memory once a block has been applied, with its journal `undo` and the
resulting set. -/
def pushBlock (crypto : Crypto) (memory : ChainMemory) (block : Block) (undo : BlockUndo)
    (utxos : UtxoSet) : ChainMemory :=
  let hash := block.header.blockHash crypto
  { memory with
    tip := some block.header
    tipHash := hash
    height := block.header.height
    blockIndexByHash := memory.blockIndexByHash.insert hash memory.blocks.length
    blocks := memory.blocks ++ [block]
    utxos := utxos
    undoStack := memory.undoStack ++ [⟨memory.tip, memory.tipHash, undo⟩] }

def popBlock (crypto : Crypto) (memory : ChainMemory) (undo : ChainUndo) (removed : Block) :
    ChainMemory :=
  { memory with
    undoStack := memory.undoStack.dropLast
    blocks := memory.blocks.dropLast
    blockIndexByHash := memory.blockIndexByHash.erase (removed.header.blockHash crypto)
    utxos := memory.utxos.disconnectBlock undo.blockUndo
    tip := undo.previousTip
    tipHash := undo.previousTipHash
    height := (undo.previousTip.map fun header => header.height).getD 0 }

def pruneHistoryToRetain (crypto : Crypto) (memory : ChainMemory) (retain : Nat) :
    ChainMemory :=
  if memory.blocks.length ≤ retain ∨ retain = 0 then memory
  else
    let pruneCount := memory.blocks.length - retain
    let blocks := memory.blocks.take 1 ++ memory.blocks.drop (1 + pruneCount)
    { memory with
      blocks := blocks
      undoStack := memory.undoStack.drop (min pruneCount memory.undoStack.length)
      blockIndexByHash := buildBlockIndexByHash crypto blocks }

def memoryBlockIndexForHeight (memory : ChainMemory) (height : UInt64) : Option Nat := do
  let first ← memory.blocks.head?
  if height < first.header.height then none
  else
    let index := height.toNat - first.header.height.toNat
    let block ← memory.blocks[index]?
    if block.header.height = height then some index else none

end ChainMemory

namespace Chainstate

def freshWithStorage (host : Host σ) (network : Network) (storage : Option σ) :
    Chainstate σ :=
  { ChainMemory.genesis host.crypto network with
    storage := storage
    history := [] }

def fresh (host : Host σ) (network : Network) : Chainstate σ :=
  freshWithStorage host network none

def note (state : Chainstate σ) (event : ChainEvent) : Chainstate σ :=
  { state with history := state.history ++ [event] }

/-! Looking blocks up. -/

def blockByHeight (host : Host σ) (state : Chainstate σ) (height : UInt64) :
    Except StorageError (Option Block) :=
  match state.memoryBlockIndexForHeight height with
  | some index => .ok state.blocks[index]?
  | none =>
      match state.storage with
      | none => .ok none
      | some storage => do
          match ← host.loadBlockHashByHeight storage height with
          | none => .ok none
          | some blockHash => host.loadBlock storage blockHash

def knownBlockHeight (host : Host σ) (state : Chainstate σ) (blockHash : Bytes 48) :
    Option UInt64 :=
  match state.blockIndexByHash.lookup blockHash with
  | some index => state.blocks[index]?.map fun block => block.header.height
  | none =>
      match state.storage with
      | none => none
      | some storage =>
          match host.loadBlockRecordHeight storage blockHash with
          | .ok height => height
          | .error _ => none

def canonicalForkHeight (host : Host σ) (state : Chainstate σ) (forkHash : Bytes 48) :
    Except StorageError UInt64 := do
  let height ← okOr (state.knownBlockHeight host forkHash) StorageError.forkPointUnavailable
  let canonical ← okOr (← state.blockByHeight host height) StorageError.incompleteBlockHistory
  rejectWhen (canonical.header.blockHash host.crypto ≠ forkHash) .forkPointUnavailable
  pure height

def blocksByHeight (host : Host σ) (state : Chainstate σ) :
    List UInt64 → Except StorageError (List Block)
  | [] => .ok []
  | height :: rest => do
      let block ← okOr (← state.blockByHeight host height) StorageError.incompleteBlockHistory
      let blocks ← state.blocksByHeight host rest
      pure (block :: blocks)

def canonicalBranchAfter (host : Host σ) (state : Chainstate σ) (forkHeight : UInt64) :
    Except StorageError (List Block) :=
  if state.height ≤ forkHeight then .ok []
  else
    state.blocksByHeight host
      ((List.range (state.height.toNat - forkHeight.toNat)).map fun offset =>
        UInt64.ofNat (forkHeight.toNat + 1 + offset))

def canonicalPrefixThrough (host : Host σ) (state : Chainstate σ) (height : UInt64) :
    Except StorageError (List Block) :=
  state.blocksByHeight host ((List.range (height.toNat + 1)).map UInt64.ofNat)

/-! Connecting and disconnecting. -/

/-- Run a database write when there is a database. -/
def persist (state : Chainstate σ) (write : σ → Except StorageError Unit × σ) :
    Except StorageError Unit × Chainstate σ :=
  match state.storage with
  | none => (.ok (), state)
  | some storage =>
      let (result, storage) := write storage
      (result, { state with storage := some storage })

def pruneHistory (host : Host σ) (state : Chainstate σ) : Chainstate σ :=
  let pruneDepth := effectivePruneDepth host state.network
  let retain := (pruneDepth.saturatingAdd 1).toNat
  { state with
    toChainMemory := state.pruneHistoryToRetain host.crypto retain
    storage :=
      if state.height < pruneDepth then state.storage
      else state.storage.map fun storage =>
        host.pruneArchivedBlocks storage state.height pruneDepth }

def connectBlock (host : Host σ) (now : UInt64) (state : Chainstate σ) (block : Block) :
    Except StorageError Unit × Chainstate σ :=
  match state.validateNext host.crypto now block with
  | .error err => (.error (.validation err), state)
  | .ok _ =>
      match state.utxos.applyBlock host.crypto block with
      | (.error err, utxos) =>
          (.error err, { state with utxos := utxos }.note (.clashed block))
      | (.ok undo, utxos) =>
          let snapshot : ChainstateSnapshot :=
            ⟨block.header.height, block.header.blockHash host.crypto, some block.header⟩
          match state.persist fun storage =>
              host.commitChainstate storage snapshot none (some (block.header.height, block)) with
          | (.error err, state) =>
              (.error err,
                { state with utxos := utxos.disconnectBlock undo }.note (.withdrawn block))
          | (.ok _, state) =>
              (.ok (),
                ({ state with
                   toChainMemory := state.pushBlock host.crypto block undo utxos }.note
                  (.connected block)).pruneHistory host)

/-- When the snapshot cannot be written, the removed block is applied again and
the outcome of that is ignored. -/
def disconnectLastBlock (host : Host σ) (state : Chainstate σ) :
    Except StorageError Unit × Chainstate σ :=
  match state.undoStack.getLast?, state.blocks.getLast? with
  | some undo, some removed =>
      let memory := state.popBlock host.crypto undo removed
      let snapshot : ChainstateSnapshot := ⟨memory.height, memory.tipHash, memory.tip⟩
      match state.persist fun storage =>
          host.commitChainstate storage snapshot (some memory.utxos) none with
      | (.error err, state) =>
          (.error err,
            { state with utxos := (memory.utxos.applyBlock host.crypto removed).2 }.note
              (.reinstated removed))
      | (.ok _, state) =>
          (.ok (), { state with toChainMemory := memory }.note (.disconnected removed))
  | _, _ => (.error .noBlockToDisconnect, state)

/-- Connect block after block, counting those that went through. -/
def connectBlocks (host : Host σ) (now : UInt64) :
    (state : Chainstate σ) → List Block → Except StorageError Unit × Nat × Chainstate σ
  | state, [] => (.ok (), 0, state)
  | state, block :: rest =>
      match state.connectBlock host now block with
      | (.error err, state) => (.error err, 0, state)
      | (.ok _, state) =>
          let (result, count, state) := connectBlocks host now state rest
          (result, count + 1, state)

/-- Disconnect a number of blocks, counting those that went through. -/
def disconnectBlocks (host : Host σ) :
    (state : Chainstate σ) → (count : Nat) → Except StorageError Unit × Nat × Chainstate σ
  | state, 0 => (.ok (), 0, state)
  | state, remaining + 1 =>
      match state.disconnectLastBlock host with
      | (.error err, state) => (.error err, 0, state)
      | (.ok _, state) =>
          let (result, count, state) := disconnectBlocks host state remaining
          (result, count + 1, state)

/-! Branch selection. -/

def validateReplacementChain (host : Host σ) (now : UInt64) (network : Network) :
    List Block → Except StorageError (Chainstate σ)
  | [] => .error .incompleteBlockHistory
  | first :: rest => do
      rejectWhen (first.header.height ≠ 0 ∨
        first.header.blockHash host.crypto ≠ genesisHash host.crypto network)
        .persistedGenesisMismatch
      rejectWhen ((genesisBlock host.crypto network).header.blockHash host.crypto ≠
        first.header.blockHash host.crypto) .persistedGenesisMismatch
      match (fresh host network).connectBlocks host now rest with
      | (.error err, _, _) => .error err
      | (.ok _, _, validated) => .ok validated

def replaceWithValidatedBranch (host : Host σ) (now : UInt64) (state : Chainstate σ)
    (forkHeight : UInt64) (branch : List Block) :
    Except StorageError Unit × Chainstate σ :=
  match state.canonicalPrefixThrough host forkHeight with
  | .error err => (.error err, state)
  | .ok canonical =>
      let blocks := canonical ++ branch
      match validateReplacementChain host now state.network blocks with
      | .error err => (.error err, state)
      | .ok validated =>
          let snapshot : ChainstateSnapshot :=
            ⟨validated.height, validated.tipHash, validated.tip⟩
          match state.persist fun storage =>
              host.replaceChainstate storage snapshot validated.utxos blocks with
          | (.error err, state) => (.error err, state.note .replaceFailed)
          | (.ok _, state) =>
              (.ok (),
                ({ state with
                   toChainMemory := { validated.toChainMemory with network := state.network }
                  }.note (.replaced blocks.tail)).pruneHistory host)

/-- How far a switch got: the canonical suffix, and how many of its blocks were
disconnected and how many candidate blocks connected. -/
structure IncrementalBranchSwitchJournal where
  forkHeight : UInt64
  canonicalSuffix : List Block
  disconnectedCount : Nat
  connectedCount : Nat

def IncrementalBranchSwitchJournal.disconnectedSuffixToRestore
    (journal : IncrementalBranchSwitchJournal) : List Block :=
  journal.canonicalSuffix.drop (journal.canonicalSuffix.length - journal.disconnectedCount)

def rollbackIncrementalBranchSwitch (host : Host σ) (now : UInt64) (state : Chainstate σ)
    (journal : IncrementalBranchSwitchJournal) : Except StorageError Unit × Chainstate σ :=
  match state.disconnectBlocks host journal.connectedCount with
  | (.error err, _, state) => (.error err, state)
  | (.ok _, _, state) =>
      let (result, _, state) := state.connectBlocks host now journal.disconnectedSuffixToRestore
      (result, state)

def restoreOriginalBranchFromJournal (host : Host σ) (now : UInt64) (state : Chainstate σ)
    (journal : IncrementalBranchSwitchJournal) : Except StorageError Unit × Chainstate σ :=
  match state.rollbackIncrementalBranchSwitch host now journal with
  | (.ok _, state) => (.ok (), state)
  | (.error _, state) =>
      state.replaceWithValidatedBranch host now journal.forkHeight
        journal.disconnectedSuffixToRestore

/-- Report `err` after restoring, or the error that restoring ran into. -/
def failSwitch (host : Host σ) (now : UInt64) (state : Chainstate σ)
    (journal : IncrementalBranchSwitchJournal) (err : StorageError) :
    Except StorageError Unit × Chainstate σ :=
  match state.restoreOriginalBranchFromJournal host now journal with
  | (.ok _, state) => (.error err, state)
  | (.error rollbackErr, state) => (.error rollbackErr, state)

def switchBranchIncrementally (host : Host σ) (now : UInt64) (state : Chainstate σ)
    (forkHeight : UInt64) (disconnected branch : List Block) :
    Except StorageError Unit × Chainstate σ :=
  match state.disconnectBlocks host disconnected.length with
  | (.error err, count, state) =>
      state.failSwitch host now ⟨forkHeight, disconnected, count, 0⟩ err
  | (.ok _, count, state) =>
      match state.connectBlocks host now branch with
      | (.error err, connected, state) =>
          state.failSwitch host now ⟨forkHeight, disconnected, count, connected⟩ err
      | (.ok _, _, state) => (.ok (), state)

def extendWithValidatedBranch (host : Host σ) (now : UInt64) (state : Chainstate σ)
    (branch : List Block) : Except StorageError Unit × Chainstate σ :=
  match state.connectBlocks host now branch with
  | (.ok _, _, state) => (.ok (), state)
  | (.error err, connected, state) =>
      match state.disconnectBlocks host connected with
      | (.error rollbackErr, _, state) => (.error rollbackErr, state)
      | (.ok _, _, state) => (.error err, state)

/-- What branch selection has established before it changes anything. -/
structure BranchPlan where
  forkHash : Bytes 48
  forkHeight : UInt64
  disconnected : List Block

def planBranch (host : Host σ) (state : Chainstate σ) (branch : List Block)
    (maxReorgDepth : UInt64) : Except StorageError BranchPlan :=
  match branch with
  | [] => .error .emptyBranch
  | first :: _ => do
      validateBranchSequence host.crypto branch
      let forkHash := first.header.previousBlockHash
      let forkHeight ← state.canonicalForkHeight host forkHash
      rejectWhen (first.header.height ≠ forkHeight.saturatingAdd 1)
        .invalidBranchSequence
      let disconnected ← state.canonicalBranchAfter host forkHeight
      match disconnected.isEmpty, reorgDepthError state.height forkHeight maxReorgDepth with
      | false, some err => .error err
      | _, _ => pure ⟨forkHash, forkHeight, disconnected⟩

def canSwitchIncrementally (host : Host σ) (state : Chainstate σ) (plan : BranchPlan) : Bool :=
  match state.blocks.findIdx? fun block => block.header.blockHash host.crypto == plan.forkHash with
  | none => false
  | some index =>
      (state.blocks.drop (index + 1)).length == plan.disconnected.length &&
        decide (plan.disconnected.length ≤ state.undoStack.length)

def reportSelection (outcome : ChainSelectionOutcome) (disconnected : List Block)
    (result : Except StorageError Unit × Chainstate σ) :
    Except StorageError ChainSelectionResult × Chainstate σ :=
  (result.1.map fun _ => ⟨outcome, disconnected⟩, result.2)

def selectBranchWithMaxReorgDepth (host : Host σ) (now : UInt64) (state : Chainstate σ)
    (branch : List Block) (maxReorgDepth : UInt64) :
    Except StorageError ChainSelectionResult × Chainstate σ :=
  match state.planBranch host branch maxReorgDepth with
  | .error err => (.error err, state)
  | .ok plan =>
      if plan.disconnected = [] then
        reportSelection .extended [] (state.extendWithValidatedBranch host now branch)
      else if !branchIsPreferred host.crypto branch plan.disconnected then
        (.ok ⟨.keptCurrent, []⟩, state)
      else if !state.canSwitchIncrementally host plan then
        reportSelection .reorged plan.disconnected
          (state.replaceWithValidatedBranch host now plan.forkHeight branch)
      else
        reportSelection .reorged plan.disconnected
          (state.switchBranchIncrementally host now plan.forkHeight plan.disconnected branch)

def maxReorgDepth (host : Host σ) (state : Chainstate σ) : UInt64 :=
  effectiveMaxReorgDepth host state.network

def selectBranch (host : Host σ) (now : UInt64) (state : Chainstate σ) (branch : List Block) :
    Except StorageError ChainSelectionResult × Chainstate σ :=
  state.selectBranchWithMaxReorgDepth host now branch (state.maxReorgDepth host)

end Chainstate

/-! Loading. -/

def recentBlockReloadLimit : Nat := 27

structure PersistedChainstate where
  height : UInt64
  tipHash : Bytes 48
  tipHeader : Option BlockHeader
  utxos : List UtxoEntry

/-- Walk back from a hash until `limit` blocks are read or genesis is reached;
`newer` are the blocks read so far. -/
def loadRecentBlocksFrom (host : Host σ) (storage : σ) : (limit : Nat) → (newer : List Block) →
    (nextHash : Bytes 48) → Except StorageError (List Block)
  | 0, newer, _ => .ok newer
  | limit + 1, newer, nextHash => do
      match ← host.loadBlock storage nextHash with
      | none => if newer.isEmpty then .ok [] else .error .incompleteBlockHistory
      | some block =>
          if block.header.height = 0 then .ok (block :: newer)
          else
            loadRecentBlocksFrom host storage limit (block :: newer)
              block.header.previousBlockHash

def loadRecentBlocksFromStorage (host : Host σ) (storage : σ) (tipHash : Bytes 48)
    (limit : Nat) : Except StorageError (List Block) :=
  loadRecentBlocksFrom host storage limit [] tipHash

def reconstructSpent (host : Host σ) (network : Network) (storage : σ) :
    List TxInput → Except StorageError (List UtxoEntry)
  | [] => .ok []
  | input :: rest => do
      let previous ← okOr (← host.loadTransaction storage input.previousTxid)
        StorageError.incompleteBlockHistory
      let output ← okOr previous.transaction.outputs[input.outputIndex.toNat]?
        StorageError.corruptData
      let spent ← reconstructSpent host network storage rest
      pure
        ({ network := network
           txid := input.previousTxid
           outputIndex := input.outputIndex
           valueAtoms := output.valueAtoms
           lockingScript := output.lockingScript
           createdHeight := previous.height
           isCoinbase := previous.transaction.isCoinbase } :: spent)

def reconstructBlockUndoFromStorage (host : Host σ) (network : Network) (storage : σ)
    (height : UInt64) : List Transaction → Except StorageError BlockUndo
  | [] => .ok ⟨[], []⟩
  | tx :: rest => do
      let spent ← reconstructSpent host network storage tx.inputs
      let undo ← reconstructBlockUndoFromStorage host network storage height rest
      pure ⟨spent ++ undo.spent,
        UtxoSet.createOutputs host.crypto tx network height ++ undo.created⟩

/-- One undo record for each block after the first. -/
def rehydrateUndoStack (host : Host σ) (network : Network) (storage : σ) :
    List Block → Except StorageError (List ChainUndo)
  | previous :: block :: rest => do
      let stack ← rehydrateUndoStack host network storage (block :: rest)
      let undo ← reconstructBlockUndoFromStorage host network storage block.header.height
        block.transactions
      pure (⟨some previous.header, previous.header.blockHash host.crypto, undo⟩ :: stack)
  | _ => .ok []

def rehydrateUndoStackFromStorage (host : Host σ) (network : Network) (storage : σ)
    (blocks : List Block) : Except StorageError (List ChainUndo) := do
  validateBranchSequence host.crypto blocks
  rehydrateUndoStack host network storage blocks

def insertPersistedUtxos (set : UtxoSet) : List UtxoEntry → Except StorageError UtxoSet
  | [] => .ok set
  | entry :: rest =>
      match set.insert entry with
      | (.error err, _) => .error err
      | (.ok _, set) => insertPersistedUtxos set rest

namespace PersistedChainstate

def loadTip (host : Host σ) (persisted : PersistedChainstate) (storage : Option σ) :
    Except StorageError (Option BlockHeader) :=
  match persisted.tipHeader with
  | some header => do
      rejectWhen (header.height ≠ persisted.height ∨
        header.blockHash host.crypto ≠ persisted.tipHash) .persistedTipMismatch
      pure (some header)
  | none =>
      match storage with
      | none => .ok none
      | some storage =>
          match host.loadBlock storage persisted.tipHash with
          | .ok (some block) => .ok (some block.header)
          | _ => .ok none

def loadBlocks (host : Host σ) (persisted : PersistedChainstate) (network : Network)
    (storage : Option σ) : Except StorageError (List Block) := do
  if persisted.height = 0 then pure [genesisBlock host.crypto network]
  else
    let storage ← okOr storage StorageError.incompleteBlockHistory
    let blocks ← loadRecentBlocksFromStorage host storage persisted.tipHash
      recentBlockReloadLimit
    let last ← okOr blocks.getLast? StorageError.incompleteBlockHistory
    rejectWhen (last.header.height ≠ persisted.height ∨
      last.header.blockHash host.crypto ≠ persisted.tipHash) .persistedTipMismatch
    pure blocks

def tryIntoChainstate (host : Host σ) (persisted : PersistedChainstate) (network : Network)
    (storage : Option σ) : Except StorageError (Chainstate σ) := do
  let utxos ← insertPersistedUtxos (.new network) persisted.utxos
  rejectWhen (persisted.height = 0 ∧
    (persisted.tipHash ≠ genesisHash host.crypto network ∨
      (utxos.get ⟨(genesisCoinbase network).txid host.crypto, 0⟩).isNone))
    .persistedGenesisMismatch
  let tip ← persisted.loadTip host storage
  let blocks ← persisted.loadBlocks host network storage
  let undoStack ← match storage with
    | some storage => rehydrateUndoStackFromStorage host network storage blocks
    | none => pure []
  pure
    { network := network
      tip := tip
      tipHash := persisted.tipHash
      height := persisted.height
      blocks := blocks
      blockIndexByHash := buildBlockIndexByHash host.crypto blocks
      utxos := utxos
      undoStack := undoStack
      storage := storage
      history := [] }

end PersistedChainstate

end Atho
