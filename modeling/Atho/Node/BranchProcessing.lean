import Atho.Node.BufferedBranches
import Atho.P2p.Downloader

/-! What becomes of the branch that the synchronization goes for, and which blocks it condemns when
the node rejects the branch. -/

namespace Atho

open Relation

variable {σ Rest : Type}

inductive BlockValidationState where
  | headerSeen
  | headerValidated
  | checkpointAnchored
  | bodyRequested
  | bodyDownloaded
  | tempStoredUntrusted
  | validationQueued
  | fullyValidated
  | connected
  | finalized
  | invalid
  deriving DecidableEq

/-- The part of the synchronization that keeps track of blocks. The rest are the connections, the
header relay, the clocks and the messages to be sent. -/
structure BlockSync (Rest : Type) where
  downloader : BlockDownloadScheduler
  sideBranches : SideBranchPool
  pendingCompactBlocks : Std.TreeSet (Bytes 48)
  pendingHeaderBlocks : Std.TreeMap UInt64 (Std.TreeMap (Bytes 48) (Std.TreeSet String))
  blockValidationStates : Std.TreeMap (Bytes 48) BlockValidationState
  blockValidationHeights : Std.TreeMap (Bytes 48) UInt64
  rest : Rest

/-- What the synchronization asks of the node and of its rest once the chain has moved on. -/
structure ProgressHandlers (σ Rest : Type) where
  finalizedCheckpoint : Node σ → Option (UInt64 × Bytes 48)
  observeTip : Node σ → Rest → Rest
  resumeDownloads : Option String → Node σ → BlockSync Rest → BlockSync Rest

namespace BlockSync

def markBlockState (sync : BlockSync Rest) (hash : Bytes 48) (height : UInt64)
    (state : BlockValidationState) : BlockSync Rest :=
  { sync with
    blockValidationHeights := sync.blockValidationHeights.insert hash height
    blockValidationStates := sync.blockValidationStates.insert hash state }

def removePendingHeaderBlock (sync : BlockSync Rest) (height : UInt64) (hash : Bytes 48) :
    BlockSync Rest :=
  match sync.pendingHeaderBlocks[height]? with
  | none => sync
  | some blocksAtHeight =>
      { sync with
        pendingHeaderBlocks :=
          if (blocksAtHeight.erase hash).isEmpty then sync.pendingHeaderBlocks.erase height
          else sync.pendingHeaderBlocks.insert height (blocksAtHeight.erase hash) }

/-- What happens to a block and to each of its descendants, whatever the pool has of them. -/
def condemn (sync : BlockSync Rest) (hash : Bytes 48) (height : UInt64) : BlockSync Rest :=
  let sync := sync.markBlockState hash height .invalid
  { sync with
    downloader := sync.downloader.noteBlockReceived hash
    pendingCompactBlocks := sync.pendingCompactBlocks.erase hash
      }.removePendingHeaderBlock height hash

def markInvalidBlockFamily (crypto : Crypto) (sync : BlockSync Rest) (hash : Bytes 48)
    (height : UInt64) : Nat × BlockSync Rest :=
  let sync := sync.condemn hash height
  let (removed, pool) := sync.sideBranches.remove hash
  let (descendants, pool) := pool.removeDescendantsOf hash
  (removed.toList.length + descendants.length,
    descendants.foldl
      (fun sync block => sync.condemn (block.header.blockHash crypto) block.header.height)
      { sync with sideBranches := pool })

/-- Condemn all blocks of a branch, and count what was dropped. -/
def dropBranch (crypto : Crypto) (sync : BlockSync Rest) (hashes : List (Bytes 48)) :
    Nat × BlockSync Rest :=
  hashes.foldl
    (fun (dropped, sync) hash =>
      let height := sync.blockValidationHeights[hash]?.getD 0
      let (removed, sync) := sync.markInvalidBlockFamily crypto hash height
      (dropped + max removed 1, sync))
    (0, sync)

section

variable (handlers : ProgressHandlers σ Rest)

def markFinalizedBoundary (sync : BlockSync Rest) (node : Node σ) : BlockSync Rest :=
  match handlers.finalizedCheckpoint node with
  | none => sync
  | some (height, blockHash) => sync.markBlockState blockHash height .finalized

def noteLocalChainProgress (sync : BlockSync Rest) (node : Node σ) : BlockSync Rest :=
  { sync with rest := handlers.observeTip node sync.rest }.markBlockState node.chainstate.tipHash
    node.chainstate.height .connected |>.markFinalizedBoundary handlers node

/-- A block of a branch that the node has taken. -/
def noteConnected (host : Host σ) (node : Node σ) (sync : BlockSync Rest) (hash : Bytes 48) :
    BlockSync Rest :=
  let height := sync.blockValidationHeights[hash]?.getD
    (((node.blockByHash host hash).map fun block => block.header.height).getD 0)
  let sync := (sync.markBlockState hash height .fullyValidated).markBlockState hash height .connected
  { sync with
    downloader := sync.downloader.noteBlockReceived hash
    pendingCompactBlocks := sync.pendingCompactBlocks.erase hash
    sideBranches := (sync.sideBranches.remove hash).2 }

def noteConnectedBranch (host : Host σ) (mainChain : σ → Bytes 48 → Bool)
    (preferredPeer : Option String) (sync : BlockSync Rest) (node : Node σ)
    (hashes : List (Bytes 48)) : BlockSync Rest :=
  let sync := sync.noteLocalChainProgress handlers node
  let sync := (hashes.foldl (noteConnected host node) sync).markFinalizedBoundary handlers node
  handlers.resumeDownloads preferredPeer node
    { sync with
      sideBranches :=
        sync.sideBranches.removeCanonicalBlocks (node.isCanonicalBlock host mainChain) }

/-- A branch on the tip is taken in pieces. -/
def offeredBranch (node : Node σ) (maxExtensionBlocks : Nat) (branch : List Block) : List Block :=
  if branch.head?.any fun block => block.header.previousBlockHash == node.chainstate.tipHash then
    branch.take maxExtensionBlocks
  else branch

def maxBufferedExtensionConnectBlocksPerPass : Nat := 256

def processBufferedBranchOnce (host : Host σ) (mainChain : σ → Bytes 48 → Bool) (now : UInt64)
    (preferredPeer : Option String) (maxExtensionBlocks : Nat) (sync : BlockSync Rest)
    (node : Node σ) : Nat × BlockSync Rest × Node σ :=
  if sync.sideBranches.blocks.isEmpty then (0, sync, node)
  else
    match sync.sideBranches.bestBufferedBranch host mainChain node with
    | none => (0, sync, node)
    | some best =>
        let branch := offeredBranch node maxExtensionBlocks best
        let hashes := blockHashes host.crypto branch
        match node.considerBranch host now branch with
        | (.ok selection, node) =>
            if selection.outcome = .keptCurrent then (0, sync, node)
            else
              (hashes.length,
                sync.noteConnectedBranch handlers host mainChain preferredPeer node hashes, node)
        | (.error (.storage .forkPointUnavailable), node) =>
            match hashes.getLast? with
            -- The branch has a block: an empty one is rejected for that.
            | none => (0, sync, node)
            | some tipHash =>
                (1, { sync with sideBranches := (sync.sideBranches.remove tipHash).2 }, node)
        | (.error _, node) =>
            -- The two remaining arms of the source differ in what they log.
            let (dropped, sync) := sync.dropBranch host.crypto hashes
            (max (max dropped hashes.length) 1, sync, node)

end

end BlockSync

/-! Condemned blocks. -/

namespace SideBranchPool

variable {crypto : Crypto} {pool : SideBranchPool}

theorem Removals.isChild {before after : SideBranchPool} (hremovals : Removals before after)
    {parent hash : Bytes 48} (hchild : after.IsChild parent hash) :
    before.IsChild parent hash := by
  induction hremovals with
  | refl => exact hchild
  | tail _ hremove ih =>
      obtain ⟨removed, rfl⟩ := hremove
      obtain ⟨entry, hentry, hparent⟩ := hchild
      rw [getElem?_remove] at hentry
      split at hentry
      · cases hentry
      · exact ih ⟨entry, hentry, hparent⟩

/-- A block and what descends from it in the pool. -/
abbrev InFamily (pool : SideBranchPool) (root hash : Bytes 48) : Prop :=
  ReflTransGen pool.IsChild root hash

theorem inFamily_iff_remove {root hash : Bytes 48} :
    pool.InFamily root hash ↔
      hash = root ∨ TransGen (pool.remove root).2.IsChild root hash := by
  constructor
  · intro hfamily
    induction hfamily with
    | refl => exact .inl rfl
    | @tail middle hash _ hchild ih =>
        by_cases hroot : hash = root
        · exact .inl hroot
        · right
          have hkept : (pool.remove root).2.IsChild middle hash := by
            obtain ⟨entry, hentry, hparent⟩ := hchild
            exact ⟨entry, by rwa [getElem?_remove, if_neg hroot], hparent⟩
          rcases ih with rfl | hbelow
          · exact .single hkept
          · exact hbelow.tail hkept
  · rintro (rfl | hbelow)
    · exact .refl
    · apply TransGen.to_reflTransGen
      exact TransGen.mono (fun _ _ => Removals.isChild (.single ⟨root, rfl⟩)) _ _ hbelow

theorem inFamily_of_outside {after : SideBranchPool} {root other hash : Bytes 48}
    (hsame : ∀ hash : Bytes 48, ¬pool.InFamily root hash →
      after.blocks[hash]? = pool.blocks[hash]?)
    (hfamily : pool.InFamily other hash) :
    pool.InFamily root hash ∨ after.InFamily other hash := by
  induction hfamily with
  | refl => exact .inr .refl
  | @tail middle hash _ hchild ih =>
      by_cases hroot : pool.InFamily root hash
      · exact .inl hroot
      · rcases ih with hmiddle | hmiddle
        · exact absurd (hmiddle.tail hchild) hroot
        · obtain ⟨entry, hentry, hparent⟩ := hchild
          exact .inr (hmiddle.tail ⟨entry, by rw [hsame hash hroot, hentry], hparent⟩)

theorem mem_blockHashes_removeDescendantsOf (hindexed : pool.Indexed) (hkeyed : pool.Keyed crypto)
    {root hash : Bytes 48} :
    hash ∈ blockHashes crypto (pool.removeDescendantsOf root).1 ↔
      TransGen pool.IsChild root hash := by
  obtain ⟨-, -, hblocks⟩ := hindexed.removeDescendantsOf root
  simp only [blockHashes, List.mem_map, hblocks]
  constructor
  · rintro ⟨_, ⟨found, entry, hbelow, hentry, rfl⟩, rfl⟩
    rwa [hkeyed found entry hentry]
  · intro hbelow
    obtain ⟨parent, -, entry, hentry, -⟩ := TransGen.tail'_iff.mp hbelow
    exact ⟨entry.block, ⟨hash, entry, hbelow, hentry, rfl⟩, hkeyed hash entry hentry⟩

end SideBranchPool

theorem BlockDownloadScheduler.completed_noteBlockReceived (scheduler : BlockDownloadScheduler)
    (hash : Bytes 48) :
    (scheduler.noteBlockReceived hash).completed = scheduler.completed.insert hash := by
  unfold noteBlockReceived noteHashCompleted
  dsimp only
  split
  · unfold decayPeerPenalty
    split <;> rfl
  · rfl

namespace BlockSync

variable {crypto : Crypto} {sync : BlockSync Rest}

/-- Exactly the blocks of the family are marked, completed and out of the pool. -/
structure Condemns (family : Bytes 48 → Prop) (before after : BlockSync Rest) : Prop where
  states : ∀ hash, family hash → after.blockValidationStates[hash]? = some .invalid
  completed : ∀ hash, family hash → hash ∈ after.downloader.completed
  blocks : ∀ hash : Bytes 48, family hash → after.sideBranches.blocks[hash]? = none
  completed_other : ∀ hash, ¬family hash →
    (hash ∈ after.downloader.completed ↔ hash ∈ before.downloader.completed)
  states_other : ∀ hash, ¬family hash →
    after.blockValidationStates[hash]? = before.blockValidationStates[hash]?
  blocks_other : ∀ hash : Bytes 48, ¬family hash →
    after.sideBranches.blocks[hash]? = before.sideBranches.blocks[hash]?

theorem sideBranches_condemn (hash : Bytes 48) (height : UInt64) :
    (sync.condemn hash height).sideBranches = sync.sideBranches := by
  unfold condemn removePendingHeaderBlock
  dsimp only
  split <;> rfl

theorem states_condemn (hash : Bytes 48) (height : UInt64) :
    (sync.condemn hash height).blockValidationStates =
      sync.blockValidationStates.insert hash .invalid := by
  unfold condemn removePendingHeaderBlock
  dsimp only
  split <;> rfl

theorem completed_condemn (hash : Bytes 48) (height : UInt64) :
    (sync.condemn hash height).downloader.completed = sync.downloader.completed.insert hash := by
  rw [← BlockDownloadScheduler.completed_noteBlockReceived]
  unfold condemn removePendingHeaderBlock
  dsimp only
  split <;> rfl

theorem condemns_foldl (blocks : List Block) :
    let after := blocks.foldl
      (fun sync block => sync.condemn (block.header.blockHash crypto) block.header.height) sync
    after.sideBranches = sync.sideBranches ∧
      (∀ hash, after.blockValidationStates[hash]? =
        if hash ∈ blockHashes crypto blocks then some .invalid
        else sync.blockValidationStates[hash]?) ∧
      ∀ hash, hash ∈ after.downloader.completed ↔
        hash ∈ blockHashes crypto blocks ∨ hash ∈ sync.downloader.completed := by
  induction blocks generalizing sync with
  | nil => simp [blockHashes]
  | cons block blocks ih =>
      obtain ⟨hpool, hstates, hcompleted⟩ :=
        @ih (sync.condemn (block.header.blockHash crypto) block.header.height)
      refine ⟨hpool.trans (sideBranches_condemn _ _), fun hash => ?_, fun hash => ?_⟩
      · rw [List.foldl_cons, hstates, states_condemn, Std.TreeMap.getElem?_insert]
        simp only [Std.LawfulEqOrd.compare_eq_iff_eq, blockHashes, List.map_cons, List.mem_cons]
        by_cases hrest : hash ∈ blocks.map fun block => block.header.blockHash crypto
        · simp [hrest]
        · simp [hrest, @eq_comm _ hash]
      · rw [List.foldl_cons, hcompleted, completed_condemn, Std.TreeSet.mem_insert,
          Std.LawfulEqOrd.compare_eq_iff_eq]
        simp only [blockHashes, List.map_cons, List.mem_cons]
        tauto

theorem markInvalidBlockFamily_eq (hash : Bytes 48) (height : UInt64) :
    (sync.markInvalidBlockFamily crypto hash height).2 =
      ((sync.sideBranches.remove hash).2.removeDescendantsOf hash).1.foldl
        (fun sync block => sync.condemn (block.header.blockHash crypto) block.header.height)
        { sync.condemn hash height with
          sideBranches := ((sync.sideBranches.remove hash).2.removeDescendantsOf hash).2 } := by
  unfold markInvalidBlockFamily
  dsimp only
  rw [sideBranches_condemn]

theorem removals_markInvalidBlockFamily (hash : Bytes 48) (height : UInt64) :
    SideBranchPool.Removals sync.sideBranches
      (sync.markInvalidBlockFamily crypto hash height).2.sideBranches := by
  rw [markInvalidBlockFamily_eq, (condemns_foldl _).1]
  exact .head ⟨hash, rfl⟩ (SideBranchPool.removals_removeAll _ _)

theorem markInvalidBlockFamily_condemns (hindexed : sync.sideBranches.Indexed)
    (hkeyed : sync.sideBranches.Keyed crypto) (hash : Bytes 48) (height : UInt64) :
    Condemns (sync.sideBranches.InFamily hash) sync
      (sync.markInvalidBlockFamily crypto hash height).2 := by
  have hpool : (sync.sideBranches.remove hash).2.Indexed := hindexed.remove
  obtain ⟨hgone, hkept, -⟩ := hpool.removeDescendantsOf hash
  have hfamily : ∀ other, sync.sideBranches.InFamily hash other ↔
      other ∈ blockHashes crypto ((sync.sideBranches.remove hash).2.removeDescendantsOf hash).1 ∨
        hash = other := by
    intro other
    rw [SideBranchPool.inFamily_iff_remove, or_comm, @eq_comm _ other,
      SideBranchPool.mem_blockHashes_removeDescendantsOf hpool (hkeyed.remove hash)]
  obtain ⟨hblocks, hstates, hcompleted⟩ := @condemns_foldl Rest crypto
    { sync.condemn hash height with
      sideBranches := ((sync.sideBranches.remove hash).2.removeDescendantsOf hash).2 }
    ((sync.sideBranches.remove hash).2.removeDescendantsOf hash).1
  rw [← markInvalidBlockFamily_eq] at hblocks hstates hcompleted
  have hdone : ∀ other,
      other ∈ (sync.markInvalidBlockFamily crypto hash height).2.downloader.completed ↔
        sync.sideBranches.InFamily hash other ∨ other ∈ sync.downloader.completed := by
    intro other
    rw [hcompleted, completed_condemn, Std.TreeSet.mem_insert, Std.LawfulEqOrd.compare_eq_iff_eq,
      ← or_assoc, ← hfamily]
  constructor
  · intro other hother
    rw [hstates, states_condemn, Std.TreeMap.getElem?_insert]
    simp only [Std.LawfulEqOrd.compare_eq_iff_eq]
    rcases (hfamily other).mp hother with hbelow | rfl
    · rw [if_pos hbelow]
    · rw [if_pos rfl, ite_self]
  · intro other hother
    exact (hdone other).mpr (.inl hother)
  · intro other hother
    rw [hblocks]
    by_cases hbelow : TransGen (sync.sideBranches.remove hash).2.IsChild hash other
    · exact hgone other hbelow
    · rw [hkept other hbelow, SideBranchPool.getElem?_remove, if_pos]
      exact (SideBranchPool.inFamily_iff_remove.mp hother).resolve_right hbelow
  · intro other hother
    exact (hdone other).trans (or_iff_right hother)
  · intro other hother
    rw [hfamily, not_or] at hother
    rw [hstates, if_neg hother.1, states_condemn, Std.TreeMap.getElem?_insert, if_neg]
    rw [Std.LawfulEqOrd.compare_eq_iff_eq]
    exact hother.2
  · intro other hother
    rw [SideBranchPool.inFamily_iff_remove, not_or] at hother
    rw [hblocks, hkept other hother.2, SideBranchPool.getElem?_remove, if_neg hother.1]

theorem Condemns.congr {family other : Bytes 48 → Prop} {before after : BlockSync Rest}
    (hiff : ∀ hash, family hash ↔ other hash) (hcondemns : Condemns family before after) :
    Condemns other before after := by
  obtain rfl : family = other := funext fun hash => propext (hiff hash)
  exact hcondemns

theorem Condemns.trans {first second : Bytes 48 → Prop} {before middle after : BlockSync Rest}
    (hfirst : Condemns first before middle) (hsecond : Condemns second middle after) :
    Condemns (fun hash => first hash ∨ second hash) before after := by
  constructor
  · intro hash hfamily
    by_cases hlater : second hash
    · exact hsecond.states hash hlater
    · rw [hsecond.states_other hash hlater]
      exact hfirst.states hash (hfamily.resolve_right hlater)
  · intro hash hfamily
    by_cases hlater : second hash
    · exact hsecond.completed hash hlater
    · rw [hsecond.completed_other hash hlater]
      exact hfirst.completed hash (hfamily.resolve_right hlater)
  · intro hash hfamily
    by_cases hlater : second hash
    · exact hsecond.blocks hash hlater
    · rw [hsecond.blocks_other hash hlater]
      exact hfirst.blocks hash (hfamily.resolve_right hlater)
  · intro hash hfamily
    rw [not_or] at hfamily
    rw [hsecond.completed_other hash hfamily.2, hfirst.completed_other hash hfamily.1]
  · intro hash hfamily
    rw [not_or] at hfamily
    rw [hsecond.states_other hash hfamily.2, hfirst.states_other hash hfamily.1]
  · intro hash hfamily
    rw [not_or] at hfamily
    rw [hsecond.blocks_other hash hfamily.2, hfirst.blocks_other hash hfamily.1]

theorem dropBranch_condemns (hindexed : sync.sideBranches.Indexed)
    (hkeyed : sync.sideBranches.Keyed crypto) (hashes : List (Bytes 48)) :
    Condemns (fun hash => ∃ root ∈ hashes, sync.sideBranches.InFamily root hash) sync
      (sync.dropBranch crypto hashes).2 := by
  unfold dropBranch
  generalize 0 = dropped
  induction hashes generalizing sync dropped with
  | nil =>
      constructor <;> simp
  | cons hash rest ih =>
      rw [List.foldl_cons]
      have hremovals := @removals_markInvalidBlockFamily Rest crypto sync hash
        (sync.blockValidationHeights[hash]?.getD 0)
      have hfirst := markInvalidBlockFamily_condemns hindexed hkeyed hash
        (sync.blockValidationHeights[hash]?.getD 0)
      refine Condemns.congr (fun other => ?_)
        (hfirst.trans (ih (hremovals.indexed hindexed) (hremovals.keyed hkeyed) _))
      simp only [List.exists_mem_cons_iff]
      constructor
      · rintro (hfamily | ⟨root, hroot, hfamily⟩)
        · exact .inl hfamily
        · exact .inr ⟨root, hroot, ReflTransGen.mono (fun _ _ => hremovals.isChild) _ _ hfamily⟩
      · rintro (hfamily | ⟨root, hroot, hfamily⟩)
        · exact .inl hfamily
        · exact (SideBranchPool.inFamily_of_outside hfirst.blocks_other hfamily).imp_right
            fun hfamily => ⟨root, hroot, hfamily⟩

/-- Neither marked, nor removed from the pool, nor recorded as completed. -/
def Spares (sync : BlockSync Rest) (hash : Bytes 48) : Prop :=
  sync.blockValidationStates[hash]? ≠ some .invalid ∧ sync.sideBranches.blocks[hash]? ≠ none ∧
    hash ∉ sync.downloader.completed

end BlockSync

section Rejected

open BlockSync

variable {handlers : ProgressHandlers σ Rest} {host : Host σ} {mainChain : σ → Bytes 48 → Bool}
  {now : UInt64} {preferredPeer : Option String} {maxExtensionBlocks : Nat} {sync : BlockSync Rest}
  {node : Node σ} {best : List Block} {err : NodeError}

theorem SideBranchPool.not_isEmpty_of_best {pool : SideBranchPool}
    (hbest : pool.bestBufferedBranch host mainChain node = some best) :
    pool.blocks.isEmpty = false := by
  rw [bestBufferedBranch_eq] at hbest
  obtain ⟨⟨tip, -, hbuffered⟩, -⟩ := mem_candidates.mp (BestOf.mem_of_bestOf hbest)
  obtain ⟨block, hblock, -⟩ := hbuffered.exists_lookup
  obtain ⟨entry, hentry, -⟩ := get_eq_some.mp hblock
  rw [← Bool.not_eq_true]
  intro hempty
  rw [Std.TreeMap.isEmpty_iff_forall_not_mem] at hempty
  apply hempty tip
  rw [Std.TreeMap.mem_iff_isSome_getElem?, hentry]
  rfl

theorem processBufferedBranchOnce_rejected
    (hbest : sync.sideBranches.bestBufferedBranch host mainChain node = some best)
    (hrejected :
      (node.considerBranch host now (offeredBranch node maxExtensionBlocks best)).1 = .error err) :
    let hashes := blockHashes host.crypto (offeredBranch node maxExtensionBlocks best)
    let after := (sync.processBufferedBranchOnce handlers host mainChain now preferredPeer
      maxExtensionBlocks node).2.1
    (err = .storage .forkPointUnavailable →
        after.blockValidationStates = sync.blockValidationStates) ∧
      (err ≠ .storage .forkPointUnavailable → after = (sync.dropBranch host.crypto hashes).2) := by
  intro hashes after
  have hnonempty := SideBranchPool.not_isEmpty_of_best hbest
  have hconsider : node.considerBranch host now (offeredBranch node maxExtensionBlocks best) =
      (.error err,
        (node.considerBranch host now (offeredBranch node maxExtensionBlocks best)).2) :=
    Prod.ext hrejected rfl
  simp only [after, processBufferedBranchOnce, hnonempty, hbest, Bool.false_eq_true, if_false]
  rw [hconsider]
  constructor
  · rintro rfl
    dsimp only
    split <;> rfl
  · intro hother
    split
    · next heq => cases heq
    · next heq =>
        cases heq
        exact absurd rfl hother
    · next heq =>
        cases heq
        rfl

theorem processBufferedBranchOnce_condemns (calls : List SideBranchPool.Call)
    (hpool : sync.sideBranches = SideBranchPool.default.run host.crypto calls)
    (hbest : sync.sideBranches.bestBufferedBranch host mainChain node = some best)
    (hrejected :
      (node.considerBranch host now (offeredBranch node maxExtensionBlocks best)).1 = .error err)
    (hother : err ≠ .storage .forkPointUnavailable) :
    Condemns
      (fun hash => ∃ root ∈ blockHashes host.crypto (offeredBranch node maxExtensionBlocks best),
        sync.sideBranches.InFamily root hash)
      sync
      (sync.processBufferedBranchOnce handlers host mainChain now preferredPeer maxExtensionBlocks
        node).2.1 := by
  rw [(processBufferedBranchOnce_rejected hbest hrejected).2 hother]
  apply dropBranch_condemns
  · rw [hpool]
    exact SideBranchPool.indexed_default.run
  · rw [hpool]
    exact SideBranchPool.keyed_default.run calls

/-- Blocks of a rejected branch are spared only in front of its first one, and a rejection marks no
block only if it is for the fork point, or if all that descends from the branch was marked before. -/
theorem rejected_branch_spared_iff (calls : List SideBranchPool.Call)
    (hpool : sync.sideBranches = SideBranchPool.default.run host.crypto calls)
    (hbest : sync.sideBranches.bestBufferedBranch host mainChain node = some best)
    (hrejected :
      (node.considerBranch host now (offeredBranch node maxExtensionBlocks best)).1 = .error err) :
    let branch := offeredBranch node maxExtensionBlocks best
    let after := (sync.processBufferedBranchOnce handlers host mainChain now preferredPeer
      maxExtensionBlocks node).2.1
    (err ≠ .storage .forkPointUnavailable → ∀ failing, 0 < failing → failing ≤ branch.length →
        ((∀ block ∈ branch.take (failing - 1), after.Spares (block.header.blockHash host.crypto)) ↔
          failing = 1)) ∧
      ((∀ hash : Bytes 48, after.blockValidationStates[hash]? = some .invalid →
          sync.blockValidationStates[hash]? = some .invalid) ↔
        err = .storage .forkPointUnavailable ∨
          ∀ block ∈ branch, ∀ hash,
            sync.sideBranches.InFamily (block.header.blockHash host.crypto) hash →
              sync.blockValidationStates[hash]? = some .invalid) := by
  intro branch after
  have hcondemns := @processBufferedBranchOnce_condemns σ Rest handlers host mainChain now
    preferredPeer maxExtensionBlocks sync node best err calls hpool hbest hrejected
  constructor
  · intro hother failing hpositive hle
    constructor
    · intro hspared
      by_contra hne
      have hmem : branch[0] ∈ branch.take (failing - 1) :=
        List.mem_take_iff_getElem.mpr ⟨0, by omega, rfl⟩
      apply (hspared _ hmem).1
      exact (hcondemns hother).states _
        ⟨_, List.mem_map_of_mem (List.mem_of_mem_take hmem), .refl⟩
    · rintro rfl
      simp
  · by_cases hother : err = .storage .forkPointUnavailable
    · refine iff_of_true (fun hash hmarked => ?_) (.inl hother)
      rwa [← (processBufferedBranchOnce_rejected hbest hrejected).1 hother]
    · rw [or_iff_right hother]
      constructor
      · intro hsame block hblock hash hfamily
        apply hsame
        exact (hcondemns hother).states hash ⟨_, List.mem_map_of_mem hblock, hfamily⟩
      · intro hbefore hash hmarked
        by_cases hfamily : ∃ root ∈ blockHashes host.crypto branch,
            sync.sideBranches.InFamily root hash
        · obtain ⟨root, hroot, hfamily⟩ := hfamily
          obtain ⟨block, hblock, rfl⟩ := List.mem_map.mp hroot
          exact hbefore block hblock hash hfamily
        · rwa [← (hcondemns hother).states_other hash hfamily]

end Rejected

/-! A sound block in front of a bad one, and a branch that only starts too deep. -/

open Chainstate BlockSync

def soundBlock : Block :=
  forkBlock 1 42643 1773360590 1 (genesisHash .hashing .prunetest)

/-- A block on the sound one without the work it claims. -/
def idleBlock : Block :=
  forkBlock 2 49721 1773360690 2 (.ofNat 48
    0x9b679290461f5b68e26766f6bdb056c0ecc45fbb93b321684b1f6e1b96c80c85506f79fdae4ecd9be8279f588b4a)

def idlePool : SideBranchPool :=
  SideBranchPool.default.run .hashing ([soundBlock, idleBlock].map (SideBranchPool.Call.insert "peer"))

/-- A synchronization that has done nothing but fill its pool. -/
def pooledSync (pool : SideBranchPool) : BlockSync Unit :=
  ⟨{}, pool, ∅, ∅, ∅, ∅, ()⟩

/-- Nothing is final on a short chain, and nothing else is to be downloaded. -/
def quietHandlers : ProgressHandlers Unit Unit :=
  ⟨fun _ => none, fun _ rest => rest, fun _ _ sync => sync⟩

/-- A host on which prunetest may take back a single block. -/
def cautiousHost : Host Unit :=
  { exampleHost with prunetestMaxReorgDepth := some 1 }

/-- What one pass over the pool leaves behind. -/
def passOver (host : Host Unit) (pool : SideBranchPool) (node : Node Unit) : BlockSync Unit :=
  ((pooledSync pool).processBufferedBranchOnce quietHandlers host (fun _ _ => false) forkClock none
    maxBufferedExtensionConnectBlocksPerPass node).2.1

theorem passOver_condemns {host : Host Unit} {pool : SideBranchPool} {node : Node Unit}
    {branch : List Block} {err : NodeError} (calls : List SideBranchPool.Call)
    (hpool : pool = SideBranchPool.default.run host.crypto calls)
    (hoffered : offeredBranch node maxBufferedExtensionConnectBlocksPerPass branch = branch)
    (hbest : pool.bestBufferedBranch host (fun _ _ => false) node = some branch)
    (hrejected : (node.considerBranch host forkClock branch).1 = .error err)
    (hother : err ≠ .storage .forkPointUnavailable) :
    Condemns (fun hash => ∃ root ∈ blockHashes host.crypto branch, pool.InFamily root hash)
      (pooledSync pool) (passOver host pool node) := by
  rw [← hoffered] at hrejected
  have hcondemns := @processBufferedBranchOnce_condemns Unit Unit quietHandlers host
    (fun _ _ => false) forkClock none maxBufferedExtensionConnectBlocksPerPass
    (pooledSync pool) node branch err calls hpool hbest hrejected hother
  rwa [hoffered] at hcondemns

theorem idlePool_rejected :
    offeredBranch freshNode maxBufferedExtensionConnectBlocksPerPass [soundBlock, idleBlock] =
        [soundBlock, idleBlock] ∧
      (freshNode.considerBranch exampleHost forkClock [soundBlock]).1 = .ok ⟨.extended, []⟩ ∧
      idlePool.bestBufferedBranch exampleHost (fun _ _ => false) freshNode =
        some [soundBlock, idleBlock] ∧
      (freshNode.considerBranch exampleHost forkClock [soundBlock, idleBlock]).1 =
        .error (.storage (.validation .proofOfWorkInvalid)) := by
  decide +kernel

theorem forkedPool_rejected :
    offeredBranch forkedNode maxBufferedExtensionConnectBlocksPerPass earlyBranch = earlyBranch ∧
      forkedPool.bestBufferedBranch cautiousHost (fun _ _ => false) forkedNode =
        some earlyBranch ∧
      (forkedNode.considerBranch cautiousHost forkClock earlyBranch).1 =
        .error (.storage (.reorgTooDeep 2 1 0 2)) := by
  decide +kernel

/-- The sound block is condemned with the bad one on top of it, though the node takes it alone. A
branch that starts too deep is condemned as well. -/
theorem sound_block_condemned :
    (freshNode.considerBranch exampleHost forkClock [soundBlock]).1 = .ok ⟨.extended, []⟩ ∧
      idlePool.bestBufferedBranch exampleHost (fun _ _ => false) freshNode =
        some [soundBlock, idleBlock] ∧
      (freshNode.considerBranch exampleHost forkClock [soundBlock, idleBlock]).1 =
        .error (.storage (.validation .proofOfWorkInvalid)) ∧
      (let after := passOver exampleHost idlePool freshNode
       after.blockValidationStates[soundBlock.header.blockHash .hashing]? = some .invalid ∧
        after.sideBranches.blocks[soundBlock.header.blockHash .hashing]? = none ∧
        soundBlock.header.blockHash .hashing ∈ after.downloader.completed) ∧
      (forkedNode.considerBranch cautiousHost forkClock earlyBranch).1 =
        .error (.storage (.reorgTooDeep 2 1 0 2)) ∧
      ∀ block ∈ earlyBranch,
        (passOver cautiousHost forkedPool forkedNode).blockValidationStates[
          block.header.blockHash .hashing]? = some .invalid := by
  obtain ⟨hoffered, hsound, hbest, hrejected⟩ := idlePool_rejected
  obtain ⟨hdeep, hdeepBest, hdeepRejected⟩ := forkedPool_rejected
  refine ⟨hsound, hbest, hrejected, ?_, hdeepRejected, ?_⟩
  · have hcondemns := passOver_condemns
      ([soundBlock, idleBlock].map (SideBranchPool.Call.insert "peer")) rfl hoffered hbest hrejected
      (by simp)
    have hfamily : ∃ root ∈ blockHashes .hashing [soundBlock, idleBlock],
        idlePool.InFamily root (soundBlock.header.blockHash .hashing) :=
      ⟨_, List.mem_cons_self, .refl⟩
    exact ⟨hcondemns.states _ hfamily, hcondemns.blocks _ hfamily, hcondemns.completed _ hfamily⟩
  · intro block hblock
    have hcondemns := passOver_condemns
      ((lateBranch ++ earlyBranch).map (SideBranchPool.Call.insert "peer")) rfl hdeep hdeepBest
      hdeepRejected (by simp)
    exact hcondemns.states _ ⟨_, List.mem_map_of_mem hblock, .refl⟩

/-- The first block of the branch is not spared when the second one fails. -/
theorem sound_block_not_spared :
    idlePool.bestBufferedBranch exampleHost (fun _ _ => false) freshNode =
        some [soundBlock, idleBlock] ∧
      ¬∀ block ∈ [soundBlock, idleBlock].take 1,
        (passOver exampleHost idlePool freshNode).Spares (block.header.blockHash .hashing) := by
  obtain ⟨hoffered, -, hbest, hrejected⟩ := idlePool_rejected
  refine ⟨hbest, fun hspared => ?_⟩
  rw [← hoffered] at hrejected hspared
  rw [passOver] at hspared
  have hiff := (@rejected_branch_spared_iff Unit Unit quietHandlers exampleHost (fun _ _ => false)
    forkClock none maxBufferedExtensionConnectBlocksPerPass (pooledSync idlePool) freshNode _ _
    ([soundBlock, idleBlock].map (SideBranchPool.Call.insert "peer")) rfl hbest hrejected).1
    (by simp) 2 (by decide) (by rw [hoffered]; exact le_rfl)
  cases hiff.mp hspared

end Atho
