import Atho.Storage.AcceptedBlock
import Atho.Storage.ChainStep

/-! The canonical chain of a run, and the UTXO set as its replay. -/

namespace Atho

/-- The blocks after genesis that have been connected and not disconnected since. -/
def canonicalStep (chain : List Block) : ChainEvent → List Block
  | .connected block => chain ++ [block]
  | .disconnected _ => chain.dropLast
  | .replaced blocks => blocks
  | .withdrawn _ | .clashed _ | .reinstated _ | .replaceFailed => chain

def canonicalChain (start : List Block) (history : List ChainEvent) : List Block :=
  history.foldl canonicalStep start

theorem canonicalChain_snoc (start : List Block) (history : List ChainEvent)
    (event : ChainEvent) :
    canonicalChain start (history ++ [event]) =
      canonicalStep (canonicalChain start history) event :=
  List.foldl_concat ..

theorem canonicalChain_connected (start : List Block) (history : List ChainEvent)
    (blocks : List Block) :
    canonicalChain start (history ++ blocks.map .connected) =
      canonicalChain start history ++ blocks := by
  induction blocks generalizing history with
  | nil => simp
  | cons block rest ih =>
      rw [List.map_cons, List.append_cons, ih, canonicalChain_snoc, canonicalStep,
        List.append_assoc, List.singleton_append]

def replayBlocks (crypto : Crypto) (set : UtxoSet) : List Block → Except StorageError UtxoSet
  | [] => .ok set
  | block :: rest =>
      match set.applyBlock crypto block with
      | (.error err, _) => .error err
      | (.ok _, set) => replayBlocks crypto set rest

theorem replayBlocks_snoc {crypto : Crypto} {start set set' : UtxoSet} {blocks : List Block}
    {block : Block} {undo : BlockUndo} (hblocks : replayBlocks crypto start blocks = .ok set)
    (happly : set.applyBlock crypto block = (.ok undo, set')) :
    replayBlocks crypto start (blocks ++ [block]) = .ok set' := by
  induction blocks generalizing start with
  | nil =>
      cases hblocks
      simp [replayBlocks, happly]
  | cons first rest ih =>
      match hfirst : start.applyBlock crypto first with
      | (.error err, next) => simp [replayBlocks, hfirst] at hblocks
      | (.ok _, next) =>
          simp only [replayBlocks, hfirst] at hblocks
          simpa [replayBlocks, hfirst] using ih hblocks

/-- A replay together with the journals that it wrote. -/
inductive Replays (crypto : Crypto) (start : UtxoSet) :
    List Block → List BlockUndo → UtxoSet → Prop where
  | nil : Replays crypto start [] [] start
  | snoc {blocks : List Block} {undos : List BlockUndo} {set set' : UtxoSet} {block : Block}
      {undo : BlockUndo} (hblocks : Replays crypto start blocks undos set)
      (happly : set.applyBlock crypto block = (.ok undo, set')) :
      Replays crypto start (blocks ++ [block]) (undos ++ [undo]) set'

namespace Replays

variable {crypto : Crypto} {start set : UtxoSet} {blocks : List Block} {undos : List BlockUndo}

theorem replayBlocks_eq (hreplays : Replays crypto start blocks undos set) :
    replayBlocks crypto start blocks = .ok set := by
  induction hreplays with
  | nil => rfl
  | snoc _ happly ih => exact replayBlocks_snoc ih happly

theorem length_eq (hreplays : Replays crypto start blocks undos set) :
    undos.length = blocks.length := by
  induction hreplays with
  | nil => rfl
  | snoc _ _ ih => simp [ih]

theorem last (hreplays : Replays crypto start blocks undos set)
    (hblock : blocks.getLast? = some block) (hundo : undos.getLast? = some undo) :
    ∃ before, Replays crypto start blocks.dropLast undos.dropLast before ∧
      before.applyBlock crypto block = (.ok undo, set) := by
  cases hreplays with
  | nil => simp at hblock
  | @snoc blocks undos before last lastUndo _ hbefore happly =>
      simp only [List.getLast?_concat, Option.some.injEq] at hblock hundo
      subst hblock hundo
      exact ⟨before, by simpa using hbefore, happly⟩

end Replays

/-- The memory holds the replay of `chain`, of which the first `pruned` blocks
after genesis are no longer resident. -/
structure Resident (crypto : Crypto) (start : UtxoSet) (chain : List Block)
    (undos : List BlockUndo) (pruned : Nat) (memory : ChainMemory) : Prop where
  replays : Replays crypto start chain undos memory.utxos
  blocks_ne : memory.blocks ≠ []
  blocks : memory.blocks.tail = chain.drop pruned
  undoStack : memory.undoStack.map ChainUndo.blockUndo = undos.drop pruned
  pruned_le : pruned ≤ chain.length

namespace Resident

variable {crypto : Crypto} {start : UtxoSet} {chain : List Block} {undos : List BlockUndo}
  {pruned : Nat} {memory : ChainMemory}

theorem genesis (crypto : Crypto) (network : Network) :
    Resident crypto (UtxoSet.genesisUtxos crypto network) [] [] 0
      (.genesis crypto network) :=
  ⟨.nil, by simp [ChainMemory.genesis], rfl, rfl, Nat.le_refl 0⟩

theorem undoStack_length (hresident : Resident crypto start chain undos pruned memory) :
    memory.undoStack.length = memory.blocks.length - 1 := by
  have hstack := congrArg List.length hresident.undoStack
  have htail := congrArg List.length hresident.blocks
  simp only [List.length_map, List.length_drop, List.length_tail,
    hresident.replays.length_eq] at hstack htail
  omega

theorem push (hresident : Resident crypto start chain undos pruned memory)
    (happly : memory.utxos.applyBlock crypto block = (.ok undo, utxos)) :
    Resident crypto start (chain ++ [block]) (undos ++ [undo]) pruned
      (memory.pushBlock crypto block undo utxos) := by
  have hlength := hresident.replays.length_eq
  have hle := hresident.pruned_le
  refine ⟨hresident.replays.snoc happly, by simp [ChainMemory.pushBlock], ?_, ?_, ?_⟩
  · rw [List.drop_append_of_le_length hle, ← hresident.blocks]
    exact List.tail_append_of_ne_nil hresident.blocks_ne
  · rw [List.drop_append_of_le_length (by omega), ← hresident.undoStack]
    simp [ChainMemory.pushBlock]
  · rw [List.length_append]
    omega

theorem prune (hresident : Resident crypto start chain undos pruned memory) (retain : Nat) :
    ∃ pruned', Resident crypto start chain undos pruned'
      (memory.pruneHistoryToRetain crypto retain) := by
  unfold ChainMemory.pruneHistoryToRetain
  split
  · exact ⟨pruned, hresident⟩
  · next hretain =>
      simp only [not_or, not_le] at hretain
      obtain ⟨hlong, hpositive⟩ := hretain
      have htail := congrArg List.length hresident.blocks
      simp only [List.length_tail, List.length_drop] at htail
      have hle := hresident.pruned_le
      refine ⟨pruned + (memory.blocks.length - retain), hresident.replays, ?_, ?_, ?_, ?_⟩
      · simp [hresident.blocks_ne]
      · rw [← List.drop_drop, ← hresident.blocks, List.drop_tail,
          List.tail_append_of_ne_nil (by simp [hresident.blocks_ne])]
        have htake : (memory.blocks.take 1).tail = [] := by
          cases memory.blocks <;> rfl
        rw [htake, List.nil_append, Nat.add_comm]
      · dsimp only
        rw [hresident.undoStack_length, Nat.min_eq_left (by omega), List.map_drop,
          hresident.undoStack, List.drop_drop]
      · omega

theorem last (hresident : Resident crypto start chain undos pruned memory)
    (hundo : memory.undoStack.getLast? = some undo)
    (hremoved : memory.blocks.getLast? = some removed) :
    chain.getLast? = some removed ∧ undos.getLast? = some undo.blockUndo ∧
      pruned < chain.length := by
  have hstack : undos.getLast? = some undo.blockUndo ∧ pruned < undos.length := by
    have hlast := congrArg List.getLast? hresident.undoStack
    rw [List.getLast?_map, hundo, Option.map_some, List.getLast?_drop] at hlast
    split at hlast
    · cases hlast
    · exact ⟨hlast.symm, by omega⟩
  rw [hresident.replays.length_eq] at hstack
  refine ⟨?_, hstack⟩
  have hlast := congrArg List.getLast? hresident.blocks
  rw [List.getLast?_drop, if_neg (by omega)] at hlast
  rw [← hlast]
  cases hblocks : memory.blocks with
  | nil => exact absurd hblocks hresident.blocks_ne
  | cons first rest =>
      rw [hblocks] at hremoved hlast
      cases rest with
      | nil =>
          have hlength := congrArg List.length hresident.blocks
          simp only [hblocks, List.tail_cons, List.length_nil, List.length_drop] at hlength
          omega
      | cons second rest => simpa using hremoved

theorem pop (hresident : Resident crypto start chain undos pruned memory)
    (hundo : memory.undoStack.getLast? = some undo)
    (hremoved : memory.blocks.getLast? = some removed)
    (hown : UtxoSet.spendsOwnOutput crypto removed = false) :
    Resident crypto start chain.dropLast undos.dropLast pruned
      (memory.popBlock crypto undo removed) := by
  obtain ⟨hblock, hjournal, hlt⟩ := hresident.last hundo hremoved
  obtain ⟨before, hbefore, happly⟩ := hresident.replays.last hblock hjournal
  have hrestored := UtxoSet.disconnectBlock_applyBlock happly hown
  refine ⟨?_, ?_, ?_, ?_, ?_⟩
  · simpa only [ChainMemory.popBlock, hrestored] using hbefore
  · intro hnil
    have hlength := congrArg List.length hresident.blocks
    have hshort := congrArg List.length hnil
    simp only [ChainMemory.popBlock, List.length_dropLast, List.length_nil,
      List.length_tail, List.length_drop] at hlength hshort
    omega
  · simp only [ChainMemory.popBlock, List.tail_dropLast, hresident.blocks,
      List.dropLast_drop_eq_drop_dropLast]
  · simp only [ChainMemory.popBlock, List.map_dropLast, hresident.undoStack,
      List.dropLast_drop_eq_drop_dropLast]
  · rw [List.length_dropLast]
    omega

theorem reapply (hresident : Resident crypto start chain undos pruned memory)
    (hundo : memory.undoStack.getLast? = some undo)
    (hremoved : memory.blocks.getLast? = some removed)
    (hown : UtxoSet.spendsOwnOutput crypto removed = false) :
    ((memory.utxos.disconnectBlock undo.blockUndo).applyBlock crypto removed).2 =
      memory.utxos := by
  obtain ⟨hblock, hjournal, -⟩ := hresident.last hundo hremoved
  obtain ⟨before, -, happly⟩ := hresident.replays.last hblock hjournal
  rw [UtxoSet.disconnectBlock_applyBlock happly hown, happly]

end Resident

/-- No accepted block was refused by the set, and no block that was taken back
spends an output of its own. -/
def ChainEvent.clean (crypto : Crypto) : ChainEvent → Bool
  | .clashed _ => false
  | .withdrawn block | .disconnected block | .reinstated block =>
      !UtxoSet.spendsOwnOutput crypto block
  | .connected _ | .replaced _ | .replaceFailed => true

namespace Chainstate

/-- The state holds the replay of the canonical chain of its history. -/
def Tracks (host : Host σ) (network : Network) (state : Chainstate σ) : Prop :=
  ∃ undos pruned, Resident host.crypto (UtxoSet.genesisUtxos host.crypto network)
    (canonicalChain [] state.history) undos pruned state.toChainMemory

theorem tracks_fresh (host : Host σ) (network : Network) (storage : Option σ) :
    (freshWithStorage host network storage).Tracks host network :=
  ⟨[], 0, .genesis host.crypto network⟩

theorem Tracks.connected {host : Host σ} {network : Network} {state : Chainstate σ}
    {block : Block} {undo : BlockUndo} {utxos : UtxoSet} (htracks : state.Tracks host network)
    (happly : state.utxos.applyBlock host.crypto block = (.ok undo, utxos))
    (retain : Nat) (storage : Option σ) :
    Tracks host network
      ⟨(state.pushBlock host.crypto block undo utxos).pruneHistoryToRetain host.crypto retain,
        storage, state.history ++ [.connected block]⟩ := by
  obtain ⟨undos, pruned, hresident⟩ := htracks
  obtain ⟨pruned', hpruned⟩ := (hresident.push happly).prune retain
  refine ⟨undos ++ [undo], pruned', ?_⟩
  rw [canonicalChain_snoc]
  exact hpruned

theorem Tracks.step {host : Host σ} {network : Network} {now : UInt64}
    {state next : Chainstate σ} {event : ChainEvent} (hstep : Step host now state next)
    (hevent : next.history = state.history ++ [event])
    (hclean : event.clean host.crypto = true) (hnetwork : state.network = network)
    (htracks : state.Tracks host network) : next.Tracks host network := by
  cases hstep with
  | connected storage hvalid happly => exact htracks.connected happly _ storage
  | @withdrawn block undo utxos storage hvalid happly =>
      simp only [List.append_cancel_left_eq, List.cons.injEq, and_true] at hevent
      subst hevent
      obtain ⟨undos, pruned, hresident⟩ := htracks
      refine ⟨undos, pruned, ?_⟩
      rw [canonicalChain_snoc,
        UtxoSet.disconnectBlock_applyBlock happly (by simpa [ChainEvent.clean] using hclean)]
      exact hresident
  | clashed hvalid happly =>
      simp only [List.append_cancel_left_eq, List.cons.injEq, and_true] at hevent
      subst hevent
      cases hclean
  | disconnected storage hundo hremoved =>
      simp only [List.append_cancel_left_eq, List.cons.injEq, and_true] at hevent
      subst hevent
      obtain ⟨undos, pruned, hresident⟩ := htracks
      refine ⟨undos.dropLast, pruned, ?_⟩
      rw [canonicalChain_snoc]
      exact hresident.pop hundo hremoved (by simpa [ChainEvent.clean] using hclean)
  | reinstated storage hundo hremoved =>
      simp only [List.append_cancel_left_eq, List.cons.injEq, and_true] at hevent
      subst hevent
      obtain ⟨undos, pruned, hresident⟩ := htracks
      refine ⟨undos, pruned, ?_⟩
      rw [canonicalChain_snoc,
        hresident.reapply hundo hremoved (by simpa [ChainEvent.clean] using hclean)]
      exact hresident
  | @replaced blocks validated storage hvalidated =>
      obtain ⟨first, rest, count, rfl, hconnect⟩ := validateReplacementChain_ok hvalidated
      rw [hnetwork] at hconnect
      obtain ⟨undos, pruned, hresident⟩ : validated.Tracks host network :=
        connectBlocks_invariant hconnect (Tracks host network) (tracks_fresh host network none)
          fun storage _ happly htracks => htracks.connected happly _ storage
      rw [connectBlocks_history hconnect, canonicalChain_connected] at hresident
      -- The network field is the only one that is not taken over.
      have hadopted : Resident host.crypto (UtxoSet.genesisUtxos host.crypto network) rest undos
          pruned { validated.toChainMemory with network := state.network } :=
        ⟨hresident.replays, hresident.blocks_ne, hresident.blocks, hresident.undoStack,
          hresident.pruned_le⟩
      obtain ⟨pruned', hpruned⟩ := hadopted.prune (retainedBlocks host state.network)
      refine ⟨undos, pruned', ?_⟩
      rw [canonicalChain_snoc]
      exact hpruned
  | replaceFailed storage =>
      obtain ⟨undos, pruned, hresident⟩ := htracks
      refine ⟨undos, pruned, ?_⟩
      rw [canonicalChain_snoc]
      exact hresident

/-- Whatever calls are made on a chainstate that starts at genesis, and whether
or not they succeed, its UTXO set is the replay of its canonical chain, as long
as every step of the run is clean. -/
theorem run_utxos_eq_replay (host : Host σ) (network : Network) (storage : Option σ)
    (calls : List (UInt64 × Call))
    (hclean : ∀ event ∈ ((freshWithStorage host network storage).run host calls).history,
      event.clean host.crypto = true) :
    replayBlocks host.crypto (UtxoSet.genesisUtxos host.crypto network)
        (canonicalChain []
          ((freshWithStorage host network storage).run host calls).history) =
      .ok ((freshWithStorage host network storage).run host calls).utxos := by
  have hruns := run_runs host (freshWithStorage host network storage)
    fun timed (_ : timed ∈ calls) => Set.mem_univ timed.1
  have hfinal := hruns.invariant (fun event => event.clean host.crypto = true)
    (fun state => state.network = network ∧ state.Tracks host network)
    ⟨rfl, tracks_fresh host network storage⟩
    (fun _ hstep hevent hclean hbefore =>
      ⟨hstep.network_eq.trans hbefore.1, hbefore.2.step hstep hevent hclean hbefore.1⟩)
    hclean
  obtain ⟨undos, pruned, hresident⟩ := hfinal.2
  exact hresident.replays.replayBlocks_eq

/-- A host whose database is empty and accepts every write. -/
def exampleHost : Host Unit where
  loadBlock _ _ := .ok none
  loadBlockRecordHeight _ _ := .ok none
  loadBlockHashByHeight _ _ := .ok none
  loadTransaction _ _ := .ok none
  commitChainstate _ _ _ _ := (.ok (), ())
  replaceChainstate _ _ _ _ := (.ok (), ())
  pruneArchivedBlocks _ _ _ := ()
  crypto := .hashing
  prunetestPruneDepth := none
  prunetestMaxReorgDepth := none

/-- Refusing a block whose coinbase clashes leaves another set than the replay
of the chain, which is still empty. -/
theorem run_clash_utxos_ne_replay :
    replayBlocks .hashing (UtxoSet.genesisUtxos .hashing .regnet)
        (canonicalChain [] ((fresh exampleHost .regnet).run exampleHost
          [(exampleClock, .connectBlock UtxoSet.echoBlock)]).history) ≠
      .ok ((fresh exampleHost .regnet).run exampleHost
        [(exampleClock, .connectBlock UtxoSet.echoBlock)]).utxos := by
  decide +kernel

def exampleCalls : List (UInt64 × Call) :=
  [(exampleClock, .connectBlock firstBlock), (exampleClock, .disconnectLastBlock),
    (exampleClock + 60, .selectBranch [firstBlock])]

theorem run_exampleCalls_replay :
    replayBlocks exampleHost.crypto (UtxoSet.genesisUtxos exampleHost.crypto .regnet)
        (canonicalChain [] ((freshWithStorage exampleHost .regnet none).run exampleHost
          exampleCalls).history) =
      .ok ((freshWithStorage exampleHost .regnet none).run exampleHost exampleCalls).utxos := by
  have hclean : ∀ event ∈ ((freshWithStorage exampleHost .regnet none).run exampleHost
      exampleCalls).history, event.clean exampleHost.crypto = true := by
    decide +kernel
  exact run_utxos_eq_replay exampleHost .regnet none exampleCalls hclean

end Chainstate

end Atho
