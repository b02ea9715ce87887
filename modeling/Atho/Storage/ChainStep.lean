import Atho.Storage.AcceptedBlock
import Atho.Storage.Chainstate

/-! Everything that happens inside a call on the chainstate, as single steps. -/

namespace Atho

open Relation

def retainedBlocks (host : Host σ) (network : Network) : Nat :=
  ((effectivePruneDepth host network).saturatingAdd 1).toNat

namespace ChainMemory

@[simp] theorem pushBlock_network (crypto : Crypto) (memory : ChainMemory) (block : Block)
    (undo : BlockUndo) (utxos : UtxoSet) :
    (memory.pushBlock crypto block undo utxos).network = memory.network :=
  rfl

@[simp] theorem popBlock_network (crypto : Crypto) (memory : ChainMemory) (undo : ChainUndo)
    (removed : Block) : (memory.popBlock crypto undo removed).network = memory.network :=
  rfl

section

variable (crypto : Crypto) (memory : ChainMemory) (retain : Nat)

@[simp] theorem pruneHistoryToRetain_network :
    (memory.pruneHistoryToRetain crypto retain).network = memory.network := by
  unfold pruneHistoryToRetain
  split <;> rfl

@[simp] theorem pruneHistoryToRetain_tip :
    (memory.pruneHistoryToRetain crypto retain).tip = memory.tip := by
  unfold pruneHistoryToRetain
  split <;> rfl

@[simp] theorem pruneHistoryToRetain_tipHash :
    (memory.pruneHistoryToRetain crypto retain).tipHash = memory.tipHash := by
  unfold pruneHistoryToRetain
  split <;> rfl

@[simp] theorem pruneHistoryToRetain_height :
    (memory.pruneHistoryToRetain crypto retain).height = memory.height := by
  unfold pruneHistoryToRetain
  split <;> rfl

@[simp] theorem pruneHistoryToRetain_utxos :
    (memory.pruneHistoryToRetain crypto retain).utxos = memory.utxos := by
  unfold pruneHistoryToRetain
  split <;> rfl

end

theorem pruneHistoryToRetain_of_le {crypto : Crypto} {memory : ChainMemory} {retain : Nat}
    (hle : memory.blocks.length ≤ retain) :
    memory.pruneHistoryToRetain crypto retain = memory :=
  if_pos (.inl hle)

theorem validateNext_ok {crypto : Crypto} {now : UInt64} {memory : ChainMemory}
    {block : Block} (hvalid : memory.validateNext crypto now block = .ok ()) :
    Nonempty (Accepted crypto now block
      ⟨memory.height.saturatingAdd 1, memory.network, memory.tipHash,
        memory.nextDifficultyTargetForTimestamp block.header.timestamp, memory.blocks,
        memory.utxos⟩ scheduledActivations) := by
  obtain ⟨overlay, hoverlay⟩ := validateBlockWithContext_ok_iff.mp hvalid
  obtain ⟨accepted, -⟩ := accepted_of_ok hoverlay
  exact ⟨accepted⟩

end ChainMemory

namespace Chainstate

@[simp] theorem note_toChainMemory (state : Chainstate σ) (event : ChainEvent) :
    (state.note event).toChainMemory = state.toChainMemory :=
  rfl

@[simp] theorem note_history (state : Chainstate σ) (event : ChainEvent) :
    (state.note event).history = state.history ++ [event] :=
  rfl

@[simp] theorem pruneHistory_toChainMemory (host : Host σ) (state : Chainstate σ) :
    (state.pruneHistory host).toChainMemory =
      state.pruneHistoryToRetain host.crypto (retainedBlocks host state.network) :=
  rfl

@[simp] theorem pruneHistory_history (host : Host σ) (state : Chainstate σ) :
    (state.pruneHistory host).history = state.history :=
  rfl

theorem persist_of_none {state : Chainstate σ} (hstorage : state.storage = none)
    (write : σ → Except StorageError Unit × σ) : state.persist write = (.ok (), state) := by
  simp [persist, hstorage]

theorem persist_of_some {state : Chainstate σ} {storage : σ}
    (hstorage : state.storage = some storage) (write : σ → Except StorageError Unit × σ) :
    state.persist write =
      ((write storage).1, { state with storage := some (write storage).2 }) := by
  simp [persist, hstorage]

theorem eq_of_persist {state next : Chainstate σ} {write : σ → Except StorageError Unit × σ}
    (hpersist : state.persist write = (result, next)) :
    ∃ storage, next = { state with storage := storage } := by
  unfold persist at hpersist
  split at hpersist
  · cases hpersist
    exact ⟨state.storage, rfl⟩
  · cases hpersist
    exact ⟨_, rfl⟩

/-- One step inside a call. The steps that a failed write leaves behind name the
write; a step that clashes comes from a block that passed validation. -/
inductive Step (host : Host σ) (now : UInt64) (state : Chainstate σ) : Chainstate σ → Prop where
  | connected {block : Block} {undo : BlockUndo} {utxos : UtxoSet} (storage : Option σ)
      (hvalid : state.validateNext host.crypto now block = .ok ())
      (happly : state.utxos.applyBlock host.crypto block = (.ok undo, utxos)) :
      Step host now state
        ⟨(state.pushBlock host.crypto block undo utxos).pruneHistoryToRetain host.crypto
            (retainedBlocks host state.network),
          storage, state.history ++ [.connected block]⟩
  | withdrawn {block : Block} {undo : BlockUndo} {utxos : UtxoSet} (storage : Option σ)
      (hvalid : state.validateNext host.crypto now block = .ok ())
      (happly : state.utxos.applyBlock host.crypto block = (.ok undo, utxos)) :
      Step host now state
        ⟨{ state.toChainMemory with utxos := utxos.disconnectBlock undo }, storage,
          state.history ++ [.withdrawn block]⟩
  | clashed {block : Block} {err : StorageError} {utxos : UtxoSet}
      (hvalid : state.validateNext host.crypto now block = .ok ())
      (happly : state.utxos.applyBlock host.crypto block = (.error err, utxos)) :
      Step host now state
        ⟨{ state.toChainMemory with utxos := utxos }, state.storage,
          state.history ++ [.clashed block]⟩
  | disconnected {undo : ChainUndo} {removed : Block} (storage : Option σ)
      (hundo : state.undoStack.getLast? = some undo)
      (hremoved : state.blocks.getLast? = some removed) :
      Step host now state
        ⟨state.popBlock host.crypto undo removed, storage,
          state.history ++ [.disconnected removed]⟩
  | reinstated {undo : ChainUndo} {removed : Block} (storage : Option σ)
      (hundo : state.undoStack.getLast? = some undo)
      (hremoved : state.blocks.getLast? = some removed) :
      Step host now state
        ⟨{ state.toChainMemory with
            utxos := ((state.utxos.disconnectBlock undo.blockUndo).applyBlock host.crypto
              removed).2 },
          storage, state.history ++ [.reinstated removed]⟩
  | replaced {blocks : List Block} {validated : Chainstate σ} (storage : Option σ)
      (hvalidated : validateReplacementChain host now state.network blocks = .ok validated) :
      Step host now state
        ⟨({ validated.toChainMemory with network := state.network }).pruneHistoryToRetain
            host.crypto (retainedBlocks host state.network),
          storage, state.history ++ [.replaced blocks.tail]⟩
  | replaceFailed (storage : Option σ) :
      Step host now state
        ⟨state.toChainMemory, storage, state.history ++ [.replaceFailed]⟩

abbrev Steps (host : Host σ) (now : UInt64) : Chainstate σ → Chainstate σ → Prop :=
  ReflTransGen (Step host now)

theorem connectBlock_steps (host : Host σ) (now : UInt64) (state : Chainstate σ)
    (block : Block) : Steps host now state (state.connectBlock host now block).2 := by
  unfold connectBlock
  split
  · exact .refl
  · next hvalid =>
      split
      · next err utxos happly => exact .single (.clashed hvalid happly)
      · next undo utxos happly =>
          dsimp only
          split
          · next err failed hpersist =>
              obtain ⟨storage, rfl⟩ := eq_of_persist hpersist
              exact .single (.withdrawn storage hvalid happly)
          · next stored hpersist =>
              obtain ⟨storage, rfl⟩ := eq_of_persist hpersist
              exact .single (.connected _ hvalid happly)

theorem connectBlock_ok {host : Host σ} {now : UInt64} {state next : Chainstate σ}
    {block : Block} (hconnect : state.connectBlock host now block = (.ok (), next)) :
    ∃ undo utxos storage,
      state.validateNext host.crypto now block = .ok () ∧
      state.utxos.applyBlock host.crypto block = (.ok undo, utxos) ∧
      next = ⟨(state.pushBlock host.crypto block undo utxos).pruneHistoryToRetain host.crypto
          (retainedBlocks host state.network),
        storage, state.history ++ [.connected block]⟩ := by
  unfold connectBlock at hconnect
  split at hconnect
  · cases hconnect
  · next hvalid =>
      split at hconnect
      · cases hconnect
      · next undo utxos happly =>
          dsimp only at hconnect
          split at hconnect
          · cases hconnect
          · next stored hpersist =>
              obtain ⟨storage, rfl⟩ := eq_of_persist hpersist
              cases hconnect
              exact ⟨undo, utxos, _, hvalid, happly, rfl⟩

theorem disconnectLastBlock_steps (host : Host σ) (now : UInt64) (state : Chainstate σ) :
    Steps host now state (state.disconnectLastBlock host).2 := by
  unfold disconnectLastBlock
  split
  · next undo removed hundo hremoved =>
      dsimp only
      split
      · next err failed hpersist =>
          obtain ⟨storage, rfl⟩ := eq_of_persist hpersist
          exact .single (.reinstated storage hundo hremoved)
      · next stored hpersist =>
          obtain ⟨storage, rfl⟩ := eq_of_persist hpersist
          exact .single (.disconnected storage hundo hremoved)
  · exact .refl

theorem connectBlocks_cons_ok {host : Host σ} {now : UInt64} {state final : Chainstate σ}
    {block : Block} {rest : List Block} {count : Nat}
    (hconnect : state.connectBlocks host now (block :: rest) = (.ok (), count, final)) :
    ∃ next count', state.connectBlock host now block = (.ok (), next) ∧
      next.connectBlocks host now rest = (.ok (), count', final) := by
  rw [connectBlocks] at hconnect
  split at hconnect
  · cases hconnect
  · next next hfirst =>
      rcases hrest : next.connectBlocks host now rest with ⟨result, count', last⟩
      rw [hrest] at hconnect
      cases hconnect
      exact ⟨next, count', hfirst, hrest⟩

/-- What holds at the start and is kept by every block that connects holds once
all have connected. -/
theorem connectBlocks_invariant {host : Host σ} {now : UInt64} {state final : Chainstate σ}
    {blocks : List Block} {count : Nat}
    (hconnect : state.connectBlocks host now blocks = (.ok (), count, final))
    (invariant : Chainstate σ → Prop) (hstart : invariant state)
    (hkept : ∀ {before block undo utxos} storage,
      before.validateNext host.crypto now block = .ok () →
      before.utxos.applyBlock host.crypto block = (.ok undo, utxos) → invariant before →
      invariant
        ⟨(before.pushBlock host.crypto block undo utxos).pruneHistoryToRetain host.crypto
            (retainedBlocks host before.network),
          storage, before.history ++ [.connected block]⟩) : invariant final := by
  induction blocks generalizing state count with
  | nil =>
      cases hconnect
      exact hstart
  | cons block rest ih =>
      obtain ⟨next, count, hfirst, hrest⟩ := connectBlocks_cons_ok hconnect
      obtain ⟨undo, utxos, storage, hvalid, happly, rfl⟩ := connectBlock_ok hfirst
      exact ih hrest (hkept storage hvalid happly hstart)

theorem connectBlocks_history {host : Host σ} {now : UInt64} {state final : Chainstate σ}
    {blocks : List Block} {count : Nat}
    (hconnect : state.connectBlocks host now blocks = (.ok (), count, final)) :
    final.history = state.history ++ blocks.map .connected := by
  induction blocks generalizing state count with
  | nil =>
      cases hconnect
      simp
  | cons block rest ih =>
      obtain ⟨next, count, hfirst, hrest⟩ := connectBlocks_cons_ok hconnect
      obtain ⟨undo, utxos, storage, -, -, rfl⟩ := connectBlock_ok hfirst
      simp [ih hrest]

theorem validateReplacementChain_ok {host : Host σ} {now : UInt64} {network : Network}
    {blocks : List Block} {validated : Chainstate σ}
    (hvalidated : validateReplacementChain host now network blocks = .ok validated) :
    ∃ first rest count, blocks = first :: rest ∧
      (fresh host network).connectBlocks host now rest = (.ok (), count, validated) := by
  match blocks with
  | [] => cases hvalidated
  | first :: rest =>
      simp only [validateReplacementChain, bind_eq_ok] at hvalidated
      obtain ⟨-, -, -, -, hconnect⟩ := hvalidated
      split at hconnect
      · cases hconnect
      · next count final hresult =>
          cases hconnect
          exact ⟨first, rest, count, rfl, hresult⟩

theorem replaceWithValidatedBranch_steps (host : Host σ) (now : UInt64)
    (state : Chainstate σ) (forkHeight : UInt64) (branch : List Block) :
    Steps host now state (state.replaceWithValidatedBranch host now forkHeight branch).2 := by
  unfold replaceWithValidatedBranch
  split
  · exact .refl
  · next canonical hcanonical =>
      dsimp only
      split
      · exact .refl
      · next validated hvalidated =>
          split
          · next err failed hpersist =>
              obtain ⟨storage, rfl⟩ := eq_of_persist hpersist
              exact .single (.replaceFailed storage)
          · next stored hpersist =>
              obtain ⟨storage, rfl⟩ := eq_of_persist hpersist
              exact .single (.replaced _ hvalidated)

/-! Calls as sequences of operations. -/

/-- The three operations that change a chainstate, with their outcome. -/
inductive Operation (host : Host σ) (now : UInt64) (state : Chainstate σ)
    (result : Except StorageError Unit) (next : Chainstate σ) : Prop where
  | connect (block : Block) (hconnect : state.connectBlock host now block = (result, next))
  | disconnect (hdisconnect : state.disconnectLastBlock host = (result, next))
  | replace (forkHeight : UInt64) (branch : List Block)
      (hreplace : state.replaceWithValidatedBranch host now forkHeight branch = (result, next))

/-- Operations one after the other, whether or not they succeed. -/
abbrev Operates (host : Host σ) (now : UInt64) : Chainstate σ → Chainstate σ → Prop :=
  ReflTransGen fun state next => ∃ result, Operation host now state result next

section Operates

variable {host : Host σ} {now : UInt64} {state next : Chainstate σ}

theorem Operation.steps {result : Except StorageError Unit}
    (hoperation : Operation host now state result next) : Steps host now state next := by
  cases hoperation with
  | connect block hconnect =>
      have hsteps := connectBlock_steps host now state block
      rwa [hconnect] at hsteps
  | disconnect hdisconnect =>
      have hsteps := disconnectLastBlock_steps host now state
      rwa [hdisconnect] at hsteps
  | replace forkHeight branch hreplace =>
      have hsteps := replaceWithValidatedBranch_steps host now state forkHeight branch
      rwa [hreplace] at hsteps

theorem Operates.steps (hoperates : Operates host now state next) :
    Steps host now state next := by
  induction hoperates with
  | refl => exact .refl
  | tail _ hoperation ih =>
      obtain ⟨result, hoperation⟩ := hoperation
      exact ih.trans hoperation.steps

theorem connectBlock_operates (host : Host σ) (now : UInt64) (state : Chainstate σ)
    (block : Block) : Operates host now state (state.connectBlock host now block).2 :=
  .single ⟨_, .connect block rfl⟩

theorem disconnectLastBlock_operates (host : Host σ) (now : UInt64) (state : Chainstate σ) :
    Operates host now state (state.disconnectLastBlock host).2 :=
  .single ⟨_, .disconnect rfl⟩

theorem replaceWithValidatedBranch_operates (host : Host σ) (now : UInt64)
    (state : Chainstate σ) (forkHeight : UInt64) (branch : List Block) :
    Operates host now state (state.replaceWithValidatedBranch host now forkHeight branch).2 :=
  .single ⟨_, .replace forkHeight branch rfl⟩

theorem connectBlocks_operates (host : Host σ) (now : UInt64) (state : Chainstate σ)
    (blocks : List Block) :
    Operates host now state (state.connectBlocks host now blocks).2.2 := by
  induction blocks generalizing state with
  | nil => exact .refl
  | cons block rest ih =>
      have hfirst := connectBlock_operates host now state block
      rw [connectBlocks]
      split
      · next err failed hconnect => rwa [hconnect] at hfirst
      · next next hconnect =>
          rw [hconnect] at hfirst
          exact hfirst.trans (ih next)

theorem disconnectBlocks_operates (host : Host σ) (now : UInt64) (state : Chainstate σ)
    (count : Nat) : Operates host now state (state.disconnectBlocks host count).2.2 := by
  induction count generalizing state with
  | zero => exact .refl
  | succ remaining ih =>
      have hfirst := disconnectLastBlock_operates host now state
      rw [disconnectBlocks]
      split
      · next err failed hdisconnect => rwa [hdisconnect] at hfirst
      · next next hdisconnect =>
          rw [hdisconnect] at hfirst
          exact hfirst.trans (ih next)

theorem rollbackIncrementalBranchSwitch_operates (host : Host σ) (now : UInt64)
    (state : Chainstate σ) (journal : IncrementalBranchSwitchJournal) :
    Operates host now state (state.rollbackIncrementalBranchSwitch host now journal).2 := by
  have hdisconnect := disconnectBlocks_operates host now state journal.connectedCount
  unfold rollbackIncrementalBranchSwitch
  split
  · next err count failed hresult => rwa [hresult] at hdisconnect
  · next count next hresult =>
      rw [hresult] at hdisconnect
      exact hdisconnect.trans (connectBlocks_operates host now next _)

theorem failSwitch_operates (host : Host σ) (now : UInt64) (state : Chainstate σ)
    (journal : IncrementalBranchSwitchJournal) (err : StorageError) :
    Operates host now state (state.failSwitch host now journal err).2 := by
  have hrollback := rollbackIncrementalBranchSwitch_operates host now state journal
  have hrestore : Operates host now state
      (state.restoreOriginalBranchFromJournal host now journal).2 := by
    unfold restoreOriginalBranchFromJournal
    split
    · next restored hresult => rwa [hresult] at hrollback
    · next failure failed hresult =>
        rw [hresult] at hrollback
        exact hrollback.trans (replaceWithValidatedBranch_operates host now failed _ _)
  unfold failSwitch
  split
  · next restored hresult => rwa [hresult] at hrestore
  · next rollbackErr failed hresult => rwa [hresult] at hrestore

theorem switchBranchIncrementally_operates (host : Host σ) (now : UInt64)
    (state : Chainstate σ) (forkHeight : UInt64) (disconnected branch : List Block) :
    Operates host now state
      (state.switchBranchIncrementally host now forkHeight disconnected branch).2 := by
  have hdisconnect := disconnectBlocks_operates host now state disconnected.length
  unfold switchBranchIncrementally
  split
  · next err count failed hresult =>
      rw [hresult] at hdisconnect
      exact hdisconnect.trans (failSwitch_operates host now failed _ err)
  · next count next hresult =>
      rw [hresult] at hdisconnect
      refine hdisconnect.trans ?_
      have hconnect := connectBlocks_operates host now next branch
      split
      · next err connected failed hbranch =>
          rw [hbranch] at hconnect
          exact hconnect.trans (failSwitch_operates host now failed _ err)
      · next connected final hbranch => rwa [hbranch] at hconnect

theorem extendWithValidatedBranch_operates (host : Host σ) (now : UInt64)
    (state : Chainstate σ) (branch : List Block) :
    Operates host now state (state.extendWithValidatedBranch host now branch).2 := by
  have hconnect := connectBlocks_operates host now state branch
  unfold extendWithValidatedBranch
  split
  · next count final hbranch => rwa [hbranch] at hconnect
  · next err connected failed hbranch =>
      rw [hbranch] at hconnect
      refine hconnect.trans ?_
      have hdisconnect := disconnectBlocks_operates host now failed connected
      split
      · next rollbackErr count stuck hresult => rwa [hresult] at hdisconnect
      · next count restored hresult => rwa [hresult] at hdisconnect

theorem selectBranchWithMaxReorgDepth_operates (host : Host σ) (now : UInt64)
    (state : Chainstate σ) (branch : List Block) (maxReorgDepth : UInt64) :
    Operates host now state
      (state.selectBranchWithMaxReorgDepth host now branch maxReorgDepth).2 := by
  unfold selectBranchWithMaxReorgDepth
  split
  · exact .refl
  · next plan hplan =>
      split_ifs
      · exact extendWithValidatedBranch_operates host now state branch
      · exact .refl
      · exact replaceWithValidatedBranch_operates host now state _ branch
      · exact switchBranchIncrementally_operates host now state _ _ branch

end Operates

/-! Runs of calls. -/

inductive Call where
  | connectBlock (block : Block)
  | disconnectLastBlock
  | selectBranch (branch : List Block)

/-- The state after a call, whether or not it succeeded. -/
def call (host : Host σ) (now : UInt64) (state : Chainstate σ) : Call → Chainstate σ
  | .connectBlock block => (state.connectBlock host now block).2
  | .disconnectLastBlock => (state.disconnectLastBlock host).2
  | .selectBranch branch => (state.selectBranch host now branch).2

/-- Calls one after the other, each with the clock that it reads. -/
def run (host : Host σ) (state : Chainstate σ) (calls : List (UInt64 × Call)) :
    Chainstate σ :=
  calls.foldl (fun state timed => state.call host timed.1 timed.2) state

theorem call_operates (host : Host σ) (now : UInt64) (state : Chainstate σ) (call : Call) :
    Operates host now state (state.call host now call) := by
  cases call with
  | connectBlock block => exact connectBlock_operates host now state block
  | disconnectLastBlock => exact disconnectLastBlock_operates host now state
  | selectBranch branch =>
      exact selectBranchWithMaxReorgDepth_operates host now state branch _

/-- The states that operations at any clocks lead to. -/
abbrev Reaches (host : Host σ) : Chainstate σ → Chainstate σ → Prop :=
  ReflTransGen fun state next => ∃ now, Operates host now state next

theorem run_reaches (host : Host σ) (state : Chainstate σ) (calls : List (UInt64 × Call)) :
    Reaches host state (state.run host calls) := by
  induction calls generalizing state with
  | nil => exact .refl
  | cons timed calls ih => exact .head ⟨_, call_operates host timed.1 state timed.2⟩ (ih _)

/-- Steps at any of the given clocks. -/
abbrev Runs (host : Host σ) (clocks : Set UInt64) : Chainstate σ → Chainstate σ → Prop :=
  ReflTransGen fun state next => ∃ now ∈ clocks, Step host now state next

theorem run_runs (host : Host σ) {clocks : Set UInt64} (state : Chainstate σ)
    {calls : List (UInt64 × Call)} (hclocks : ∀ timed ∈ calls, timed.1 ∈ clocks) :
    Runs host clocks state (state.run host calls) := by
  induction calls generalizing state with
  | nil => exact .refl
  | cons timed calls ih =>
      rw [List.forall_mem_cons] at hclocks
      have hfirst : Runs host clocks state (state.call host timed.1 timed.2) :=
        (call_operates host timed.1 state timed.2).steps.lift id fun _ _ hstep =>
          ⟨timed.1, hclocks.1, hstep⟩
      exact hfirst.trans (ih _ hclocks.2)

/-! Events. -/

theorem Step.history_eq {host : Host σ} {now : UInt64} {state next : Chainstate σ}
    (hstep : Step host now state next) : ∃ event, next.history = state.history ++ [event] := by
  cases hstep <;> exact ⟨_, rfl⟩

theorem Step.network_eq {host : Host σ} {now : UInt64} {state next : Chainstate σ}
    (hstep : Step host now state next) : next.network = state.network := by
  cases hstep <;> simp

theorem Steps.history_append {host : Host σ} {now : UInt64} {state final : Chainstate σ}
    (hsteps : Steps host now state final) :
    ∃ events, final.history = state.history ++ events := by
  induction hsteps with
  | refl => exact ⟨[], by simp⟩
  | tail _ hstep ih =>
      obtain ⟨events, hevents⟩ := ih
      obtain ⟨event, hevent⟩ := hstep.history_eq
      exact ⟨events ++ [event], by simp [hevent, hevents]⟩

theorem Steps.history_subset {host : Host σ} {now : UInt64} {state final : Chainstate σ}
    (hsteps : Steps host now state final) : state.history ⊆ final.history := by
  obtain ⟨events, hevents⟩ := hsteps.history_append
  rw [hevents]
  exact List.subset_append_left _ _

theorem Reaches.history_append {host : Host σ} {state final : Chainstate σ}
    (hreaches : Reaches host state final) :
    ∃ events, final.history = state.history ++ events := by
  induction hreaches with
  | refl => exact ⟨[], by simp⟩
  | tail _ hoperates ih =>
      obtain ⟨events, hevents⟩ := ih
      obtain ⟨now, hoperates⟩ := hoperates
      obtain ⟨later, hlater⟩ := hoperates.steps.history_append
      exact ⟨events ++ later, by rw [hlater, hevents, List.append_assoc]⟩

/-- What holds at the start and is kept by every step up to which the events
satisfy `admissible` holds wherever all events do. -/
theorem Runs.invariant {host : Host σ} {clocks : Set UInt64} {state final : Chainstate σ}
    (hruns : Runs host clocks state final) (admissible : ChainEvent → Prop)
    (invariant : Chainstate σ → Prop) (hstart : invariant state)
    (hkept : ∀ {now before after event}, now ∈ clocks → Step host now before after →
      after.history = before.history ++ [event] → admissible event → invariant before →
      invariant after)
    (hadmissible : ∀ event ∈ final.history, admissible event) : invariant final := by
  induction hruns with
  | refl => exact hstart
  | tail _ hstep ih =>
      obtain ⟨now, hnow, hstep⟩ := hstep
      obtain ⟨event, hevent⟩ := hstep.history_eq
      rw [hevent] at hadmissible
      have hbefore := ih fun event hmem => hadmissible event (List.mem_append_left _ hmem)
      exact hkept hnow hstep hevent (hadmissible event (by simp)) hbefore

end Chainstate

end Atho
