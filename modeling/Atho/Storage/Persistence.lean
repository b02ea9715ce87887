import Atho.Storage.Restart
import Atho.Storage.TableWrites

/-! The steps of a chainstate that has a database, with what each of them writes. -/

namespace Atho

open Relation

/-- A pruning pass may follow a write. -/
def Database.Prunes (target : Option Nat) (db next : Database) : Prop :=
  next = db ∨ ∃ tipHeight pruneDepth, next = (db.pruneArchivedBlocks target tipHeight pruneDepth).2

theorem Database.Prunes.frame {target : Option Nat} {db next : Database}
    (hprunes : db.Prunes target next) :
    next.network = db.network ∧ ∃ records, next.tables = db.tables.markPruned records ∧
      ∀ record ∈ records, ∃ blockHash, db.tables.blocks.lookup blockHash = some record := by
  rcases hprunes with rfl | ⟨tipHeight, pruneDepth, rfl⟩
  · exact ⟨rfl, [], rfl, by simp⟩
  · rcases hprune : db.pruneArchivedBlocks target tipHeight pruneDepth with ⟨result, next⟩
    obtain ⟨hnetwork, ⟨htables, -⟩ | ⟨files, removed, -, htables, -⟩⟩ :=
      pruneArchivedBlocks_cases hprune
    · exact ⟨hnetwork, [], htables, by simp⟩
    · refine ⟨hnetwork, _, htables, fun record hrecord => ?_⟩
      obtain ⟨fileNumber, -, hpending⟩ := List.mem_flatMap.mp hrecord
      exact (Tables.mem_pendingPrune.mp hpending).1

namespace Database.Commits

variable {crypto : Crypto} {snapshot : ChainstateSnapshot} {utxos : Option UtxoSet}
  {db next : Database}

theorem snapshot_eq {appended : Option (UInt64 × Block)}
    (hcommits : Commits crypto snapshot utxos db next appended) :
    next.tables.snapshot = some snapshot := by
  cases hcommits with
  | image hrebuild =>
      obtain ⟨mark, hremarks⟩ := Tables.rebuildHeightIndex_remarks hrebuild
      exact hremarks.snapshot
  | known _ _ _ htables => rw [htables]
  | fresh _ _ _ _ htables _ => rw [htables]

theorem utxos_of_image (hcommits : Commits crypto snapshot utxos db next none) :
    next.tables.utxos = (utxos.map UtxoSet.entries).getD ∅ := by
  obtain ⟨hrebuild⟩ := hcommits
  obtain ⟨mark, hremarks⟩ := Tables.rebuildHeightIndex_remarks hrebuild
  exact hremarks.utxos

theorem utxos_of_block {height : UInt64} {block : Block}
    (hcommits : Commits crypto snapshot utxos db next (some (height, block))) :
    Tables.applyUtxoDelta crypto db.network block.header.height db.tables.utxos
      block.transactions = .ok next.tables.utxos := by
  cases hcommits with
  | known _ _ hdelta htables => rw [hdelta, htables]
  | fresh _ _ _ hdelta htables _ => rw [hdelta, htables]

end Database.Commits

theorem Tables.applyUtxoDelta_genesis {crypto : Crypto} {network : Network}
    {utxos : Finmap fun _ : UtxoKey => UtxoEntry}
    (hdelta : applyUtxoDelta crypto network 0 ∅ [genesisCoinbase network] = .ok utxos) :
    utxos = (UtxoSet.genesisUtxos crypto network).entries := by
  refine Finmap.ext_lookup (congrFun ?_)
  refine (lookup_applyUtxoDelta hdelta).trans ?_
  change _ = (UtxoSet.genesisUtxos crypto network).get
  rw [UtxoSet.genesisUtxos,
    UtxoSet.get_insertAll (UtxoSet.createOutputs_network crypto _ network 0)]
  rfl

namespace ChainMemory

/-- What is persisted of the tip. -/
def snapshot (memory : ChainMemory) : ChainstateSnapshot :=
  ⟨memory.height, memory.tipHash, memory.tip⟩

theorem snapshot_pruneHistoryToRetain (crypto : Crypto) (memory : ChainMemory) (retain : Nat) :
    (memory.pruneHistoryToRetain crypto retain).snapshot = memory.snapshot := by
  simp [snapshot]

end ChainMemory

namespace Chainstate

section

variable {crypto : Crypto} {target : Option Nat} {pruneDepth reorgDepth : Option UInt64}
  {now : UInt64} {state next : Chainstate Database} {db : Database}

/-- One step over the database `db`, with its outcome. -/
inductive DatabaseStep (crypto : Crypto) (target : Option Nat) (pruneDepth reorgDepth : Option UInt64)
    (now : UInt64) (state : Chainstate Database) (db : Database) :
    Except StorageError Unit → Chainstate Database → Prop where
  | connected {block : Block} {undo : BlockUndo} {utxos : UtxoSet} {written stored : Database}
      (hvalid : state.validateNext crypto now block = .ok ())
      (happly : state.utxos.applyBlock crypto block = (.ok undo, utxos))
      (hcommit : db.commitChainstate crypto
        (state.pushBlock crypto block undo utxos).snapshot none
        (some (block.header.height, block)) = (.ok (), written))
      (hprune : written.Prunes target stored) :
      DatabaseStep crypto target pruneDepth reorgDepth now state db (.ok ())
        ⟨(state.pushBlock crypto block undo utxos).pruneHistoryToRetain crypto
            (retainedBlocks (Database.host crypto target pruneDepth reorgDepth) state.network),
          some stored, state.history ++ [.connected block]⟩
  | withdrawn {block : Block} {undo : BlockUndo} {utxos : UtxoSet} {err : StorageError}
      {written : Database}
      (hvalid : state.validateNext crypto now block = .ok ())
      (happly : state.utxos.applyBlock crypto block = (.ok undo, utxos))
      (hcommit : db.commitChainstate crypto
        (state.pushBlock crypto block undo utxos).snapshot none
        (some (block.header.height, block)) = (.error err, written)) :
      DatabaseStep crypto target pruneDepth reorgDepth now state db (.error err)
        ⟨{ state.toChainMemory with utxos := utxos.disconnectBlock undo }, some written,
          state.history ++ [.withdrawn block]⟩
  | clashed {block : Block} {err : StorageError} {utxos : UtxoSet}
      (hvalid : state.validateNext crypto now block = .ok ())
      (happly : state.utxos.applyBlock crypto block = (.error err, utxos)) :
      DatabaseStep crypto target pruneDepth reorgDepth now state db (.error err)
        ⟨{ state.toChainMemory with utxos := utxos }, some db,
          state.history ++ [.clashed block]⟩
  | disconnected {undo : ChainUndo} {removed : Block} {written : Database}
      (hundo : state.undoStack.getLast? = some undo)
      (hremoved : state.blocks.getLast? = some removed)
      (hcommit : db.commitChainstate crypto (state.popBlock crypto undo removed).snapshot
        (some (state.popBlock crypto undo removed).utxos) none = (.ok (), written)) :
      DatabaseStep crypto target pruneDepth reorgDepth now state db (.ok ())
        ⟨state.popBlock crypto undo removed, some written,
          state.history ++ [.disconnected removed]⟩
  | reinstated {undo : ChainUndo} {removed : Block} {err : StorageError} {written : Database}
      (hundo : state.undoStack.getLast? = some undo)
      (hremoved : state.blocks.getLast? = some removed)
      (hcommit : db.commitChainstate crypto (state.popBlock crypto undo removed).snapshot
        (some (state.popBlock crypto undo removed).utxos) none = (.error err, written)) :
      DatabaseStep crypto target pruneDepth reorgDepth now state db (.error err)
        ⟨{ state.toChainMemory with
            utxos := ((state.utxos.disconnectBlock undo.blockUndo).applyBlock crypto
              removed).2 },
          some written, state.history ++ [.reinstated removed]⟩
  | replaced {forkHeight : UInt64} {canonical blocks branch : List Block}
      {validated : Chainstate Database} {written stored : Database}
      (hcanonical : state.canonicalPrefixThrough
        (Database.host crypto target pruneDepth reorgDepth) forkHeight = .ok canonical)
      (hblocks : blocks = canonical ++ branch)
      (hvalidated : validateReplacementChain (Database.host crypto target pruneDepth reorgDepth)
        now state.network blocks = .ok validated)
      (hreplace : db.replaceChainstate crypto validated.snapshot validated.utxos blocks =
        (.ok (), written))
      (hprune : written.Prunes target stored) :
      DatabaseStep crypto target pruneDepth reorgDepth now state db (.ok ())
        ⟨({ validated.toChainMemory with network := state.network }).pruneHistoryToRetain crypto
            (retainedBlocks (Database.host crypto target pruneDepth reorgDepth) state.network),
          some stored, state.history ++ [.replaced blocks.tail]⟩
  | replaceFailed {blocks : List Block} {validated : Chainstate Database} {err : StorageError}
      {written : Database}
      (hreplace : db.replaceChainstate crypto validated.snapshot validated.utxos blocks =
        (.error err, written)) :
      DatabaseStep crypto target pruneDepth reorgDepth now state db (.error err)
        ⟨state.toChainMemory, some written, state.history ++ [.replaceFailed]⟩

theorem DatabaseStep.step {result : Except StorageError Unit}
    (hstores : DatabaseStep crypto target pruneDepth reorgDepth now state db result next)
    (hstorage : state.storage = some db) :
    Step (Database.host crypto target pruneDepth reorgDepth) now state next := by
  cases hstores with
  | connected hvalid happly _ _ => exact .connected _ hvalid happly
  | withdrawn hvalid happly _ => exact .withdrawn _ hvalid happly
  | clashed hvalid happly =>
      rw [← hstorage]
      exact .clashed hvalid happly
  | disconnected hundo hremoved _ => exact .disconnected _ hundo hremoved
  | reinstated hundo hremoved _ => exact .reinstated _ hundo hremoved
  | replaced _ _ hvalidated _ _ => exact .replaced _ hvalidated
  | replaceFailed _ => exact .replaceFailed _

theorem pruneHistory_stored (crypto : Crypto) (target : Option Nat)
    (pruneDepth reorgDepth : Option UInt64) (memory : ChainMemory) (db : Database)
    (history : List ChainEvent) :
    ∃ stored, db.Prunes target stored ∧
      pruneHistory (Database.host crypto target pruneDepth reorgDepth)
          ⟨memory, some db, history⟩ =
        ⟨memory.pruneHistoryToRetain crypto
            (retainedBlocks (Database.host crypto target pruneDepth reorgDepth) memory.network),
          some stored, history⟩ := by
  unfold pruneHistory
  dsimp only
  split_ifs
  · exact ⟨db, .inl rfl, rfl⟩
  · exact ⟨_, .inr ⟨_, _, rfl⟩, rfl⟩

theorem persist_eq {write : Database → Except StorageError Unit × Database}
    {result : Except StorageError Unit} (hstorage : state.storage = some db)
    (hpersist : state.persist write = (result, next)) :
    ∃ written, write db = (result, written) ∧ next = { state with storage := some written } := by
  rw [persist_of_some hstorage, Prod.mk.injEq] at hpersist
  exact ⟨(write db).2, Prod.ext hpersist.1 rfl, hpersist.2.symm⟩

theorem connectBlock_databaseStep {block : Block} {result : Except StorageError Unit}
    (hstorage : state.storage = some db)
    (hconnect : state.connectBlock (Database.host crypto target pruneDepth reorgDepth) now block =
      (result, next)) :
    next = state ∧ (∃ err, result = .error err) ∨
      DatabaseStep crypto target pruneDepth reorgDepth now state db result next := by
  unfold connectBlock at hconnect
  split at hconnect
  · cases hconnect
    exact .inl ⟨rfl, _, rfl⟩
  · next hvalid =>
      right
      split at hconnect
      · next happly =>
          cases hconnect
          simp only [note, hstorage]
          exact .clashed hvalid happly
      · next undo utxos happly =>
          dsimp only at hconnect
          split at hconnect
          · next err failed hpersist =>
              obtain ⟨written, hcommit, rfl⟩ := persist_eq hstorage hpersist
              cases hconnect
              exact .withdrawn hvalid happly hcommit
          · next stored hpersist =>
              obtain ⟨written, hcommit, rfl⟩ := persist_eq hstorage hpersist
              cases hconnect
              obtain ⟨stored, hprune, hpruned⟩ := pruneHistory_stored crypto target pruneDepth
                reorgDepth (state.pushBlock crypto block undo utxos) written
                (state.history ++ [.connected block])
              refine Eq.subst hpruned.symm ?_
              exact .connected hvalid happly hcommit hprune

theorem disconnectLastBlock_databaseStep {result : Except StorageError Unit}
    (hstorage : state.storage = some db)
    (hdisconnect : state.disconnectLastBlock
      (Database.host crypto target pruneDepth reorgDepth) = (result, next)) :
    next = state ∧ (∃ err, result = .error err) ∨
      DatabaseStep crypto target pruneDepth reorgDepth now state db result next := by
  unfold disconnectLastBlock at hdisconnect
  split at hdisconnect
  · next undo removed hundo hremoved =>
      right
      dsimp only at hdisconnect
      split at hdisconnect
      · next err failed hpersist =>
          obtain ⟨written, hcommit, rfl⟩ := persist_eq hstorage hpersist
          cases hdisconnect
          exact .reinstated hundo hremoved hcommit
      · next stored hpersist =>
          obtain ⟨written, hcommit, rfl⟩ := persist_eq hstorage hpersist
          cases hdisconnect
          exact .disconnected hundo hremoved hcommit
  · cases hdisconnect
    exact .inl ⟨rfl, _, rfl⟩

theorem replaceWithValidatedBranch_databaseStep {forkHeight : UInt64} {branch : List Block}
    {result : Except StorageError Unit} (hstorage : state.storage = some db)
    (hreplace : state.replaceWithValidatedBranch
      (Database.host crypto target pruneDepth reorgDepth) now forkHeight branch =
        (result, next)) :
    next = state ∧ (∃ err, result = .error err) ∨
      DatabaseStep crypto target pruneDepth reorgDepth now state db result next := by
  unfold replaceWithValidatedBranch at hreplace
  split at hreplace
  · cases hreplace
    exact .inl ⟨rfl, _, rfl⟩
  · next canonical hcanonical =>
      dsimp only at hreplace
      split at hreplace
      · cases hreplace
        exact .inl ⟨rfl, _, rfl⟩
      · next validated hvalidated =>
          right
          split at hreplace
          · next err failed hpersist =>
              obtain ⟨written, hwritten, rfl⟩ := persist_eq hstorage hpersist
              cases hreplace
              exact .replaceFailed hwritten
          · next stored hpersist =>
              obtain ⟨written, hwritten, rfl⟩ := persist_eq hstorage hpersist
              cases hreplace
              obtain ⟨stored, hprune, hpruned⟩ := pruneHistory_stored crypto target pruneDepth
                reorgDepth { validated.toChainMemory with network := state.network } written
                (state.history ++ [.replaced (canonical ++ branch).tail])
              refine Eq.subst hpruned.symm ?_
              exact .replaced hcanonical rfl hvalidated hwritten hprune

theorem Operation.databaseStep {result : Except StorageError Unit}
    (hoperation : Operation (Database.host crypto target pruneDepth reorgDepth) now state result
      next) (hstorage : state.storage = some db) :
    next = state ∧ (∃ err, result = .error err) ∨
      DatabaseStep crypto target pruneDepth reorgDepth now state db result next := by
  cases hoperation with
  | connect block hconnect => exact connectBlock_databaseStep hstorage hconnect
  | disconnect hdisconnect => exact disconnectLastBlock_databaseStep hstorage hdisconnect
  | replace forkHeight branch hreplace =>
      exact replaceWithValidatedBranch_databaseStep hstorage hreplace

/-! The state in the database. -/

/-- The unspent outputs and the snapshot of the database are those in memory. -/
structure Mirrors (crypto : Crypto) (target : Option Nat) (pruneDepth reorgDepth : Option UInt64)
    (network : Network) (state : Chainstate Database) (db : Database) : Prop where
  storage : state.storage = some db
  network_eq : state.network = network
  stored_network : db.network = network
  utxos_network : state.utxos.network = network
  utxos : db.tables.utxos = state.utxos.entries
  snapshot : db.tables.snapshot = some state.snapshot
  recalls : state.RecallsHistory (Database.host crypto target pruneDepth reorgDepth) network []

theorem utxos_network_of_connectBlocks {host : Host σ} {network : Network}
    {blocks : List Block} {count : Nat} {validated : Chainstate σ}
    (hconnect : (fresh host network).connectBlocks host now blocks = (.ok (), count, validated)) :
    validated.utxos.network = network :=
  connectBlocks_invariant hconnect (fun state => state.utxos.network = network)
    (UtxoSet.genesisUtxos_network host.crypto network) fun storage _ happly hbefore => by
      simpa [ChainMemory.pushBlock] using
        (UtxoSet.journaled_of_applyBlock happly).network.trans hbefore

theorem Mirrors.step {network : Network} {stored : Database}
    (hmirrors : Mirrors crypto target pruneDepth reorgDepth network state db)
    (hstep : DatabaseStep crypto target pruneDepth reorgDepth now state db (.ok ()) next)
    (hstored : next.storage = some stored) :
    Mirrors crypto target pruneDepth reorgDepth network next stored := by
  have hnext := hstep.step hmirrors.storage
  have hrecalls := hmirrors.recalls.step hnext hmirrors.network_eq
  have hnetwork := hnext.network_eq.trans hmirrors.network_eq
  cases hstep with
  | @connected block undo utxos written _ hvalid happly hcommit hprune =>
      cases hstored
      obtain ⟨hpruned, records, htables, -⟩ := hprune.frame
      have hcommits := Database.commitChainstate_ok hcommit
      obtain ⟨hsame, -, -⟩ := Database.commitChainstate_cases hcommit
      have hdelta := hcommits.utxos_of_block
      rw [hmirrors.utxos] at hdelta
      have hutxos := Tables.applyUtxoDelta_eq
        (hmirrors.utxos_network.trans hmirrors.stored_network.symm) happly hdelta
      refine ⟨rfl, hnetwork, hpruned.trans (hsame.trans hmirrors.stored_network), ?_, ?_, ?_,
        hrecalls⟩
      · simpa [ChainMemory.pushBlock] using
          (UtxoSet.journaled_of_applyBlock happly).network.trans hmirrors.utxos_network
      · simpa [htables, Tables.markPruned, ChainMemory.pushBlock] using hutxos
      · rw [htables, ChainMemory.snapshot_pruneHistoryToRetain]
        exact hcommits.snapshot_eq
  | @disconnected undo removed _ hundo hremoved hcommit =>
      cases hstored
      have hcommits := Database.commitChainstate_ok hcommit
      obtain ⟨hsame, -, -⟩ := Database.commitChainstate_cases hcommit
      exact ⟨rfl, hnetwork, hsame.trans hmirrors.stored_network,
        (UtxoSet.disconnectBlock_network _ _).trans hmirrors.utxos_network,
        hcommits.utxos_of_image, hcommits.snapshot_eq, hrecalls⟩
  | @replaced _ _ blocks _ validated written _ _ _ hvalidated hreplace hprune =>
      cases hstored
      obtain ⟨hpruned, records, htables, -⟩ := hprune.frame
      obtain ⟨hsame, locations, -, hwritten⟩ := Database.replaceChainstate_ok hreplace
      simp only [Tables.replace, bind_eq_ok, pure_eq_ok] at hwritten
      obtain ⟨tables, -, hwritten⟩ := hwritten
      rw [hmirrors.network_eq] at hvalidated
      obtain ⟨first, rest, count, -, hconnect⟩ := validateReplacementChain_ok hvalidated
      refine ⟨rfl, hnetwork, hpruned.trans (hsame.trans hmirrors.stored_network), ?_, ?_, ?_,
        hrecalls⟩
      · simpa using utxos_network_of_connectBlocks hconnect
      · simp [htables, ← hwritten, Tables.markPruned]
      · rw [htables, ← hwritten, ChainMemory.snapshot_pruneHistoryToRetain]
        rfl

theorem Mirrors.create {network : Network} {faults : List (Option WriteFault)}
    (hcreate : Chainstate.create (Database.host crypto target pruneDepth reorgDepth) network
      (.empty network faults) = (.ok (), next)) :
    ∃ stored, Mirrors crypto target pruneDepth reorgDepth network next stored ∧
      next.history = [] ∧
      Database.commitChainstate crypto (.empty network faults)
        (ChainMemory.genesis crypto network).snapshot
        (some (UtxoSet.genesisUtxos crypto network))
        (some (0, genesisBlock crypto network)) = (.ok (), stored) := by
  unfold Chainstate.create at hcreate
  obtain ⟨stored, hcommit, rfl⟩ := persist_eq rfl hcreate
  have hcommits := Database.commitChainstate_ok hcommit
  obtain ⟨hsame, -, -⟩ := Database.commitChainstate_cases hcommit
  exact ⟨stored, ⟨rfl, rfl, hsame, UtxoSet.genesisUtxos_network crypto network,
    Tables.applyUtxoDelta_genesis hcommits.utxos_of_block, hcommits.snapshot_eq,
    recallsHistory_fresh _ _ _⟩, rfl, hcommit⟩

end

/-! Calls that succeed. -/

section Succeeds

variable {host : Host σ} {now : UInt64} {state next : Chainstate σ}

def succeeds (host : Host σ) (now : UInt64) (state : Chainstate σ) : Call → Bool
  | .connectBlock block => (state.connectBlock host now block).1.isOk
  | .disconnectLastBlock => (state.disconnectLastBlock host).1.isOk
  | .selectBranch branch => (state.selectBranch host now branch).1.isOk

/-- Operations one after the other that all succeed. -/
abbrev Proceeds (host : Host σ) (now : UInt64) : Chainstate σ → Chainstate σ → Prop :=
  ReflTransGen fun state next => Operation host now state (.ok ()) next

theorem connectBlocks_proceeds {blocks : List Block} {count : Nat}
    (hconnect : state.connectBlocks host now blocks = (.ok (), count, next)) :
    Proceeds host now state next := by
  induction blocks generalizing state count with
  | nil =>
      cases hconnect
      exact .refl
  | cons block rest ih =>
      obtain ⟨middle, count, hfirst, hrest⟩ := connectBlocks_cons_ok hconnect
      exact .head (.connect block hfirst) (ih hrest)

theorem disconnectBlocks_proceeds {remaining count : Nat}
    (hdisconnect : state.disconnectBlocks host remaining = (.ok (), count, next)) :
    Proceeds host now state next := by
  induction remaining generalizing state count with
  | zero =>
      cases hdisconnect
      exact .refl
  | succ remaining ih =>
      rw [disconnectBlocks] at hdisconnect
      split at hdisconnect
      · cases hdisconnect
      · next middle hfirst =>
          rcases hrest : middle.disconnectBlocks host remaining with ⟨result, later, last⟩
          rw [hrest] at hdisconnect
          cases hdisconnect
          exact .head (.disconnect hfirst) (ih hrest)

theorem extendWithValidatedBranch_proceeds {branch : List Block}
    (hextend : state.extendWithValidatedBranch host now branch = (.ok (), next)) :
    Proceeds host now state next := by
  unfold extendWithValidatedBranch at hextend
  split at hextend
  · next count final hconnect =>
      cases hextend
      exact connectBlocks_proceeds hconnect
  · split at hextend <;> cases hextend

theorem failSwitch_ne_ok (journal : IncrementalBranchSwitchJournal) (err : StorageError) :
    state.failSwitch host now journal err ≠ (.ok (), next) := by
  unfold failSwitch
  split <;> simp

theorem switchBranchIncrementally_proceeds {forkHeight : UInt64}
    {disconnected branch : List Block}
    (hswitch : state.switchBranchIncrementally host now forkHeight disconnected branch =
      (.ok (), next)) : Proceeds host now state next := by
  unfold switchBranchIncrementally at hswitch
  split at hswitch
  · exact absurd hswitch (failSwitch_ne_ok _ _)
  · next count middle hdisconnect =>
      refine (disconnectBlocks_proceeds hdisconnect).trans ?_
      split at hswitch
      · exact absurd hswitch (failSwitch_ne_ok _ _)
      · next connected final hconnect =>
          cases hswitch
          exact connectBlocks_proceeds hconnect

theorem reportSelection_ok {outcome : ChainSelectionOutcome} {disconnected : List Block}
    {result : Except StorageError Unit × Chainstate σ} {done : ChainSelectionResult}
    (hreport : (reportSelection outcome disconnected result).1 = .ok done) :
    result = (.ok (), (reportSelection outcome disconnected result).2) := by
  obtain ⟨err | _, next⟩ := result
  · cases hreport
  · rfl

theorem selectBranchWithMaxReorgDepth_proceeds {branch : List Block} {maxReorgDepth : UInt64}
    {done : ChainSelectionResult}
    (hselect : (state.selectBranchWithMaxReorgDepth host now branch maxReorgDepth).1 =
      .ok done) :
    Proceeds host now state
      (state.selectBranchWithMaxReorgDepth host now branch maxReorgDepth).2 := by
  unfold selectBranchWithMaxReorgDepth at hselect ⊢
  split
  · exact .refl
  · next plan hplan =>
      rw [hplan] at hselect
      dsimp only at hselect
      split_ifs at hselect ⊢
      · exact extendWithValidatedBranch_proceeds (reportSelection_ok hselect)
      · exact .refl
      · exact .single (.replace _ branch (reportSelection_ok hselect))
      · exact switchBranchIncrementally_proceeds (reportSelection_ok hselect)

theorem isOk_eq_true {result : Except ε α} :
    result.isOk = true ↔ ∃ value, result = .ok value := by
  cases result <;> simp [Except.isOk, Except.toBool]

theorem call_proceeds {call : Call} (hsucceeds : state.succeeds host now call = true) :
    Proceeds host now state (state.call host now call) := by
  cases call with
  | connectBlock block =>
      obtain ⟨done, hdone⟩ := isOk_eq_true.mp hsucceeds
      exact .single (.connect block (Prod.ext hdone rfl))
  | disconnectLastBlock =>
      obtain ⟨done, hdone⟩ := isOk_eq_true.mp hsucceeds
      exact .single (.disconnect (Prod.ext hdone rfl))
  | selectBranch branch =>
      obtain ⟨done, hdone⟩ := isOk_eq_true.mp hsucceeds
      exact selectBranchWithMaxReorgDepth_proceeds hdone

/-- Every call of a run succeeds. -/
def completes (host : Host σ) : Chainstate σ → List (UInt64 × Call) → Bool
  | _, [] => true
  | state, (now, call) :: rest =>
      state.succeeds host now call && (state.call host now call).completes host rest

end Succeeds

end Chainstate

end Atho
