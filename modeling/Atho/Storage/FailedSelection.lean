import Atho.Storage.Unpruned

/-! A branch selection that fails leaves the memory as it was. -/

namespace Atho

/-- What is asked of the steps of a run: they are clean, and the blocks that they put
on the chain are from the pool. -/
structure ChainEvent.Quiet (crypto : Crypto) (pool : Set Block) (event : ChainEvent) : Prop where
  clean : event.clean crypto = true
  pooled : ∀ block ∈ event.blocks, block ∈ pool

namespace Chainstate

section

variable {host : Host σ} {network : Network} {now : UInt64} {pool : Set Block}
  {chain : List Block} {state : Chainstate σ}

/-- No two headers of blocks from the pool or of genesis collide. -/
def HeadersDiffer (crypto : Crypto) (network : Network) (pool : Set Block) : Prop :=
  Set.InjOn crypto.sha3_384 {bytes | bytes = (genesisBlock crypto network).header.canonicalBytes ∨
    ∃ block ∈ pool, bytes = block.header.canonicalBytes}

/-- The memory is the one that connecting the chain on genesis gives, and the chain
is of blocks from the pool. -/
structure Stands (host : Host σ) (network : Network) (now : UInt64) (pool : Set Block)
    (chain : List Block) (memory : ChainMemory) : Prop where
  extends_genesis :
    (ChainMemory.genesis host.crypto network).extendAll host.crypto now chain = some memory
  pooled : ∀ block ∈ chain, block ∈ pool

namespace Stands

variable {memory : ChainMemory}

theorem unpruned (hstands : Stands host network now pool chain memory) :
    Unpruned host.crypto network chain memory :=
  .of_extendAll hstands.extends_genesis

theorem room (hstands : Stands host network now pool chain memory)
    (hbelow : ∀ block ∈ pool, block.header.height < effectivePruneDepth host network) :
    chain.length < retainedBlocks host network := by
  have hretained := (effectivePruneDepth host network).toNat_saturatingAdd 1
  rw [UInt64.toNat_one] at hretained
  by_cases hchain : chain = []
  · rw [hchain, retainedBlocks, hretained, List.length_nil]
    omega
  · obtain ⟨last, hlast, -, -, hheight⟩ := hstands.unpruned.getLast? hchain
    have hlow := hbelow last (hstands.pooled last (List.mem_of_getLast? hlast))
    have hdepth := (effectivePruneDepth host network).toNat_lt
    rw [← hheight, UInt64.lt_iff_toNat_lt, hstands.unpruned.height_toNat] at hlow
    rw [retainedBlocks, hretained]
    omega

theorem length_lt (hstands : Stands host network now pool chain memory)
    (hbelow : ∀ block ∈ pool, block.header.height < effectivePruneDepth host network) :
    chain.length < 2 ^ 64 - 1 := by
  have hroom := hstands.room hbelow
  have hretained := ((effectivePruneDepth host network).saturatingAdd 1).toNat_lt
  rw [retainedBlocks] at hroom
  omega

theorem nodup (hstands : Stands host network now pool chain memory)
    (hbelow : ∀ block ∈ pool, block.header.height < effectivePruneDepth host network)
    (hheaders : HeadersDiffer host.crypto network pool) :
    (blockHashes host.crypto (genesisBlock host.crypto network :: chain)).Nodup := by
  have hlength := hstands.length_lt hbelow
  refine blockHashes_nodup hstands.unpruned.numbered ?_ (hheaders.mono ?_)
  · rw [List.length_cons]
    omega
  · rintro _ ⟨block, hblock, rfl⟩
    rcases List.mem_cons.mp hblock with rfl | hblock
    · exact .inl rfl
    · exact .inr ⟨block, hstands.pooled block hblock, rfl⟩

theorem append {final : ChainMemory} {blocks : List Block}
    (hstands : Stands host network now pool chain memory)
    (hextend : memory.extendAll host.crypto now blocks = some final)
    (hpool : ∀ block ∈ blocks, block ∈ pool) :
    Stands host network now pool (chain ++ blocks) final :=
  ⟨ChainMemory.extendAll_append.mpr ⟨memory, hstands.extends_genesis, hextend⟩,
    fun block hblock => (List.mem_append.mp hblock).elim (hstands.pooled block) (hpool block)⟩

theorem split {left right : List Block}
    (hstands : Stands host network now pool (left ++ right) memory) :
    ∃ middle, Stands host network now pool left middle ∧
      middle.extendAll host.crypto now right = some memory := by
  obtain ⟨middle, hleft, hright⟩ := ChainMemory.extendAll_append.mp hstands.extends_genesis
  exact ⟨middle,
    ⟨hleft, fun block hblock => hstands.pooled block (List.mem_append_left _ hblock)⟩, hright⟩

theorem last {undo : ChainUndo} {removed : Block}
    (hstands : Stands host network now pool chain memory)
    (hundo : memory.undoStack.getLast? = some undo)
    (hremoved : memory.blocks.getLast? = some removed) :
    ∃ front before blockUndo, chain = front ++ [removed] ∧
      Stands host network now pool front before ∧
      undo = ⟨before.tip, before.tipHash, blockUndo⟩ ∧
      before.utxos.applyBlock host.crypto removed = (.ok blockUndo, memory.utxos) ∧
      memory = before.pushBlock host.crypto removed blockUndo memory.utxos := by
  rcases List.eq_nil_or_concat chain with rfl | ⟨front, block, rfl⟩
  · have hlength := hstands.unpruned.undoStack_length
    rw [List.eq_nil_of_length_eq_zero hlength] at hundo
    cases hundo
  · rw [List.concat_eq_append] at hstands ⊢
    obtain ⟨before, hfront, hextend⟩ :=
      ChainMemory.extendAll_concat.mp hstands.extends_genesis
    obtain ⟨blockUndo, utxos, -, happly, rfl⟩ := ChainMemory.extend_eq_some.mp hextend
    simp only [ChainMemory.pushBlock, List.getLast?_concat, Option.some.injEq] at hundo hremoved
    subst hundo hremoved
    exact ⟨front, before, blockUndo, rfl,
      ⟨hfront, fun other hother => hstands.pooled other (List.mem_append_left _ hother)⟩,
      rfl, happly, rfl⟩

end Stands

/-- What every step keeps: the memory is the one of the canonical chain. -/
def StandsOnHistory (host : Host σ) (network : Network) (now : UInt64) (pool : Set Block)
    (state : Chainstate σ) : Prop :=
  Stands host network now pool (canonicalChain [] state.history) state.toChainMemory

theorem standsOnHistory_fresh (host : Host σ) (network : Network) (now : UInt64)
    (pool : Set Block) (storage : Option σ) :
    (freshWithStorage host network storage).StandsOnHistory host network now pool :=
  ⟨rfl, by simp [freshWithStorage, canonicalChain]⟩

theorem Stands.connected {clock : UInt64} {block : Block} {undo : BlockUndo} {utxos : UtxoSet}
    {memory : ChainMemory} (hstands : Stands host network now pool chain memory)
    (hclock : clock ≤ now)
    (hvalid : memory.validateNext host.crypto clock block = .ok ())
    (happly : memory.utxos.applyBlock host.crypto block = (.ok undo, utxos))
    (hpool : block ∈ pool)
    (hbelow : block.header.height < effectivePruneDepth host network) :
    Stands host network now pool (chain ++ [block])
      ((memory.pushBlock host.crypto block undo utxos).pruneHistoryToRetain host.crypto
        (retainedBlocks host network)) := by
  have hroom := hstands.unpruned.room hvalid hbelow
  rw [ChainMemory.pruneHistoryToRetain_of_le (by
    rw [ChainMemory.pushBlock, List.length_append]
    exact hroom)]
  refine ⟨ChainMemory.extendAll_concat.mpr ⟨memory, hstands.extends_genesis,
    ChainMemory.extend_eq_some.mpr
      ⟨undo, utxos, ChainMemory.validateNext_mono hclock hvalid, happly, rfl⟩⟩, ?_⟩
  intro other hother
  rcases List.mem_append.mp hother with hother | hother
  · exact hstands.pooled other hother
  · rwa [List.mem_singleton.mp hother]

theorem stands_connectBlocks {clock : UInt64} {blocks : List Block} {count : Nat}
    {final : Chainstate σ} (hstands : Stands host network now pool chain state.toChainMemory)
    (hclock : clock ≤ now) (hpool : ∀ block ∈ blocks, block ∈ pool)
    (hbelow : ∀ block ∈ pool, block.header.height < effectivePruneDepth host network)
    (hconnect : state.connectBlocks host clock blocks = (.ok (), count, final)) :
    Stands host network now pool (chain ++ blocks) final.toChainMemory := by
  induction blocks generalizing state chain count with
  | nil =>
      cases hconnect
      rwa [List.append_nil]
  | cons block rest ih =>
      rw [List.forall_mem_cons] at hpool
      obtain ⟨next, count, hfirst, hrest⟩ := connectBlocks_cons_ok hconnect
      obtain ⟨undo, utxos, storage, hvalid, happly, rfl⟩ := connectBlock_ok hfirst
      have hnext := hstands.connected hclock hvalid happly hpool.1 (hbelow block hpool.1)
      rw [hstands.unpruned.network_eq] at hrest
      have hfinal := ih hnext hpool.2 hrest
      rwa [List.append_assoc, List.singleton_append] at hfinal

theorem StandsOnHistory.step {clock : UInt64} {next : Chainstate σ} {event : ChainEvent}
    (hbelow : ∀ block ∈ pool, block.header.height < effectivePruneDepth host network)
    (hheaders : HeadersDiffer host.crypto network pool) (hclock : clock ≤ now)
    (hstep : Step host clock state next) (hevent : next.history = state.history ++ [event])
    (hclean : event.clean host.crypto = true) (hpool : ∀ block ∈ event.blocks, block ∈ pool)
    (hstands : state.StandsOnHistory host network now pool) :
    next.StandsOnHistory host network now pool := by
  have hnetwork := hstands.unpruned.network_eq
  cases hstep with
  | @connected block undo utxos storage hvalid happly =>
      simp only [List.append_cancel_left_eq, List.cons.injEq, and_true] at hevent
      subst hevent
      have hblock := hpool block (List.mem_singleton_self block)
      rw [StandsOnHistory, canonicalChain_snoc, hnetwork]
      exact hstands.connected hclock hvalid happly hblock (hbelow block hblock)
  | withdrawn storage hvalid happly =>
      simp only [List.append_cancel_left_eq, List.cons.injEq, and_true] at hevent
      subst hevent
      rw [StandsOnHistory, canonicalChain_snoc,
        UtxoSet.disconnectBlock_applyBlock happly (by simpa [ChainEvent.clean] using hclean)]
      exact hstands
  | clashed hvalid happly =>
      simp only [List.append_cancel_left_eq, List.cons.injEq, and_true] at hevent
      subst hevent
      cases hclean
  | @disconnected undo removed storage hundo hremoved =>
      simp only [List.append_cancel_left_eq, List.cons.injEq, and_true] at hevent
      subst hevent
      obtain ⟨front, before, blockUndo, hchain, hbefore, rfl, happly, hmemory⟩ :=
        hstands.last hundo hremoved
      have hfresh : removed.header.blockHash host.crypto ∉
          blockHashes host.crypto before.blocks := by
        have hnodup := hstands.nodup hbelow hheaders
        rw [hchain, ← List.cons_append, blockHashes, List.map_append, List.nodup_append] at hnodup
        intro hmem
        rw [hbefore.unpruned.resident] at hmem
        exact hnodup.2.2 _ hmem _ (List.mem_singleton_self _) rfl
      have hpop := hbefore.unpruned.popBlock_pushBlock happly
        (by simpa [ChainEvent.clean] using hclean) hfresh
      rw [← hmemory] at hpop
      rw [StandsOnHistory, canonicalChain_snoc, canonicalStep, hchain, List.dropLast_concat]
      exact hpop ▸ hbefore
  | @reinstated undo removed storage hundo hremoved =>
      simp only [List.append_cancel_left_eq, List.cons.injEq, and_true] at hevent
      subst hevent
      obtain ⟨front, before, blockUndo, hchain, hbefore, rfl, happly, hmemory⟩ :=
        hstands.last hundo hremoved
      rw [StandsOnHistory, canonicalChain_snoc, UtxoSet.disconnectBlock_applyBlock happly
        (by simpa [ChainEvent.clean] using hclean), happly]
      exact hstands
  | @replaced blocks validated storage hvalidated =>
      simp only [List.append_cancel_left_eq, List.cons.injEq, and_true] at hevent
      subst hevent
      obtain ⟨first, rest, count, rfl, hconnect⟩ := validateReplacementChain_ok hvalidated
      rw [hnetwork] at hconnect
      have hfresh : Stands host network now pool [] (fresh host network).toChainMemory :=
        standsOnHistory_fresh host network now pool none
      have hvalid := stands_connectBlocks hfresh hclock hpool hbelow hconnect
      have hadopted : ({ validated.toChainMemory with network := state.network } : ChainMemory) =
          validated.toChainMemory := by
        rw [hnetwork, ← hvalid.unpruned.network_eq]
      have hroom : validated.blocks.length ≤ retainedBlocks host state.network := by
        rw [hvalid.unpruned.resident, hnetwork]
        exact hvalid.room hbelow
      rw [StandsOnHistory, canonicalChain_snoc, hadopted,
        ChainMemory.pruneHistoryToRetain_of_le hroom]
      exact hvalid
  | replaceFailed storage =>
      rw [StandsOnHistory, canonicalChain_snoc]
      exact hstands

/-! Restoring after a failed switch. -/

theorem not_mem_of_spendsOwnOutput {history : List ChainEvent} {block : Block}
    (hquiet : ∀ event ∈ history, event.Quiet host.crypto pool)
    (hspends : UtxoSet.spendsOwnOutput host.crypto block = true) :
    .disconnected block ∉ history ∧ .reinstated block ∉ history := by
  constructor <;> intro hmem <;>
    simpa [ChainEvent.clean, hspends] using (hquiet _ hmem).clean

/-- Rewriting the chain from the fork point either gives the original memory, or
fails at its single write. -/
theorem replaceWithValidatedBranch_cases {forkHeight : UInt64} {extra suffix : List Block}
    {memory : ChainMemory} {result : Except StorageError Unit} {next : Chainstate σ}
    (hbelow : ∀ block ∈ pool, block.header.height < effectivePruneDepth host network)
    (hstands : Stands host network now pool (chain ++ extra) state.toChainMemory)
    (horiginal : Stands host network now pool (chain ++ suffix) memory)
    (hfork : forkHeight.toNat = chain.length)
    (hreplace : state.replaceWithValidatedBranch host now forkHeight suffix = (result, next)) :
    (result = .ok () ∧ next.toChainMemory = memory) ∨
      next.failures = state.failures + 1 := by
  have hnetwork := hstands.unpruned.network_eq
  have hlength := hstands.length_lt hbelow
  have hprefix : state.canonicalPrefixThrough host forkHeight =
      .ok (genesisBlock host.crypto network :: chain) := by
    rw [canonicalPrefixThrough_eq hstands.unpruned (by omega)
      (by rw [hfork, List.length_append]; omega), hfork, List.take_left]
  have hvalidated := validateReplacementChain_eq horiginal.extends_genesis
    (horiginal.room hbelow)
  simp only [replaceWithValidatedBranch, hprefix, hnetwork, List.cons_append,
    hvalidated] at hreplace
  split at hreplace
  · next err failed hpersist =>
      obtain ⟨storage, rfl⟩ := eq_of_persist hpersist
      cases hreplace
      right
      rw [failures, note_history, List.countP_append]
      rfl
  · next stored hpersist =>
      obtain ⟨storage, rfl⟩ := eq_of_persist hpersist
      cases hreplace
      refine .inl ⟨rfl, ?_⟩
      have hroom : memory.blocks.length ≤ retainedBlocks host memory.network := by
        rw [horiginal.unpruned.resident, horiginal.unpruned.network_eq]
        exact horiginal.room hbelow
      have hadopted : ({ memory with network := state.network } : ChainMemory) = memory := by
        rw [hnetwork, ← horiginal.unpruned.network_eq]
      rw [pruneHistory_toChainMemory, note_toChainMemory, hadopted]
      exact ChainMemory.pruneHistoryToRetain_of_le hroom

/-- Rolling back the offered blocks and connecting the old ones again either gives the
original memory, or fails at a write and leaves blocks on top of the base. -/
theorem rollbackIncrementalBranchSwitch_cases {journal : IncrementalBranchSwitchJournal}
    {offered : List Block} {base memory : ChainMemory} {result : Except StorageError Unit}
    {next : Chainstate σ}
    (hbelow : ∀ block ∈ pool, block.header.height < effectivePruneDepth host network)
    (hheaders : HeadersDiffer host.crypto network pool)
    (hbase : Stands host network now pool chain base)
    (horiginal : base.extendAll host.crypto now journal.disconnectedSuffixToRestore =
      some memory)
    (hsuffix : ∀ block ∈ journal.disconnectedSuffixToRestore, block ∈ pool)
    (hoffered : base.extendAll host.crypto now offered = some state.toChainMemory)
    (hpool : ∀ block ∈ offered, block ∈ pool) (hcount : journal.connectedCount = offered.length)
    (hrollback : state.rollbackIncrementalBranchSwitch host now journal = (result, next))
    (hquiet : ∀ event ∈ next.history, event.Quiet host.crypto pool) :
    (result = .ok () ∧ next.toChainMemory = memory) ∨
      (∃ err, result = .error err) ∧ next.failures = state.failures + 1 ∧
        ∃ extra, Stands host network now pool (chain ++ extra) next.toChainMemory := by
  have hstate := hbase.append hoffered hpool
  match hdisconnect : state.disconnectBlocks host journal.connectedCount with
  | (.error err, count, back) =>
      simp only [rollbackIncrementalBranchSwitch, hdisconnect] at hrollback
      cases hrollback
      obtain ⟨-, hback, hcases⟩ := disconnectBlocks_cases hbase.unpruned hoffered
        (hstate.nodup hbelow hheaders) hdisconnect (Nat.le_of_eq hcount)
        (fun block _ => not_mem_of_spendsOwnOutput hquiet)
      rcases hcases with ⟨hok, -⟩ | ⟨-, hfailed, -⟩
      · cases hok
      · exact .inr ⟨⟨err, rfl⟩, hfailed, _, hbase.append hback
          fun block hblock => hpool block (List.mem_of_mem_take hblock)⟩
  | (.ok _, count, back) =>
      match hconnect : back.connectBlocks host now journal.disconnectedSuffixToRestore with
      | (connected, restored, final) =>
          simp only [rollbackIncrementalBranchSwitch, hdisconnect, hconnect] at hrollback
          cases hrollback
          have hsubset : back.history ⊆ next.history := by
            have hsteps := (connectBlocks_operates host now back journal.disconnectedSuffixToRestore).steps
            rw [hconnect] at hsteps
            exact hsteps.history_subset
          obtain ⟨-, hback, hcases⟩ := disconnectBlocks_cases hbase.unpruned hoffered
            (hstate.nodup hbelow hheaders) hdisconnect (Nat.le_of_eq hcount)
            (fun block _ => not_mem_of_spendsOwnOutput
              fun event hevent => hquiet event (hsubset hevent))
          rcases hcases with ⟨-, rfl, hsame, -⟩ | ⟨⟨err, herr⟩, -⟩
          · rw [hcount, Nat.sub_self, List.take_zero, ChainMemory.extendAll_nil,
              Option.some.injEq] at hback
            subst hback
            obtain ⟨-, -, hfinal, hcases⟩ := connectBlocks_cases hbase.unpruned hconnect
              (fun event hevent => ⟨(hquiet event hevent).clean,
                fun block hblock => hbelow block ((hquiet event hevent).pooled block hblock)⟩)
            rcases hcases with ⟨hok, rfl, -⟩ | ⟨herr, ⟨-, hinvalid⟩ | hfailed⟩
            · rw [List.take_length, horiginal, Option.some.injEq] at hfinal
              exact .inl ⟨hok, hfinal.symm⟩
            · rw [horiginal] at hinvalid
              cases hinvalid
            · exact .inr ⟨herr, by rw [hfailed, hsame], _, hbase.append hfinal
                fun block hblock => hsuffix block (List.mem_of_mem_take hblock)⟩
          · cases herr

/-- Restoring brings the original memory back if at most `limit` writes have failed
in the end, provided that nothing more may fail or that everything had been
disconnected. -/
theorem restoreOriginalBranchFromJournal_restores {forkHeight : UInt64}
    {suffix offered : List Block} {count limit : Nat} {base memory : ChainMemory}
    {result : Except StorageError Unit} {next : Chainstate σ}
    (hbelow : ∀ block ∈ pool, block.header.height < effectivePruneDepth host network)
    (hheaders : HeadersDiffer host.crypto network pool)
    (horiginal : Stands host network now pool (chain ++ suffix) memory)
    (hfork : forkHeight.toNat = chain.length)
    (hbase : Stands host network now pool (chain ++ suffix.take (suffix.length - count)) base)
    (hoffered : base.extendAll host.crypto now offered = some state.toChainMemory)
    (hpool : ∀ block ∈ offered, block ∈ pool)
    (hstart : state.failures = limit ∨ count = suffix.length ∧ limit ≤ state.failures + 1)
    (hrestore : state.restoreOriginalBranchFromJournal host now
      ⟨forkHeight, suffix, count, offered.length⟩ = (result, next))
    (hquiet : ∀ event ∈ next.history, event.Quiet host.crypto pool)
    (hlimit : next.failures ≤ limit) :
    result = .ok () ∧ next.toChainMemory = memory := by
  have hparts : chain ++ suffix = chain ++ suffix.take (suffix.length - count) ++
      suffix.drop (suffix.length - count) := by
    rw [List.append_assoc, List.take_append_drop]
  have hreconnect : base.extendAll host.crypto now
      (IncrementalBranchSwitchJournal.disconnectedSuffixToRestore
        ⟨forkHeight, suffix, count, offered.length⟩) = some memory := by
    have hsplit := horiginal
    rw [hparts] at hsplit
    obtain ⟨base', hbase', hrest⟩ := hsplit.split
    cases hbase.extends_genesis.symm.trans hbase'.extends_genesis
    exact hrest
  have hsuffix : ∀ block ∈ IncrementalBranchSwitchJournal.disconnectedSuffixToRestore
      ⟨forkHeight, suffix, count, offered.length⟩, block ∈ pool :=
    fun block hblock => horiginal.pooled block
      (List.mem_append_right _ (List.mem_of_mem_drop hblock))
  match hrollback : state.rollbackIncrementalBranchSwitch host now
      ⟨forkHeight, suffix, count, offered.length⟩ with
  | (.ok _, restored) =>
      simp only [restoreOriginalBranchFromJournal, hrollback] at hrestore
      cases hrestore
      rcases rollbackIncrementalBranchSwitch_cases hbelow hheaders hbase hreconnect hsuffix
        hoffered hpool rfl hrollback hquiet with hdone | ⟨⟨err, herr⟩, -⟩
      · exact hdone
      · cases herr
  | (.error rollbackErr, failed) =>
      simp only [restoreOriginalBranchFromJournal, hrollback] at hrestore
      have hsteps := (replaceWithValidatedBranch_operates host now failed forkHeight
        (suffix.drop (suffix.length - count))).steps
      rw [IncrementalBranchSwitchJournal.disconnectedSuffixToRestore] at hrestore
      rw [hrestore] at hsteps
      rcases rollbackIncrementalBranchSwitch_cases hbelow hheaders hbase hreconnect hsuffix
        hoffered hpool rfl hrollback
        (fun event hevent => hquiet event (hsteps.history_subset hevent)) with
        ⟨hok, -⟩ | ⟨-, hfailed, extra, hextra⟩
      · cases hok
      · have hmonotone : failed.failures ≤ next.failures := by
          obtain ⟨events, hevents⟩ := hsteps.history_append
          rw [failures, failures, hevents, List.countP_append]
          exact Nat.le_add_right _ _
        obtain ⟨hall, hstart⟩ : count = suffix.length ∧ limit ≤ state.failures + 1 := by
          rcases hstart with hfull | hall
          · omega
          · exact hall
        rw [hall, Nat.sub_self, List.take_zero, List.append_nil] at hextra
        rw [hall, Nat.sub_self, List.drop_zero] at hrestore
        rcases replaceWithValidatedBranch_cases hbelow hextra horiginal hfork hrestore with
          hdone | hagain
        · exact hdone
        · omega

theorem failSwitch_eq {journal : IncrementalBranchSwitchJournal} {err : StorageError}
    {result : Except StorageError Unit} {next : Chainstate σ}
    (hfail : state.failSwitch host now journal err = (result, next)) :
    ∃ restored, state.restoreOriginalBranchFromJournal host now journal = (restored, next) := by
  unfold failSwitch at hfail
  split at hfail
  · next final hrestore =>
      cases hfail
      exact ⟨_, hrestore⟩
  · next rollbackErr final hrestore =>
      cases hfail
      exact ⟨_, hrestore⟩

theorem switchBranchIncrementally_error {forkHeight : UInt64} {suffix branch : List Block}
    {err : StorageError} {next : Chainstate σ}
    (hbelow : ∀ block ∈ pool, block.header.height < effectivePruneDepth host network)
    (hheaders : HeadersDiffer host.crypto network pool)
    (horiginal : Stands host network now pool (chain ++ suffix) state.toChainMemory)
    (hfork : forkHeight.toNat = chain.length)
    (hswitch : state.switchBranchIncrementally host now forkHeight suffix branch =
      (.error err, next))
    (hquiet : ∀ event ∈ next.history, event.Quiet host.crypto pool)
    (hsingle : next.failures ≤ state.failures + 1) :
    next.toChainMemory = state.toChainMemory := by
  obtain ⟨base, hbase, hsuffix⟩ := horiginal.split
  match hdisconnect : state.disconnectBlocks host suffix.length with
  | (.error failure, count, back) =>
      simp only [switchBranchIncrementally, hdisconnect] at hswitch
      have hsteps := (failSwitch_operates host now back ⟨forkHeight, suffix, count, 0⟩ failure).steps
      rw [hswitch] at hsteps
      obtain ⟨-, hback, hcases⟩ := disconnectBlocks_cases hbase.unpruned hsuffix
        (horiginal.nodup hbelow hheaders) hdisconnect (Nat.le_refl _)
        (fun block _ => not_mem_of_spendsOwnOutput
          fun event hevent => hquiet event (hsteps.history_subset hevent))
      rcases hcases with ⟨hok, -⟩ | ⟨-, hfailed, -⟩
      · cases hok
      · obtain ⟨restored, hrestore⟩ := failSwitch_eq hswitch
        have hkept := hbase.append hback fun block hblock =>
          horiginal.pooled block (List.mem_append_right _ (List.mem_of_mem_take hblock))
        have hnothing : back.extendAll host.crypto now [] = some back.toChainMemory := rfl
        exact (restoreOriginalBranchFromJournal_restores hbelow hheaders horiginal hfork hkept
          hnothing (by simp) (.inl hfailed) hrestore hquiet hsingle).2
  | (.ok _, count, back) =>
      match hconnect : back.connectBlocks host now branch with
      | (.ok _, connected, final) =>
          simp [switchBranchIncrementally, hdisconnect, hconnect] at hswitch
      | (.error failure, connected, failed) =>
          simp only [switchBranchIncrementally, hdisconnect, hconnect] at hswitch
          have hlater := (failSwitch_operates host now failed
            ⟨forkHeight, suffix, count, connected⟩ failure).steps
          rw [hswitch] at hlater
          have hsteps := (connectBlocks_operates host now back branch).steps
          rw [hconnect] at hsteps
          have hfailedQuiet : ∀ event ∈ failed.history, event.Quiet host.crypto pool :=
            fun event hevent => hquiet event (hlater.history_subset hevent)
          obtain ⟨-, hback, hcases⟩ := disconnectBlocks_cases hbase.unpruned hsuffix
            (horiginal.nodup hbelow hheaders) hdisconnect (Nat.le_refl _)
            (fun block _ => not_mem_of_spendsOwnOutput
              fun event hevent => hfailedQuiet event (hsteps.history_subset hevent))
          rcases hcases with ⟨-, rfl, hsame, -⟩ | ⟨⟨err, herr⟩, -⟩
          · rw [Nat.sub_self, List.take_zero, ChainMemory.extendAll_nil,
              Option.some.injEq] at hback
            subst hback
            obtain ⟨hcount, hmem, hoffered, hcases⟩ := connectBlocks_cases hbase.unpruned hconnect
              (fun event hevent => ⟨(hfailedQuiet event hevent).clean, fun block hblock =>
                hbelow block ((hfailedQuiet event hevent).pooled block hblock)⟩)
            have hfailures : state.failures ≤ failed.failures := by
              rcases hcases with ⟨hok, -⟩ | ⟨-, ⟨hequal, -⟩ | hequal⟩
              · cases hok
              · omega
              · omega
            obtain ⟨restored, hrestore⟩ := failSwitch_eq hswitch
            have hlength : (branch.take connected).length = connected := by
              rw [List.length_take]
              omega
            rw [← hlength] at hrestore
            exact (restoreOriginalBranchFromJournal_restores hbelow hheaders horiginal hfork
              (by simpa using hbase) hoffered
              (fun block hblock => (hfailedQuiet _ (hmem block hblock)).pooled block
                (List.mem_singleton_self block))
              (.inr ⟨rfl, by omega⟩) hrestore hquiet hsingle).2
          · cases herr

theorem extendWithValidatedBranch_error {branch : List Block} {err : StorageError}
    {next : Chainstate σ}
    (hbelow : ∀ block ∈ pool, block.header.height < effectivePruneDepth host network)
    (hheaders : HeadersDiffer host.crypto network pool)
    (hstands : Stands host network now pool chain state.toChainMemory)
    (hextend : state.extendWithValidatedBranch host now branch = (.error err, next))
    (hquiet : ∀ event ∈ next.history, event.Quiet host.crypto pool)
    (hreinstated : ∀ block, .reinstated block ∉ next.history.drop state.history.length) :
    next.toChainMemory = state.toChainMemory := by
  match hconnect : state.connectBlocks host now branch with
  | (.ok _, connected, final) => simp [extendWithValidatedBranch, hconnect] at hextend
  | (.error failure, connected, failed) =>
      have hlater := (disconnectBlocks_operates host now failed connected).steps
      have hsteps := (connectBlocks_operates host now state branch).steps
      rw [hconnect] at hsteps
      match hdisconnect : failed.disconnectBlocks host connected with
      | (result, count, back) =>
          rw [hdisconnect] at hlater
          have hnext : back = next := by
            simp only [extendWithValidatedBranch, hconnect, hdisconnect] at hextend
            cases result with
            | error rollbackErr =>
                cases hextend
                rfl
            | ok _ =>
                cases hextend
                rfl
          subst hnext
          have hfailedQuiet : ∀ event ∈ failed.history, event.Quiet host.crypto pool :=
            fun event hevent => hquiet event (hlater.history_subset hevent)
          obtain ⟨hcount, hmem, hoffered, -⟩ := connectBlocks_cases hstands.unpruned hconnect
            (fun event hevent => ⟨(hfailedQuiet event hevent).clean, fun block hblock =>
              hbelow block ((hfailedQuiet event hevent).pooled block hblock)⟩)
          have hfull := hstands.append hoffered fun block hblock =>
            (hfailedQuiet _ (hmem block hblock)).pooled block (List.mem_singleton_self block)
          obtain ⟨-, hback, hcases⟩ := disconnectBlocks_cases hstands.unpruned hoffered
            (hfull.nodup hbelow hheaders) hdisconnect (by rw [List.length_take]; omega)
            (fun block _ => not_mem_of_spendsOwnOutput hquiet)
          rcases hcases with ⟨-, rfl, -⟩ | ⟨-, -, -, events, block, hevents, hblock⟩
          · rw [List.length_take, Nat.min_eq_left hcount, Nat.sub_self, List.take_zero,
              ChainMemory.extendAll_nil, Option.some.injEq] at hback
            exact hback.symm
          · obtain ⟨earlier, hearlier⟩ := hsteps.history_append
            refine absurd ?_ (hreinstated block)
            rw [hevents, hearlier, List.append_assoc, List.drop_left]
            exact List.mem_append_right _ hblock

theorem replaceWithValidatedBranch_error {forkHeight : UInt64} {branch : List Block}
    {err : StorageError} {next : Chainstate σ}
    (hreplace : state.replaceWithValidatedBranch host now forkHeight branch =
      (.error err, next)) : next.toChainMemory = state.toChainMemory := by
  unfold replaceWithValidatedBranch at hreplace
  split at hreplace
  · cases hreplace
    rfl
  · dsimp only at hreplace
    split at hreplace
    · cases hreplace
      rfl
    · split at hreplace
      · next failure failed hpersist =>
          obtain ⟨storage, rfl⟩ := eq_of_persist hpersist
          cases hreplace
          rfl
      · cases hreplace

theorem reportSelection_error {outcome : ChainSelectionOutcome} {disconnected : List Block}
    {err : StorageError} {next : Chainstate σ}
    {result : Except StorageError Unit × Chainstate σ}
    (hreport : reportSelection outcome disconnected result = (.error err, next)) :
    result = (.error err, next) := by
  match result with
  | (.error failure, final) =>
      cases hreport
      rfl
  | (.ok _, final) => cases hreport

theorem planBranch_disconnected {branch : List Block} {depth : UInt64} {plan : BranchPlan}
    (hunpruned : Unpruned host.crypto network chain state.toChainMemory)
    (hlength : chain.length < 2 ^ 64)
    (hplan : state.planBranch host branch depth = .ok plan) :
    plan.disconnected = chain.drop plan.forkHeight.toNat := by
  match branch with
  | [] => cases hplan
  | first :: rest =>
      simp only [planBranch, canonicalBranchAfter_eq hunpruned hlength, bind_eq_ok] at hplan
      obtain ⟨-, -, forkHeight, -, -, -, disconnected, hdisconnected, hplan⟩ := hplan
      cases hdisconnected
      split at hplan
      · cases hplan
      · cases hplan
        rfl

end

/-- The blocks that a history has put on the chain at one time or another. -/
def blocksOf (history : List ChainEvent) : Set Block :=
  {block | ∃ event ∈ history, block ∈ event.blocks}

/-- A failed selection is invisible, in any state reached from genesis by calls that
read no later clock, when the steps are clean and below the prune depth, at most one
write of the call fails, and none does while an extension is taken back. -/
theorem selectBranch_error_restores (host : Host σ) (network : Network) (storage : Option σ)
    (calls : List (UInt64 × Call)) (now : UInt64) (branch : List Block)
    (before after : Chainstate σ) (err : StorageError)
    (hbefore : before = (freshWithStorage host network storage).run host calls)
    (hclocks : ∀ timed ∈ calls, timed.1 ≤ now)
    (hselect : before.selectBranch host now branch = (.error err, after))
    (hclean : ∀ event ∈ after.history, event.clean host.crypto = true)
    (hbelow : ∀ block ∈ blocksOf after.history,
      block.header.height < effectivePruneDepth host network)
    (hheaders : HeadersDiffer host.crypto network (blocksOf after.history))
    (hsingle : after.failures ≤ before.failures + 1)
    (hextension : ∀ plan, before.planBranch host branch (before.maxReorgDepth host) = .ok plan →
      plan.disconnected = [] →
      ∀ block, .reinstated block ∉ after.history.drop before.history.length) :
    after.toChainMemory = before.toChainMemory := by
  have hquiet : ∀ event ∈ after.history, event.Quiet host.crypto (blocksOf after.history) :=
    fun event hevent => ⟨hclean event hevent, fun block hblock => ⟨event, hevent, hblock⟩⟩
  have hsteps := (selectBranchWithMaxReorgDepth_operates host now before branch
    (before.maxReorgDepth host)).steps
  rw [← selectBranch, hselect] at hsteps
  have hstands : before.StandsOnHistory host network now (blocksOf after.history) := by
    have hruns : Runs host {clock | clock ≤ now} (freshWithStorage host network storage)
        ((freshWithStorage host network storage).run host calls) := run_runs host _ hclocks
    rw [hbefore]
    refine hruns.invariant
      (fun event => event.Quiet host.crypto (blocksOf after.history))
      (fun state => state.StandsOnHistory host network now (blocksOf after.history))
      (standsOnHistory_fresh host network now _ storage) ?_ ?_
    · intro clock state next event hclock hstep hevent hquiet hstate
      exact hstate.step hbelow hheaders hclock hstep hevent hquiet.clean hquiet.pooled
    · intro event hevent
      rw [← hbefore] at hevent
      exact hquiet event (hsteps.history_subset hevent)
  unfold selectBranch selectBranchWithMaxReorgDepth at hselect
  split at hselect
  · cases hselect
    rfl
  · next plan hplan =>
      split_ifs at hselect with hnone hkept hwhole
      · exact extendWithValidatedBranch_error hbelow hheaders hstands
          (reportSelection_error hselect) hquiet (hextension plan hplan hnone)
      · cases hselect
      · exact replaceWithValidatedBranch_error (reportSelection_error hselect)
      · have hlength := hstands.length_lt hbelow
        have hdisconnected : plan.disconnected =
            (canonicalChain [] before.history).drop plan.forkHeight.toNat :=
          planBranch_disconnected hstands.unpruned (by omega) hplan
        have hfork : plan.forkHeight.toNat ≤ (canonicalChain [] before.history).length := by
          rw [hdisconnected, List.drop_eq_nil_iff] at hnone
          omega
        have horiginal := hstands
        rw [StandsOnHistory,
          ← List.take_append_drop plan.forkHeight.toNat (canonicalChain [] before.history),
          ← hdisconnected] at horiginal
        exact switchBranchIncrementally_error hbelow hheaders horiginal
          (by rw [List.length_take]; omega) (reportSelection_error hselect) hquiet hsingle

/-- A block in the place of the successor of `parent` that is not a valid one. -/
def unfitBlock (parent : Block) : Block :=
  { parent with
    header :=
      { parent.header with
        height := parent.header.height + 1
        previousBlockHash := parent.header.blockHash .hashing } }

/-- A host whose database refuses its second write only. -/
def onceFailingHost : Host Nat where
  loadBlock _ _ := .ok none
  loadBlockRecordHeight _ _ := .ok none
  loadBlockHashByHeight _ _ := .ok none
  loadTransaction _ _ := .ok none
  commitChainstate writes _ _ _ :=
    (if writes = 1 then .error .lmdb else .ok (), writes + 1)
  replaceChainstate writes _ _ _ := (.ok (), writes + 1)
  pruneArchivedBlocks writes _ _ := writes
  crypto := .hashing
  prunetestPruneDepth := none
  prunetestMaxReorgDepth := none

/-- The first block of a failed extension stays when the write that takes it back
fails. -/
theorem selectBranch_error_keeps_block :
    let before := freshWithStorage onceFailingHost .regnet (some 0)
    let result := before.selectBranch onceFailingHost exampleClock
      [firstBlock, unfitBlock firstBlock]
    (match result.1 with
      | .ok _ => none
      | .error err => some err) = some .lmdb ∧
      result.2.failures = 1 ∧ before.height = 0 ∧ result.2.height = 1 := by
  decide +kernel

/-- A mined block on the regnet genesis, other than `firstBlock`. -/
def rivalBlock : Block :=
  let coinbase := { UtxoSet.relayPayment [] 5000000000 with
    outputs := [⟨5000000000, List.replicate 32 1⟩] }
  { header :=
      { (genesisBlock .hashing .regnet).header with
        height := 1
        previousBlockHash := genesisHash .hashing .regnet
        merkleRoot := coinbase.txid .hashing
        witnessRoot := coinbase.txid .hashing
        timestamp := 1773360589
        nonce := 25838 }
    transactions := [coinbase] }

def rivalCalls : List (UInt64 × Call) :=
  [(exampleClock, .connectBlock firstBlock)]

/-- The state once `firstBlock` is connected. -/
def rivalState : Chainstate Unit :=
  (freshWithStorage exampleHost .regnet none).run exampleHost rivalCalls

/-- The steps of offering a heavier branch whose second block is invalid. -/
def rivalHistory : List ChainEvent :=
  [.connected firstBlock, .disconnected firstBlock, .connected rivalBlock,
    .disconnected rivalBlock, .connected firstBlock]

theorem selectBranch_rival_restores :
    ∃ err after, rivalState.selectBranch exampleHost exampleClock
        [rivalBlock, unfitBlock rivalBlock] = (.error err, after) ∧
      after.toChainMemory = rivalState.toChainMemory := by
  have hhistory : (rivalState.selectBranch exampleHost exampleClock
      [rivalBlock, unfitBlock rivalBlock]).2.history = rivalHistory ∧
      (rivalState.selectBranch exampleHost exampleClock
        [rivalBlock, unfitBlock rivalBlock]).1.isOk = false := by
    decide +kernel
  have hevents : ∀ event ∈ rivalHistory, event.clean exampleHost.crypto = true ∧
      event.failed = false ∧ ∀ block ∈ event.blocks,
        block = firstBlock ∨ block = rivalBlock := by
    decide +kernel
  have hdigests : ([(genesisBlock exampleHost.crypto .regnet).header.canonicalBytes,
      firstBlock.header.canonicalBytes, rivalBlock.header.canonicalBytes].map
        exampleHost.crypto.sha3_384).Nodup := by
    decide +kernel
  generalize hselect : rivalState.selectBranch exampleHost exampleClock
    [rivalBlock, unfitBlock rivalBlock] = outcome at hhistory ⊢
  obtain ⟨_ | err, after⟩ := outcome
  · obtain ⟨hhistory, -⟩ := hhistory
    simp only at hhistory
    rw [← hhistory] at hevents
    have hpool : ∀ block ∈ blocksOf after.history, block = firstBlock ∨ block = rivalBlock := by
      rintro block ⟨event, hevent, hblock⟩
      exact (hevents event hevent).2.2 block hblock
    refine ⟨_, after, rfl, selectBranch_error_restores exampleHost .regnet none rivalCalls
      exampleClock _ rivalState after _ rfl ?_ hselect ?_ ?_ ?_ ?_ ?_⟩
    · intro timed htimed
      rw [List.mem_singleton.mp htimed]
      exact UInt64.le_refl _
    · exact fun event hevent => (hevents event hevent).1
    · intro block hblock
      rcases hpool block hblock with rfl | rfl <;> decide +kernel
    · intro left hleft right hright hequal
      refine List.inj_on_of_nodup_map hdigests ?_ ?_ hequal
      · rcases hleft with rfl | ⟨block, hblock, rfl⟩
        · simp
        · rcases hpool block hblock with rfl | rfl <;> simp
      · rcases hright with rfl | ⟨block, hblock, rfl⟩
        · simp
        · rcases hpool block hblock with rfl | rfl <;> simp
    · have hnone : after.failures = 0 := by
        rw [failures, List.countP_eq_zero]
        intro event hevent
        simp [(hevents event hevent).2.1]
      omega
    · intro plan _ _ block hblock
      cases (hevents _ (List.mem_of_mem_drop hblock)).2.1
  · cases hhistory.2

end Chainstate

end Atho
