import Atho.Storage.Recall

/-! The memory as a function of the chain, as long as nothing is pruned. Taking a
block back then gives the memory there was before it. -/

namespace Atho

theorem ChainMemory.validateNext_mono {crypto : Crypto} {memory : ChainMemory} {block : Block}
    {now later : UInt64} (hle : now ≤ later)
    (hvalid : memory.validateNext crypto now block = .ok ()) :
    memory.validateNext crypto later block = .ok () := by
  have hdrift : now.saturatingAdd maxFutureBlockTimestampDriftSecs ≤
      later.saturatingAdd maxFutureBlockTimestampDriftSecs := by
    rw [UInt64.le_iff_toNat_le] at hle ⊢
    rw [UInt64.toNat_saturatingAdd, UInt64.toNat_saturatingAdd]
    omega
  simp only [validateNext, validateBlockWithContext_ok_iff, validateBlockOverlay,
    validateContextualHeaderPrecheck, bind_eq_ok, rejectWhen_eq_ok, decide_eq_false_iff_not,
    UInt64.not_lt] at hvalid ⊢
  obtain ⟨overlay, _, hstatic, _, ⟨_, hprevious, _, hminimum, _, hclock, hrest⟩, hbody⟩ := hvalid
  exact ⟨overlay, (), hstatic, (),
    ⟨(), hprevious, (), hminimum, (), UInt64.le_trans hclock hdrift, hrest⟩, hbody⟩

namespace ChainMemory

/-- The memory with one more block, if the block is valid and can be applied. -/
def extend (crypto : Crypto) (now : UInt64) (memory : ChainMemory) (block : Block) :
    Option ChainMemory :=
  match memory.validateNext crypto now block with
  | .error _ => none
  | .ok _ =>
      match memory.utxos.applyBlock crypto block with
      | (.error _, _) => none
      | (.ok undo, utxos) => some (memory.pushBlock crypto block undo utxos)

def extendAll (crypto : Crypto) (now : UInt64) (memory : ChainMemory) (blocks : List Block) :
    Option ChainMemory :=
  blocks.foldlM (extend crypto now) memory

theorem extend_eq_some {crypto : Crypto} {now : UInt64} {memory next : ChainMemory}
    {block : Block} :
    memory.extend crypto now block = some next ↔
      ∃ undo utxos, memory.validateNext crypto now block = .ok () ∧
        memory.utxos.applyBlock crypto block = (.ok undo, utxos) ∧
        next = memory.pushBlock crypto block undo utxos := by
  unfold extend
  constructor
  · intro hextend
    split at hextend
    · cases hextend
    · next hvalid =>
        split at hextend
        · cases hextend
        · next undo utxos happly =>
            cases hextend
            exact ⟨undo, utxos, hvalid, happly, rfl⟩
  · rintro ⟨undo, utxos, hvalid, happly, rfl⟩
    simp only [hvalid, happly]

section

variable {crypto : Crypto} {now : UInt64} {memory final : ChainMemory}

@[simp] theorem extendAll_nil : memory.extendAll crypto now [] = some memory :=
  rfl

theorem extendAll_append {left right : List Block} :
    memory.extendAll crypto now (left ++ right) = some final ↔
      ∃ middle, memory.extendAll crypto now left = some middle ∧
        middle.extendAll crypto now right = some final := by
  rw [extendAll, List.foldlM_append]
  exact Option.bind_eq_some_iff

theorem extendAll_cons {block : Block} {rest : List Block} :
    memory.extendAll crypto now (block :: rest) = some final ↔
      ∃ next, memory.extend crypto now block = some next ∧
        next.extendAll crypto now rest = some final :=
  Option.bind_eq_some_iff

theorem extendAll_concat {blocks : List Block} {block : Block} :
    memory.extendAll crypto now (blocks ++ [block]) = some final ↔
      ∃ before, memory.extendAll crypto now blocks = some before ∧
        before.extend crypto now block = some final := by
  simp [extendAll_append, extendAll_cons]

end

end ChainMemory

/-! The index. -/

section Index

variable {crypto : Crypto} {blocks : List Block} {block : Block}

def blockHashes (crypto : Crypto) (blocks : List Block) : List (Bytes 48) :=
  blocks.map fun block => block.header.blockHash crypto

theorem buildBlockIndexByHash_concat (crypto : Crypto) (blocks : List Block) (block : Block) :
    buildBlockIndexByHash crypto (blocks ++ [block]) =
      (buildBlockIndexByHash crypto blocks).insert (block.header.blockHash crypto)
        blocks.length := by
  simp [buildBlockIndexByHash, List.zipIdx_append]

theorem lookup_buildBlockIndexByHash_eq_none {key : Bytes 48}
    (hfresh : key ∉ blockHashes crypto blocks) :
    (buildBlockIndexByHash crypto blocks).lookup key = none := by
  induction blocks using List.reverseRecOn with
  | nil => rfl
  | append_singleton blocks last ih =>
      simp only [blockHashes, List.map_append, List.mem_append, not_or, List.map_singleton,
        List.mem_singleton] at hfresh
      rw [buildBlockIndexByHash_concat, Finmap.lookup_insert_of_ne _ hfresh.2]
      exact ih hfresh.1

theorem lookup_buildBlockIndexByHash (hnodup : (blockHashes crypto blocks).Nodup)
    (hget : blocks[index]? = some block) :
    (buildBlockIndexByHash crypto blocks).lookup (block.header.blockHash crypto) =
      some index := by
  induction blocks using List.reverseRecOn with
  | nil => simp at hget
  | append_singleton blocks last ih =>
      rw [blockHashes, List.map_append, List.map_singleton, List.nodup_append] at hnodup
      obtain ⟨hblocks, -, hdisjoint⟩ := hnodup
      rw [buildBlockIndexByHash_concat]
      rcases Nat.lt_trichotomy index blocks.length with hlt | rfl | hgt
      · rw [List.getElem?_append_left hlt] at hget
        have hne := hdisjoint _ (List.mem_map_of_mem (List.mem_of_getElem? hget)) _
          (List.mem_singleton_self _)
        rw [Finmap.lookup_insert_of_ne _ hne]
        exact ih hblocks hget
      · rw [List.getElem?_concat_length] at hget
        cases hget
        exact Finmap.lookup_insert _
      · rw [List.getElem?_eq_none (by simp; omega)] at hget
        cases hget

/-- Blocks at different heights have different headers, and so different hashes as
long as no two of the headers collide. -/
theorem blockHashes_nodup (hnumbered : Numbered blocks) (hlength : blocks.length ≤ 2 ^ 64)
    (hhash : Set.InjOn crypto.sha3_384 {bytes | ∃ block ∈ blocks,
      bytes = block.header.canonicalBytes}) : (blockHashes crypto blocks).Nodup := by
  rw [blockHashes, List.nodup_iff_getElem?_ne_getElem?]
  intro left right hlt hright heq
  rw [List.length_map] at hright
  rw [List.getElem?_map, List.getElem?_map, List.getElem?_eq_getElem (hlt.trans hright),
    List.getElem?_eq_getElem hright, Option.map_some, Option.map_some] at heq
  have hbytes := hhash ⟨blocks[left], List.getElem_mem _, rfl⟩
    ⟨blocks[right], List.getElem_mem _, rfl⟩ (Option.some.inj heq)
  have hheader := BlockHeader.canonicalBytes_injective hbytes
  have hleft := hnumbered left _ (List.getElem?_eq_getElem (hlt.trans hright))
  have hright' := hnumbered right _ (List.getElem?_eq_getElem hright)
  rw [hheader, hright'] at hleft
  omega

end Index

/-- The memory holds the chain and nothing of it has been pruned. -/
structure Unpruned (crypto : Crypto) (network : Network) (chain : List Block)
    (memory : ChainMemory) : Prop
    extends Recalls crypto (genesisBlock crypto network :: chain) memory where
  network_eq : memory.network = network
  resident : memory.blocks = genesisBlock crypto network :: chain
  index : memory.blockIndexByHash = buildBlockIndexByHash crypto memory.blocks
  undoStack_length : memory.undoStack.length = chain.length

namespace Unpruned

variable {crypto : Crypto} {network : Network} {chain : List Block} {memory : ChainMemory}
  {now : UInt64}

theorem genesis (crypto : Crypto) (network : Network) :
    Unpruned crypto network [] (.genesis crypto network) :=
  ⟨.genesis crypto network, rfl, rfl, rfl, rfl⟩

theorem extend {next : ChainMemory} {block : Block}
    (hunpruned : Unpruned crypto network chain memory)
    (hextend : memory.extend crypto now block = some next) :
    Unpruned crypto network (chain ++ [block]) next := by
  obtain ⟨undo, utxos, hvalid, -, rfl⟩ := ChainMemory.extend_eq_some.mp hextend
  refine ⟨hunpruned.push hvalid, hunpruned.network_eq, ?_, ?_, ?_⟩
  · simp [ChainMemory.pushBlock, hunpruned.resident]
  · simp only [ChainMemory.pushBlock, hunpruned.index, buildBlockIndexByHash_concat]
  · simp [ChainMemory.pushBlock, hunpruned.undoStack_length]

theorem extendAll {final : ChainMemory} {blocks : List Block}
    (hunpruned : Unpruned crypto network chain memory)
    (hextend : memory.extendAll crypto now blocks = some final) :
    Unpruned crypto network (chain ++ blocks) final := by
  induction blocks generalizing chain memory with
  | nil =>
      cases hextend
      rwa [List.append_nil]
  | cons block rest ih =>
      obtain ⟨next, hfirst, hrest⟩ := ChainMemory.extendAll_cons.mp hextend
      have hfinal := ih (hunpruned.extend hfirst) hrest
      rwa [List.append_assoc, List.singleton_append] at hfinal

theorem of_extendAll
    (hextend : (ChainMemory.genesis crypto network).extendAll crypto now chain = some memory) :
    Unpruned crypto network chain memory :=
  (genesis crypto network).extendAll hextend

theorem height_toNat (hunpruned : Unpruned crypto network chain memory) :
    memory.height.toNat = min chain.length (2 ^ 64 - 1) := by
  obtain ⟨last, hlast, -, -, hheight⟩ := hunpruned.tip
  rw [hheight, hunpruned.numbered.getLast? hlast, List.length_cons, Nat.add_sub_cancel]

theorem getLast? (hunpruned : Unpruned crypto network chain memory) (hchain : chain ≠ []) :
    ∃ last, chain.getLast? = some last ∧ memory.tip = some last.header ∧
      memory.tipHash = last.header.blockHash crypto ∧ memory.height = last.header.height := by
  obtain ⟨last, hlast, htip⟩ := hunpruned.tip
  rw [List.getLast?_cons_of_ne_nil hchain] at hlast
  exact ⟨last, hlast, htip⟩

theorem room {host : Host σ} {block : Block}
    (hunpruned : Unpruned crypto network chain memory)
    (hvalid : memory.validateNext crypto now block = .ok ())
    (hbelow : block.header.height < effectivePruneDepth host network) :
    memory.blocks.length < retainedBlocks host network := by
  obtain ⟨accepted⟩ := ChainMemory.validateNext_ok hvalid
  have hheight := congrArg UInt64.toNat accepted.height
  rw [UInt64.toNat_saturatingAdd, hunpruned.height_toNat, UInt64.toNat_one] at hheight
  have hdepth := (effectivePruneDepth host network).toNat_lt
  rw [UInt64.lt_iff_toNat_lt] at hbelow
  rw [hunpruned.resident, List.length_cons, retainedBlocks, UInt64.toNat_saturatingAdd,
    UInt64.toNat_one]
  omega

theorem popBlock_pushBlock {block : Block} {undo : BlockUndo} {utxos : UtxoSet}
    (hunpruned : Unpruned crypto network chain memory)
    (happly : memory.utxos.applyBlock crypto block = (.ok undo, utxos))
    (hown : UtxoSet.spendsOwnOutput crypto block = false)
    (hfresh : block.header.blockHash crypto ∉ blockHashes crypto memory.blocks) :
    (memory.pushBlock crypto block undo utxos).popBlock crypto
      ⟨memory.tip, memory.tipHash, undo⟩ block = memory := by
  obtain ⟨last, -, htip, -, hheight⟩ := hunpruned.tip
  have hrestored := UtxoSet.disconnectBlock_applyBlock happly hown
  have hindex : (memory.blockIndexByHash.insert (block.header.blockHash crypto)
      memory.blocks.length).erase (block.header.blockHash crypto) =
        memory.blockIndexByHash := by
    have hnone := lookup_buildBlockIndexByHash_eq_none hfresh
    rw [← hunpruned.index] at hnone
    apply Finmap.ext_lookup
    intro key
    by_cases hkey : key = block.header.blockHash crypto
    · rw [hkey, Finmap.lookup_erase, hnone]
    · rw [Finmap.lookup_erase_ne hkey, Finmap.lookup_insert_of_ne _ hkey]
  simp only [ChainMemory.popBlock, ChainMemory.pushBlock, List.dropLast_concat, hrestored,
    hindex, htip, Option.map_some, Option.getD_some, ← hheight]
  rw [← htip]

end Unpruned

/-! Connecting and disconnecting, when nothing is pruned. -/

/-- A write to the database has failed. -/
def ChainEvent.failed : ChainEvent → Bool
  | .withdrawn _ | .reinstated _ | .replaceFailed => true
  | .connected _ | .clashed _ | .disconnected _ | .replaced _ => false

/-- The blocks that a step has put on the chain. -/
def ChainEvent.blocks : ChainEvent → List Block
  | .connected block => [block]
  | .replaced blocks => blocks
  | .withdrawn _ | .clashed _ | .disconnected _ | .reinstated _ | .replaceFailed => []

/-- The step is clean and stays below the prune depth. -/
structure ChainEvent.Admissible (host : Host σ) (network : Network) (event : ChainEvent) :
    Prop where
  clean : event.clean host.crypto = true
  below : ∀ block ∈ event.blocks, block.header.height < effectivePruneDepth host network

namespace Chainstate

def failures (state : Chainstate σ) : Nat :=
  state.history.countP ChainEvent.failed

section Connecting

variable {host : Host σ} {now : UInt64} {state next : Chainstate σ} {block : Block}

theorem pruneHistoryToRetain_extend {memory : ChainMemory} {retain : Nat}
    (hextend : state.extend host.crypto now block = some memory)
    (hroom : state.blocks.length < retain) :
    memory.pruneHistoryToRetain host.crypto retain = memory := by
  obtain ⟨undo, utxos, -, -, rfl⟩ := ChainMemory.extend_eq_some.mp hextend
  refine ChainMemory.pruneHistoryToRetain_of_le ?_
  rw [ChainMemory.pushBlock, List.length_append]
  exact hroom

theorem pruneHistory_of_storage_eq_none (hstorage : state.storage = none) :
    state.pruneHistory host =
      ⟨state.pruneHistoryToRetain host.crypto (retainedBlocks host state.network), none,
        state.history⟩ := by
  simp only [pruneHistory, hstorage, Option.map_none, ite_self]
  rfl

theorem connectBlock_of_extend {memory : ChainMemory}
    (hextend : state.extend host.crypto now block = some memory)
    (hstorage : state.storage = none)
    (hroom : state.blocks.length < retainedBlocks host state.network) :
    state.connectBlock host now block =
      (.ok (), ⟨memory, none, state.history ++ [.connected block]⟩) := by
  obtain ⟨undo, utxos, hvalid, happly, rfl⟩ := ChainMemory.extend_eq_some.mp hextend
  have hkept := pruneHistoryToRetain_extend hextend hroom
  simp only [connectBlock, hvalid, happly, persist, hstorage]
  rw [pruneHistory_of_storage_eq_none rfl]
  exact congrArg (fun memory =>
    ((.ok (), ⟨memory, none, state.history ++ [.connected block]⟩) :
      Except StorageError Unit × Chainstate σ)) hkept

theorem connectBlock_cases {result : Except StorageError Unit}
    (hconnect : state.connectBlock host now block = (result, next))
    (hclean : ∀ event ∈ next.history, event.clean host.crypto = true)
    (hroom : state.validateNext host.crypto now block = .ok () →
      .connected block ∈ next.history →
      state.blocks.length < retainedBlocks host state.network) :
    (result = .ok () ∧ state.extend host.crypto now block = some next.toChainMemory ∧
      next.history = state.history ++ [.connected block]) ∨
    ((∃ err, result = .error err) ∧ next.toChainMemory = state.toChainMemory ∧
      (next.history = state.history ∧ state.extend host.crypto now block = none ∨
        next.history = state.history ++ [.withdrawn block])) := by
  unfold connectBlock at hconnect
  split at hconnect
  · next err hinvalid =>
      cases hconnect
      exact .inr ⟨⟨_, rfl⟩, rfl, .inl ⟨rfl, by simp [ChainMemory.extend, hinvalid]⟩⟩
  · next hvalid =>
      split at hconnect
      · next err utxos happly =>
          cases hconnect
          cases hclean (.clashed block) (by simp)
      · next undo utxos happly =>
          dsimp only at hconnect
          split at hconnect
          · next err failed hpersist =>
              obtain ⟨storage, rfl⟩ := eq_of_persist hpersist
              cases hconnect
              have hown := hclean (.withdrawn block) (by simp)
              rw [UtxoSet.disconnectBlock_applyBlock happly
                (by simpa [ChainEvent.clean] using hown)]
              exact .inr ⟨⟨_, rfl⟩, rfl, .inr rfl⟩
          · next stored hpersist =>
              obtain ⟨storage, rfl⟩ := eq_of_persist hpersist
              cases hconnect
              have hextend : state.extend host.crypto now block =
                  some (state.pushBlock host.crypto block undo utxos) :=
                ChainMemory.extend_eq_some.mpr ⟨undo, utxos, hvalid, happly, rfl⟩
              refine .inl ⟨rfl, ?_, rfl⟩
              rw [hextend]
              exact congrArg some
                (pruneHistoryToRetain_extend hextend (hroom hvalid (by simp))).symm

theorem disconnectLastBlock_cases {result : Except StorageError Unit} {before : ChainMemory}
    {network : Network} {chain : List Block}
    (hunpruned : Unpruned host.crypto network chain before)
    (hextend : before.extend host.crypto now block = some state.toChainMemory)
    (hfresh : block.header.blockHash host.crypto ∉ blockHashes host.crypto before.blocks)
    (hdisconnect : state.disconnectLastBlock host = (result, next))
    (hclean : UtxoSet.spendsOwnOutput host.crypto block = true →
      .disconnected block ∉ next.history ∧ .reinstated block ∉ next.history) :
    (result = .ok () ∧ next.toChainMemory = before ∧
      next.history = state.history ++ [.disconnected block] ∧
      (state.storage = none → next.storage = none)) ∨
    ((∃ err, result = .error err) ∧ next.toChainMemory = state.toChainMemory ∧
      next.history = state.history ++ [.reinstated block] ∧ state.storage ≠ none) := by
  obtain ⟨undo, utxos, -, happly, hpushed⟩ := ChainMemory.extend_eq_some.mp hextend
  have hundo : state.undoStack.getLast? = some ⟨before.tip, before.tipHash, undo⟩ := by
    rw [hpushed]
    simp [ChainMemory.pushBlock]
  have hblock : state.blocks.getLast? = some block := by
    rw [hpushed]
    simp [ChainMemory.pushBlock]
  -- The step is taken with the block in question, so it is known to spend nothing of its own.
  have hown : UtxoSet.spendsOwnOutput host.crypto block = false := by
    by_contra hspends
    obtain ⟨hdisconnected, hreinstated⟩ := hclean (by simpa using hspends)
    simp only [disconnectLastBlock, hundo, hblock] at hdisconnect
    split at hdisconnect
    · cases hdisconnect
      simp at hreinstated
    · cases hdisconnect
      simp at hdisconnected
  have hpop := hunpruned.popBlock_pushBlock happly hown hfresh
  rw [← hpushed] at hpop
  simp only [disconnectLastBlock, hundo, hblock, hpop] at hdisconnect
  split at hdisconnect
  · next err failed hpersist =>
      have hstorage : state.storage ≠ none := by
        intro hnone
        simp [persist, hnone] at hpersist
      obtain ⟨storage, rfl⟩ := eq_of_persist hpersist
      cases hdisconnect
      have hutxos : (before.utxos.applyBlock host.crypto block).2 = state.utxos := by
        rw [happly, hpushed]
        rfl
      refine .inr ⟨⟨_, rfl⟩, ?_, rfl, hstorage⟩
      rw [note_toChainMemory, hutxos]
  · next stored hpersist =>
      have hstorage : state.storage = none → stored.storage = none := by
        intro hnone
        simp only [persist, hnone, Prod.mk.injEq] at hpersist
        rw [← hpersist.2, hnone]
      obtain ⟨storage, rfl⟩ := eq_of_persist hpersist
      cases hdisconnect
      exact .inl ⟨rfl, rfl, rfl, hstorage⟩

end Connecting

/-! Several blocks at once. -/

section Blocks

variable {host : Host σ} {now : UInt64} {network : Network} {chain blocks : List Block}
  {state next : Chainstate σ} {result : Except StorageError Unit} {count : Nat}

theorem connectBlocks_cases
    (hunpruned : Unpruned host.crypto network chain state.toChainMemory)
    (hconnect : state.connectBlocks host now blocks = (result, count, next))
    (hadmissible : ∀ event ∈ next.history, event.Admissible host network) :
    count ≤ blocks.length ∧
    (∀ block ∈ blocks.take count, .connected block ∈ next.history) ∧
    state.extendAll host.crypto now (blocks.take count) = some next.toChainMemory ∧
    (result = .ok () ∧ count = blocks.length ∧ next.failures = state.failures ∨
      (∃ err, result = .error err) ∧
        (next.failures = state.failures ∧ state.extendAll host.crypto now blocks = none ∨
          next.failures = state.failures + 1)) := by
  induction blocks generalizing state chain count with
  | nil =>
      cases hconnect
      exact ⟨Nat.le_refl 0, by simp, rfl, .inl ⟨rfl, rfl, rfl⟩⟩
  | cons block rest ih =>
      have hroom : state.validateNext host.crypto now block = .ok () →
          .connected block ∈ next.history →
          state.blocks.length < retainedBlocks host state.network := by
        intro hvalid hmem
        rw [hunpruned.network_eq]
        exact hunpruned.room hvalid ((hadmissible _ hmem).below block (List.mem_singleton_self _))
      rw [connectBlocks] at hconnect
      rcases hfirst : state.connectBlock host now block with ⟨err | _, mid⟩
      · rw [hfirst] at hconnect
        cases hconnect
        rcases connectBlock_cases hfirst (fun event hmem => (hadmissible event hmem).clean)
          hroom with ⟨hok, -⟩ | ⟨-, hmemory, hhistory⟩
        · cases hok
        · refine ⟨Nat.zero_le _, by simp, by simp [hmemory], .inr ⟨⟨err, rfl⟩, ?_⟩⟩
          rcases hhistory with ⟨hhistory, hinvalid⟩ | hhistory
          · left
            refine ⟨by rw [failures, hhistory, failures], ?_⟩
            rw [ChainMemory.extendAll, List.foldlM_cons, hinvalid]
            rfl
          · right
            rw [failures, hhistory, List.countP_append]
            rfl
      · rcases hrest : mid.connectBlocks host now rest with ⟨restResult, restCount, final⟩
        rw [hfirst] at hconnect
        simp only [hrest] at hconnect
        cases hconnect
        have hsubset : mid.history ⊆ next.history := by
          have hsteps := (connectBlocks_operates host now mid rest).steps
          rw [hrest] at hsteps
          exact hsteps.history_subset
        rcases connectBlock_cases hfirst
          (fun event hmem => (hadmissible event (hsubset hmem)).clean)
          (fun hvalid hmem => hroom hvalid (hsubset hmem))
          with ⟨-, hextend, hhistory⟩ | ⟨⟨err, herr⟩, -⟩
        · obtain ⟨hcount, hmem, hall, hcases⟩ := ih (hunpruned.extend hextend) hrest
          have hfailures : mid.failures = state.failures := by
            rw [failures, hhistory, List.countP_append]
            rfl
          rw [hfailures] at hcases
          refine ⟨Nat.succ_le_succ hcount, ?_, ?_, ?_⟩
          · rw [List.take_succ_cons]
            refine List.forall_mem_cons.mpr ⟨hsubset ?_, hmem⟩
            rw [hhistory]
            simp
          · rw [List.take_succ_cons]
            exact ChainMemory.extendAll_cons.mpr ⟨_, hextend, hall⟩
          · rcases hcases with ⟨hok, hcount, hsame⟩ | ⟨herr, hinvalid | hfailed⟩
            · exact .inl ⟨hok, by rw [hcount, List.length_cons], hsame⟩
            · refine .inr ⟨herr, .inl ⟨hinvalid.1, ?_⟩⟩
              rw [ChainMemory.extendAll, List.foldlM_cons, hextend]
              exact hinvalid.2
            · exact .inr ⟨herr, .inr hfailed⟩
        · cases herr

theorem connectBlocks_of_extendAll {final : ChainMemory}
    (hextend : state.extendAll host.crypto now blocks = some final)
    (hunpruned : Unpruned host.crypto network chain state.toChainMemory)
    (hstorage : state.storage = none)
    (hroom : chain.length + blocks.length < retainedBlocks host network) :
    state.connectBlocks host now blocks =
      (.ok (), blocks.length, ⟨final, none, state.history ++ blocks.map .connected⟩) := by
  induction blocks generalizing state chain with
  | nil =>
      cases hextend
      simp [connectBlocks, ← hstorage]
  | cons block rest ih =>
      obtain ⟨mid, hfirst, hrest⟩ := ChainMemory.extendAll_cons.mp hextend
      rw [List.length_cons] at hroom
      have hconnect := connectBlock_of_extend hfirst hstorage (by
        rw [hunpruned.network_eq, hunpruned.resident, List.length_cons]
        omega)
      have hlater := @ih (chain ++ [block])
        ⟨mid, none, state.history ++ [.connected block]⟩ hrest (hunpruned.extend hfirst) rfl
        (by rw [List.length_append, List.length_singleton]; omega)
      simp [connectBlocks, hconnect, hlater]

theorem disconnectBlocks_cases {base : ChainMemory} {remaining : Nat}
    (hunpruned : Unpruned host.crypto network chain base)
    (hextend : base.extendAll host.crypto now blocks = some state.toChainMemory)
    (hnodup : (blockHashes host.crypto
      (genesisBlock host.crypto network :: (chain ++ blocks))).Nodup)
    (hdisconnect : state.disconnectBlocks host remaining = (result, count, next))
    (hle : remaining ≤ blocks.length)
    (hclean : ∀ block ∈ blocks, UtxoSet.spendsOwnOutput host.crypto block = true →
      .disconnected block ∉ next.history ∧ .reinstated block ∉ next.history) :
    count ≤ remaining ∧
    base.extendAll host.crypto now (blocks.take (blocks.length - count)) =
      some next.toChainMemory ∧
    (result = .ok () ∧ count = remaining ∧ next.failures = state.failures ∧
        (state.storage = none → next.storage = none) ∨
      (∃ err, result = .error err) ∧ next.failures = state.failures + 1 ∧
        state.storage ≠ none ∧
        ∃ events block, next.history = state.history ++ events ∧ .reinstated block ∈ events) := by
  induction remaining generalizing state blocks count with
  | zero =>
      cases hdisconnect
      exact ⟨Nat.le_refl 0, by simpa using hextend, .inl ⟨rfl, rfl, rfl, id⟩⟩
  | succ remaining ih =>
      obtain ⟨front, last, rfl⟩ : ∃ front last, blocks = front ++ [last] := by
        rcases List.eq_nil_or_concat blocks with rfl | ⟨front, last, rfl⟩
        · simp at hle
        · exact ⟨front, last, List.concat_eq_append⟩
      obtain ⟨before, hfront, hlast⟩ := ChainMemory.extendAll_concat.mp hextend
      have hbefore := hunpruned.extendAll hfront
      rw [← List.append_assoc, ← List.cons_append, blockHashes, List.map_append,
        List.nodup_append] at hnodup
      obtain ⟨hnodup, -, hdisjoint⟩ := hnodup
      have hfresh : last.header.blockHash host.crypto ∉
          blockHashes host.crypto before.blocks := by
        intro hmem
        rw [hbefore.resident] at hmem
        exact hdisjoint _ hmem _ (List.mem_singleton_self _) rfl
      have hlastClean := hclean last (by simp)
      rw [disconnectBlocks] at hdisconnect
      rcases hfirst : state.disconnectLastBlock host with ⟨err | _, mid⟩
      · rw [hfirst] at hdisconnect
        cases hdisconnect
        rcases disconnectLastBlock_cases hbefore hlast hfresh hfirst hlastClean with
          ⟨hok, -⟩ | ⟨-, hmemory, hhistory, hstorage⟩
        · cases hok
        · refine ⟨Nat.zero_le _, ?_, .inr ⟨⟨err, rfl⟩, ?_, hstorage,
            [.reinstated last], last, hhistory, List.mem_singleton_self _⟩⟩
          · rw [Nat.sub_zero, List.take_length, hextend, hmemory]
          · rw [failures, hhistory, List.countP_append]
            rfl
      · rcases hrest : mid.disconnectBlocks host remaining with ⟨restResult, restCount, final⟩
        rw [hfirst] at hdisconnect
        simp only [hrest] at hdisconnect
        cases hdisconnect
        have hsubset : mid.history ⊆ next.history := by
          have hsteps := (disconnectBlocks_operates host now mid remaining).steps
          rw [hrest] at hsteps
          exact hsteps.history_subset
        rcases disconnectLastBlock_cases hbefore hlast hfresh hfirst
          (fun hspends => ⟨fun hmem => (hlastClean hspends).1 (hsubset hmem),
            fun hmem => (hlastClean hspends).2 (hsubset hmem)⟩) with
          ⟨-, hmemory, hhistory, hstorage⟩ | ⟨⟨err, herr⟩, -⟩
        · have hfailures : mid.failures = state.failures := by
            rw [failures, hhistory, List.countP_append]
            rfl
          rw [List.length_append, List.length_singleton] at hle
          obtain ⟨hcount, hall, hcases⟩ := ih (by rw [hmemory]; exact hfront) hnodup hrest
            (by omega) (fun block hmem => hclean block (List.mem_append_left _ hmem))
          rw [hfailures] at hcases
          refine ⟨by omega, ?_, ?_⟩
          · rw [List.length_append, List.length_singleton, Nat.add_sub_add_right,
              List.take_append_of_le_length (Nat.sub_le _ _)]
            exact hall
          · rcases hcases with ⟨hok, hequal, hsame, hstorage'⟩ |
              ⟨herr, hfailed, hne, events, block, hevents, hmem⟩
            · exact .inl ⟨hok, by rw [hequal], hsame, hstorage' ∘ hstorage⟩
            · exact .inr ⟨herr, hfailed, fun hnone => hne (hstorage hnone),
                .disconnected last :: events, block, by simp [hevents, hhistory],
                List.mem_cons_of_mem _ hmem⟩
        · cases herr

end Blocks

/-! Looking blocks up, when all of them are resident. -/

section Lookup

variable {host : Host σ} {network : Network} {chain : List Block} {state : Chainstate σ}

theorem blockByHeight_eq {height : UInt64} {block : Block}
    (hunpruned : Unpruned host.crypto network chain state.toChainMemory)
    (hget : (genesisBlock host.crypto network :: chain)[height.toNat]? = some block) :
    state.blockByHeight host height = .ok (some block) := by
  have hheight : block.header.height = height := by
    have hnumber := hunpruned.numbered _ block hget
    have hlt := height.toNat_lt
    exact UInt64.toNat_inj.mp (by omega)
  have hindex : state.memoryBlockIndexForHeight height = some height.toNat := by
    have hfirst : ¬height < (genesisBlock host.crypto network).header.height :=
      UInt64.not_lt.mpr (UInt64.le_iff_toNat_le.mpr (Nat.zero_le _))
    rw [← hunpruned.resident] at hget
    simp only [ChainMemory.memoryBlockIndexForHeight, hunpruned.resident, List.head?_cons,
      Option.bind_eq_bind, Option.bind_some, if_neg hfirst] at hget ⊢
    have hzero : (genesisBlock host.crypto network).header.height.toNat = 0 := rfl
    rw [hzero, Nat.sub_zero, hget, Option.bind_some, if_pos hheight]
  simp only [blockByHeight, hindex, hunpruned.resident, hget]

theorem blocksByHeight_eq (hunpruned : Unpruned host.crypto network chain state.toChainMemory)
    (hlength : chain.length < 2 ^ 64) {start count : Nat}
    (hle : start + count ≤ chain.length + 1) :
    state.blocksByHeight host
        ((List.range count).map fun offset => UInt64.ofNat (start + offset)) =
      .ok (((genesisBlock host.crypto network :: chain).drop start).take count) := by
  induction count generalizing start with
  | zero => rfl
  | succ count ih =>
      have hlt : start < (genesisBlock host.crypto network :: chain).length := by
        rw [List.length_cons]
        omega
      have hstart : (UInt64.ofNat start).toNat = start :=
        UInt64.toNat_ofNat_of_lt (by rw [UInt64.size]; omega)
      have hfirst : state.blockByHeight host (UInt64.ofNat start) =
          .ok (some (genesisBlock host.crypto network :: chain)[start]) :=
        blockByHeight_eq hunpruned (by rw [hstart, List.getElem?_eq_getElem hlt])
      have hrest : (List.map Nat.succ (List.range count)).map
          (fun offset => UInt64.ofNat (start + offset)) =
            (List.range count).map fun offset => UInt64.ofNat (start + 1 + offset) := by
        simp [List.map_map, Function.comp_def, Nat.add_assoc, Nat.add_comm 1]
      rw [List.range_succ_eq_map, List.map_cons, hrest, Nat.add_zero, blocksByHeight, hfirst,
        List.drop_eq_getElem_cons hlt, List.take_succ_cons]
      simp only [okOr, ih (by omega : start + 1 + count ≤ chain.length + 1)]
      rfl

theorem canonicalBranchAfter_eq
    (hunpruned : Unpruned host.crypto network chain state.toChainMemory)
    (hlength : chain.length < 2 ^ 64) (forkHeight : UInt64) :
    state.canonicalBranchAfter host forkHeight = .ok (chain.drop forkHeight.toNat) := by
  have hheight : state.height.toNat = chain.length := by
    rw [hunpruned.height_toNat]
    omega
  rw [canonicalBranchAfter]
  split
  · next hle =>
      rw [UInt64.le_iff_toNat_le, hheight] at hle
      rw [List.drop_eq_nil_of_le hle]
  · next hgt =>
      rw [UInt64.le_iff_toNat_le, hheight] at hgt
      rw [hheight, blocksByHeight_eq hunpruned hlength (by omega), List.drop_succ_cons,
        List.take_of_length_le (by rw [List.length_drop])]

theorem canonicalPrefixThrough_eq
    (hunpruned : Unpruned host.crypto network chain state.toChainMemory)
    (hlength : chain.length < 2 ^ 64) {height : UInt64} (hle : height.toNat ≤ chain.length) :
    state.canonicalPrefixThrough host height =
      .ok (genesisBlock host.crypto network :: chain.take height.toNat) := by
  have hall := blocksByHeight_eq hunpruned hlength
    (by omega : 0 + (height.toNat + 1) ≤ chain.length + 1)
  simp only [Nat.zero_add, List.drop_zero, List.take_succ_cons] at hall
  exact hall

theorem validateReplacementChain_eq {now : UInt64} {final : ChainMemory}
    (hextend : (ChainMemory.genesis host.crypto network).extendAll host.crypto now chain =
      some final) (hroom : chain.length < retainedBlocks host network) :
    validateReplacementChain host now network (genesisBlock host.crypto network :: chain) =
      .ok ⟨final, none, chain.map .connected⟩ := by
  have hconnect := @connectBlocks_of_extendAll σ host now network [] chain
    (fresh host network) final hextend (.genesis host.crypto network) rfl (by simpa using hroom)
  have hheight : (genesisBlock host.crypto network).header.height = 0 := rfl
  have hgenesis : (genesisBlock host.crypto network).header.blockHash host.crypto =
      genesisHash host.crypto network := rfl
  simp only [validateReplacementChain, hheight, hgenesis, hconnect, ne_eq, not_true_eq_false,
    or_self, rejectWhen]
  rfl

end Lookup

end Chainstate

end Atho
