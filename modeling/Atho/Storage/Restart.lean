import Atho.Storage.Recall

/-! Restart: a chainstate that was loaded with its recent blocks only, and what
it computes for the next block. -/

namespace Atho

/-! What is resident, and what the next block has to meet. -/

/-- The resident blocks ask of the next block what the whole chain asks of it. -/
def ChainMemory.AgreesWith (memory : ChainMemory) (full : List Block) : Prop :=
  (∀ timestamp, memory.nextDifficultyTargetForTimestamp timestamp =
    targetForNextBlockWithTimestamp memory.network full timestamp) ∧
  minimumNextBlockTimestamp memory.blocks = minimumNextBlockTimestamp full

/-- The whole chain is resident, or the blocks that the retarget reads are. -/
def ChainMemory.Sufficient (memory : ChainMemory) : Prop :=
  memory.blocks.length = memory.height.toNat + 1 ∨
    retargetReach ≤ memory.blocks.length ∧
      (recent retargetReach memory.blocks).IsChain fun left right =>
        right.header.height.toNat = left.header.height.toNat + 1

instance (memory : ChainMemory) : Decidable memory.Sufficient :=
  inferInstanceAs (Decidable (_ ∨ _))

theorem suffix_withoutGenesis {blocks newer : List Block} (hsuffix : newer <:+ blocks)
    (hhead : ∀ first ∈ newer.head?, first.header.height ≠ 0) :
    newer <:+ withoutGenesis blocks := by
  cases blocks with
  | nil => exact hsuffix
  | cons first rest =>
      rw [withoutGenesis]
      split
      · next hgenesis =>
          rcases List.suffix_cons_iff.mp hsuffix with rfl | hrest
          · exact absurd hgenesis.1 (hhead first rfl)
          · exact hrest
      · exact hsuffix

namespace Recalls

variable {crypto : Crypto} {full : List Block} {memory : ChainMemory}

theorem length_le (hrecalls : Recalls crypto full memory) :
    memory.blocks.length ≤ full.length := by
  obtain ⟨first, index, dropped, hblocks, hindex, hdropped, -⟩ := hrecalls.cons
  rw [hblocks, List.length_cons, List.length_drop]
  omega

theorem agreesWith_of_length_eq (hrecalls : Recalls crypto full memory)
    (hlength : memory.blocks.length = full.length) : memory.AgreesWith full := by
  obtain ⟨first, index, dropped, hblocks, hindex, hdropped, hget⟩ := hrecalls.cons
  have hwhole : memory.blocks = full := by
    rw [hblocks, List.length_cons, List.length_drop] at hlength
    obtain rfl : dropped = 1 := by omega
    obtain rfl : index = 0 := by omega
    rw [hblocks, List.drop_one]
    exact List.cons_head?_tail (by rwa [List.head?_eq_getElem?])
  exact ⟨fun timestamp => by rw [ChainMemory.nextDifficultyTargetForTimestamp, hwhole],
    by rw [hwhole]⟩

/-- As long as the resident blocks are not the whole chain, a common suffix does
not contain genesis. -/
theorem agreesWith_of_suffix (hrecalls : Recalls crypto full memory) {newer : List Block}
    (hblocks : newer <:+ memory.blocks) (hfull : newer <:+ full)
    (hlength : retargetReach ≤ newer.length) : memory.AgreesWith full := by
  have hpositive : 0 < newer.length := Nat.lt_of_lt_of_le (by decide) hlength
  by_cases hwhole : newer.length = full.length
  · exact hrecalls.agreesWith_of_length_eq
      (Nat.le_antisymm hrecalls.length_le (hwhole ▸ hblocks.length_le))
  · have hhead : ∀ first ∈ newer.head?, first.header.height ≠ 0 := by
      intro first hfirst hheight
      have hlt : newer.length < full.length := lt_of_le_of_ne hfull.length_le hwhole
      have hget : full[full.length - newer.length]? = some first := by
        rw [List.suffix_iff_eq_drop.mp hfull, List.head?_drop] at hfirst
        exact hfirst
      have hnumber := hrecalls.numbered _ first hget
      rw [hheight, UInt64.toNat_zero] at hnumber
      omega
    have hresident := suffix_withoutGenesis hblocks hhead
    have hchain := suffix_withoutGenesis hfull hhead
    exact ⟨targetForNextBlockWithTimestamp_of_common memory.network hresident hchain hlength,
      minimumNextBlockTimestamp_of_common hblocks hfull
        (Nat.le_trans (by decide) hlength)⟩

theorem agreesWith (hrecalls : Recalls crypto full memory)
    (hsufficient : memory.Sufficient) : memory.AgreesWith full := by
  obtain ⟨first, index, dropped, hblocks, hindex, hdropped, hget⟩ := hrecalls.cons
  by_cases hlong : retargetReach ≤ (full.drop dropped).length
  · exact hrecalls.agreesWith_of_suffix (hblocks ▸ List.suffix_cons first _)
      (List.drop_suffix dropped full) hlong
  simp only [List.length_drop, retargetReach, averagingWindowBlocks, medianWindowBlocks]
    at hlong
  have hlength : memory.blocks.length = full.length - dropped + 1 := by
    rw [hblocks, List.length_cons, List.length_drop]
  rcases hsufficient with hcount | ⟨hreach, hheights⟩
  · obtain ⟨last, hlast, -, -, hheight⟩ := hrecalls.tip
    have hnumber := hrecalls.numbered.getLast? hlast
    rw [← hheight] at hnumber
    exact hrecalls.agreesWith_of_length_eq (by omega)
  · rw [recent_of_le (by rw [hlength, retargetReach, averagingWindowBlocks,
      medianWindowBlocks]; omega), hblocks] at hheights
    have hshort : full.length = dropped + 26 := by
      rw [hlength, retargetReach, averagingWindowBlocks, medianWindowBlocks] at hreach
      omega
    -- The first resident block has to be the one below the others.
    have hadjacent : index + 1 = dropped := by
      rw [List.drop_eq_getElem_cons (by omega), List.drop_eq_getElem_cons (by omega),
        List.isChain_cons_cons, List.isChain_cons_cons] at hheights
      have hzeroth := hrecalls.numbered index first hget
      have hfirst := hrecalls.numbered dropped _ (List.getElem?_eq_getElem (by omega))
      have hsecond := hrecalls.numbered (dropped + 1) _ (List.getElem?_eq_getElem (by omega))
      rw [hheights.1, hzeroth] at hfirst
      rw [hheights.2.1, hheights.1, hzeroth] at hsecond
      generalize 2 ^ 64 - 1 = limit at hfirst hsecond
      omega
    have hfirst : full[index] = first := by
      rw [List.getElem?_eq_getElem (by omega)] at hget
      exact Option.some.inj hget
    refine hrecalls.agreesWith_of_suffix (List.suffix_refl _) ?_ hreach
    rw [hblocks, ← hadjacent, ← hfirst, ← List.drop_eq_getElem_cons]
    exact List.drop_suffix index full

end Recalls

namespace Chainstate

/-- The memory is one of the canonical chain of the state's history, given the
blocks `start` after genesis that it began with. -/
def RecallsHistory (host : Host σ) (network : Network) (start : List Block)
    (state : Chainstate σ) : Prop :=
  Recalls host.crypto
    (genesisBlock host.crypto network :: canonicalChain start state.history)
    state.toChainMemory

theorem recallsHistory_fresh (host : Host σ) (network : Network) (storage : Option σ) :
    (freshWithStorage host network storage).RecallsHistory host network [] :=
  .genesis host.crypto network

section

variable {host : Host σ} {network : Network} {start : List Block} {state : Chainstate σ}
  {now : UInt64}

theorem RecallsHistory.connected {block : Block} {undo : BlockUndo} {utxos : UtxoSet}
    (hrecalls : state.RecallsHistory host network start)
    (hvalid : state.validateNext host.crypto now block = .ok ())
    (retain : Nat) (storage : Option σ) :
    RecallsHistory host network start
      ⟨(state.pushBlock host.crypto block undo utxos).pruneHistoryToRetain host.crypto retain,
        storage, state.history ++ [.connected block]⟩ := by
  rw [RecallsHistory, canonicalChain_snoc]
  exact (hrecalls.push hvalid).prune retain

theorem RecallsHistory.step {next : Chainstate σ} (hstep : Step host now state next)
    (hnetwork : state.network = network)
    (hrecalls : state.RecallsHistory host network start) :
    next.RecallsHistory host network start := by
  cases hstep with
  | connected storage hvalid happly => exact hrecalls.connected hvalid _ storage
  | @disconnected undo removed storage hundo hremoved =>
      have hpop := hrecalls.pop hundo removed
      have hnonempty : canonicalChain start state.history ≠ [] := by
        obtain ⟨last, hlast, -⟩ := hpop.tip
        intro hnil
        rw [hnil] at hlast
        cases hlast
      rw [List.dropLast_cons_of_ne_nil hnonempty] at hpop
      rw [RecallsHistory, canonicalChain_snoc]
      exact hpop
  | @replaced blocks validated storage hvalidated =>
      obtain ⟨first, rest, count, rfl, hconnect⟩ := validateReplacementChain_ok hvalidated
      rw [hnetwork] at hconnect
      have hvalid : validated.RecallsHistory host network [] :=
        connectBlocks_invariant hconnect (RecallsHistory host network [])
          (recallsHistory_fresh host network none)
          fun storage hvalid _ hrecalls => hrecalls.connected hvalid _ storage
      rw [RecallsHistory, connectBlocks_history hconnect, canonicalChain_connected] at hvalid
      rw [RecallsHistory, canonicalChain_snoc]
      exact (hvalid.replace state.network validated.utxos).prune _
  | withdrawn storage hvalid happly =>
      rw [RecallsHistory, canonicalChain_snoc]
      exact hrecalls.replace state.network _
  | clashed hvalid happly =>
      rw [RecallsHistory, canonicalChain_snoc]
      exact hrecalls.replace state.network _
  | reinstated storage hundo hremoved =>
      rw [RecallsHistory, canonicalChain_snoc]
      exact hrecalls.replace state.network _
  | replaceFailed storage =>
      rw [RecallsHistory, canonicalChain_snoc]
      exact hrecalls

end

end Chainstate

/-! Loading. -/

section Loading

variable {host : Host σ} {storage : σ} {full blocks : List Block}

theorem loadRecentBlocksFrom_ok {newer : List Block} {last : Block} {limit : Nat}
    (hnumbered : Numbered full)
    (hlinked : full.IsChain fun left right =>
      right.header.previousBlockHash = left.header.blockHash host.crypto)
    (hstored : ∀ block ∈ full, ∀ found,
      host.loadBlock storage (block.header.blockHash host.crypto) = .ok (some found) →
      found = block)
    (hlast : full.getLast? = some last)
    (hload : loadRecentBlocksFrom host storage limit newer
      (last.header.blockHash host.crypto) = .ok blocks) :
    blocks = recent limit full ++ newer ∨ blocks = [] := by
  induction limit generalizing full newer last with
  | zero =>
      cases hload
      left
      simp [recent]
  | succ limit ih =>
      have hfull : full = full.dropLast ++ [last] :=
        (List.dropLast_append_getLast? last hlast).symm
      have hnumber := hnumbered.getLast? hlast
      simp only [loadRecentBlocksFrom, bind_eq_ok] at hload
      obtain ⟨found, hfound, hload⟩ := hload
      cases found with
      | none =>
          dsimp only at hload
          split at hload <;> cases hload
          exact .inr rfl
      | some found =>
          obtain rfl := hstored last (List.mem_of_getLast? hlast) found hfound
          dsimp only at hload
          split at hload
          · next hgenesis =>
              cases hload
              rw [hgenesis, UInt64.toNat_zero] at hnumber
              have hnil : full.dropLast = [] :=
                List.eq_nil_of_length_eq_zero (by rw [List.length_dropLast]; omega)
              left
              rw [hfull, hnil, recent_of_le (by simp)]
              rfl
          · next hheight =>
              have hnonempty : full.dropLast ≠ [] := by
                intro hnil
                rw [hfull, hnil] at hnumber
                exact hheight (UInt64.toNat_inj.mp (by simpa using hnumber))
              obtain ⟨previous, hprevious⟩ : ∃ previous, full.dropLast.getLast? = some previous :=
                ⟨_, List.getLast?_eq_some_getLast hnonempty⟩
              have hlink : found.header.previousBlockHash =
                  previous.header.blockHash host.crypto := by
                rw [hfull] at hlinked
                exact (List.isChain_append.mp hlinked).2.2 previous hprevious found rfl
              rw [hlink] at hload
              rw [hfull] at hlinked
              have hrest := ih hnumbered.dropLast hlinked.left_of_append
                (fun block hmem => hstored block (List.dropLast_subset full hmem))
                hprevious hload
              nth_rewrite 1 [hfull]
              rwa [recent_succ_concat, List.append_assoc]

theorem rehydrateUndoStack_ok {network : Network} {stack : List ChainUndo}
    (hstack : rehydrateUndoStack host network storage blocks = .ok stack) :
    stack.map ChainUndo.tip = blocks.dropLast.map (Block.asTip host.crypto) := by
  induction blocks generalizing stack with
  | nil =>
      cases hstack
      rfl
  | cons previous rest ih =>
      cases rest with
      | nil =>
          cases hstack
          rfl
      | cons block rest =>
          simp only [rehydrateUndoStack, bind_eq_ok, pure_eq_ok] at hstack
          obtain ⟨stack, hrest, undo, -, rfl⟩ := hstack
          rw [List.map_cons, ih hrest]
          rfl

theorem loadBlocks_ok {network : Network} {persisted : PersistedChainstate} {last : Block}
    (hnumbered : Numbered full)
    (hlinked : full.IsChain fun left right =>
      right.header.previousBlockHash = left.header.blockHash host.crypto)
    (hgenesis : full.head? = some (genesisBlock host.crypto network))
    (hstored : ∀ block ∈ full, ∀ found,
      host.loadBlock storage (block.header.blockHash host.crypto) = .ok (some found) →
      found = block)
    (hlast : full.getLast? = some last) (hheight : persisted.height = last.header.height)
    (htipHash : persisted.tipHash = last.header.blockHash host.crypto)
    (hload : persisted.loadBlocks host network (some storage) = .ok blocks) :
    blocks = recent recentBlockReloadLimit full := by
  unfold PersistedChainstate.loadBlocks at hload
  split at hload
  · next hzero =>
      cases hload
      have hnumber := hnumbered.getLast? hlast
      rw [← hheight, hzero, UInt64.toNat_zero] at hnumber
      have hlength : full.length ≤ 1 := by omega
      rw [recent_of_le (Nat.le_trans hlength (by decide))]
      match full with
      | [] => cases hgenesis
      | [first] =>
          cases hgenesis
          rfl
      | first :: second :: rest => simp at hlength
  · simp only [bind_eq_ok, okOr_eq_ok, rejectWhen_eq_ok, pure_eq_ok] at hload
    obtain ⟨_, hstorage, found, hfound, newest, hnewest, -, -, rfl⟩ := hload
    cases hstorage
    rw [htipHash, loadRecentBlocksFromStorage] at hfound
    rcases loadRecentBlocksFrom_ok hnumbered hlinked hstored hlast hfound with hrecent | rfl
    · rw [hrecent, List.append_nil]
    · cases hnewest

/-- A chainstate loaded from what `saved` persisted, with a database that returns
no foreign block under the hash of a block of the chain. -/
theorem tryIntoChainstate_ok {network : Network} {saved : ChainMemory}
    {utxos : List UtxoEntry} {loaded : Chainstate σ} (hrecalls : Recalls host.crypto full saved)
    (hgenesis : full.head? = some (genesisBlock host.crypto network))
    (hstored : ∀ block ∈ full, ∀ found,
      host.loadBlock storage (block.header.blockHash host.crypto) = .ok (some found) →
      found = block)
    (hload : PersistedChainstate.tryIntoChainstate host
      ⟨saved.height, saved.tipHash, saved.tip, utxos⟩ network (some storage) = .ok loaded) :
    Recalls host.crypto full loaded.toChainMemory ∧
      loaded.blocks = recent recentBlockReloadLimit full ∧ loaded.network = network ∧
      loaded.history = [] := by
  obtain ⟨last, hlast, htip, htipHash, hheight⟩ := hrecalls.tip
  simp only [PersistedChainstate.tryIntoChainstate, PersistedChainstate.loadTip, htip,
    rehydrateUndoStackFromStorage, bind_eq_ok, rejectWhen_eq_ok, pure_eq_ok] at hload
  obtain ⟨set, -, -, -, tip, ⟨-, -, rfl⟩, blocks, hblocks, stack, ⟨-, -, hstack⟩, rfl⟩ := hload
  obtain rfl := loadBlocks_ok hrecalls.numbered hrecalls.linked hgenesis hstored hlast hheight
    htipHash hblocks
  have hstack := rehydrateUndoStack_ok hstack
  have hpositive : 0 < full.length := List.length_pos_iff.mpr (by rintro rfl; cases hlast)
  refine ⟨⟨hrecalls.numbered, hrecalls.linked, ⟨last, hlast, rfl, htipHash, hheight⟩,
    ⟨none, full.length - recentBlockReloadLimit, rfl, Nat.sub_le _ _, by simp⟩, ?_, ?_⟩,
    rfl, rfl, rfl⟩
  · rw [hstack, recent, List.dropLast_drop_eq_drop_dropLast, List.map_drop]
    exact List.drop_suffix _ _
  · have hlength := congrArg List.length hstack
    simp only [List.length_map, List.length_dropLast, length_recent,
      recentBlockReloadLimit] at hlength ⊢
    omega

end Loading

namespace Chainstate

theorem run_recallsHistory {host : Host σ} {network : Network} {start : List Block}
    {state : Chainstate σ} (hrecalls : state.RecallsHistory host network start)
    (hnetwork : state.network = network) (calls : List (UInt64 × Call)) :
    (state.run host calls).network = network ∧
      (state.run host calls).RecallsHistory host network start :=
  (run_runs host state fun timed (_ : timed ∈ calls) => Set.mem_univ timed.1).invariant
    (fun _ => True)
    (fun state => state.network = network ∧ state.RecallsHistory host network start)
    ⟨hnetwork, hrecalls⟩
    (fun _ hstep _ _ hbefore =>
      ⟨hstep.network_eq.trans hbefore.1, hbefore.2.step hstep hbefore.1⟩)
    (fun _ _ => trivial)

/-- A chainstate is run from genesis and saved, and loaded again with its recent
blocks. What the loaded one asks of the next block is what the whole chain asks of
it, and so it stays over any later run that ends with enough blocks resident. -/
theorem restart_agrees (host : Host σ) (network : Network) (initial : Option σ)
    (calls : List (UInt64 × Call)) (storage : σ) (utxos : List UtxoEntry)
    (loaded : Chainstate σ) (chain : List Block)
    (hchain : chain = canonicalChain []
      ((freshWithStorage host network initial).run host calls).history)
    (hstored : ∀ block ∈ genesisBlock host.crypto network :: chain, ∀ found,
      host.loadBlock storage (block.header.blockHash host.crypto) = .ok (some found) →
      found = block)
    (hload : PersistedChainstate.tryIntoChainstate host
      ⟨((freshWithStorage host network initial).run host calls).height,
        ((freshWithStorage host network initial).run host calls).tipHash,
        ((freshWithStorage host network initial).run host calls).tip, utxos⟩
      network (some storage) = .ok loaded) :
    loaded.AgreesWith (genesisBlock host.crypto network :: chain) ∧
      ∀ later, (loaded.run host later).Sufficient →
        (loaded.run host later).AgreesWith
          (genesisBlock host.crypto network ::
            canonicalChain chain (loaded.run host later).history) := by
  obtain ⟨-, hsaved⟩ := run_recallsHistory (recallsHistory_fresh host network initial) rfl calls
  rw [RecallsHistory, ← hchain] at hsaved
  obtain ⟨hloaded, hblocks, hnetwork, hhistory⟩ := tryIntoChainstate_ok hsaved rfl hstored hload
  refine ⟨?_, ?_⟩
  · rcases Nat.lt_or_ge (chain.length + 1) retargetReach with hshort | hlong
    · exact hloaded.agreesWith_of_length_eq
        (by rw [hblocks, recent_of_le (Nat.le_of_lt hshort)])
    · refine hloaded.agreesWith_of_suffix (List.suffix_refl _)
        (hblocks ▸ recent_suffix _ _) ?_
      rw [hblocks, length_recent]
      exact Nat.le_min.mpr ⟨by decide, hlong⟩
  · intro later hsufficient
    have hstart : loaded.RecallsHistory host network chain := by
      rw [RecallsHistory, hhistory]
      exact hloaded
    exact (run_recallsHistory hstart hnetwork later).2.agreesWith hsufficient

/-- A mined regnet block with nothing but its reward, 100 seconds after the one below. -/
def restartBlock (height : Nat) (nonce : UInt64) (target previous : Nat) : Block :=
  let coinbase : Transaction :=
    { version := 1
      inputs := []
      outputs := [⟨5000000000, List.replicate 32 (UInt8.ofNat height)⟩]
      lockTime := 0
      witness := []
      txPowNonce := 0
      txPowBits := 0 }
  { header :=
      { (genesisBlock .hashing .regnet).header with
        height := UInt64.ofNat height
        previousBlockHash := .ofNat 48 previous
        merkleRoot := coinbase.txid .hashing
        witnessRoot := coinbase.txid .hashing
        timestamp := 1773360489 + 100 * UInt64.ofNat height
        difficultyTargetOrBits := .ofNat 48 target
        nonce := nonce }
    transactions := [coinbase] }

def restartChain : List Block :=
  [ restartBlock 1 25838 (2 ^ 368 - 1)
      0x9210aef53e3df4d37945e7b8c8c862ed5c29fc36b0f60594115cad4603c42c1400825154b15f21518157e53566e8,
    restartBlock 2 13894 (2 ^ 368 - 1)
      0x13693cc71706e9c7bf5f87611595d8413f6eb811c57c254d540cb3cf5ea14985da8a821fffad41a7ccc61fcfd214,
    restartBlock 3 28609 (2 ^ 368 - 1)
      0x6f6a2ff19785feba3d8a3e073ea3d9fc328331e9ae57fb396731b1403fd0797fd03650a83ebd1964abf28877985b,
    restartBlock 4 161699 (2 ^ 368 - 1)
      0x5e607a0642eb11c9d8ad6d969dc4e7303262cae7903f182ce9b18c420f6117d9e997b852b595416f886375cb9afb,
    restartBlock 5 66836 (2 ^ 368 - 1)
      0x708200ab48343b39b3f8909a3185b10e8c0798630df17566851f002e71e447395669b96686e70d3bc1b37a3c9ce3,
    restartBlock 6 58445 (2 ^ 368 - 1)
      0xd325ea36a237e8dcf9d637f7e9a2296cf5192343d56a6d7304016e05dfec94b82530d11aff72611d769e9b8bc4e5,
    restartBlock 7 352419 (2 ^ 368 - 1)
      0x5c5a23f622aee4df4761283a29d80703783b63bb23de92a1cabdfac4ca887784ad7aa2163bb300b0589b4aed3575,
    restartBlock 8 86313 (2 ^ 368 - 1)
      0x8fc73957da1803745adf9d6b9796e2c442fa0d53594914e4103a42322369a3315ab6b2e1eeaaeaa1362cca805113,
    restartBlock 9 63704 (2 ^ 368 - 1)
      0x6ece8bc9728c4f848d26bf0ef046faacb195aa1d0aa60879bf16ffa9f057c046967ca379c4f6b47275e69d444f51,
    restartBlock 10 14144 (2 ^ 368 - 1)
      0x7ccc37f29c1cd74ea0e92a6e7f213659e0ae718f1b69951d784606c6784b84cd44bbad85b9910526d781ba1b8089,
    restartBlock 11 45393 (2 ^ 368 - 1)
      0x7347c73a60ea18f744c03ec1b5a050d12d8f5dd816a408aea5c912cebfc9f7327d940f96d9c8e1c0a55a24dde556,
    restartBlock 12 38706 (2 ^ 368 - 1)
      0x75dd035ef6e01314cac696726b2f4edfa6cd1779b984b00952b0a5727885b8380850902475ed44d21da450cfaf19,
    restartBlock 13 33882 (2 ^ 368 - 1)
      0x7c0d4025fcc41b0c875f3b7ba7e381753001417b541ee59dc25f872823380fb8e1f029eccd5fcbea566bc181ab6e,
    restartBlock 14 23429 (2 ^ 368 - 1)
      0x1d1c80847da2208d923e36b2a91cbf2b88ebe043a38f6d931152c817b1bd502978aa4b2a05067e4490c98091a691,
    restartBlock 15 86139 (2 ^ 368 - 1)
      0xb479c9b0f4421771622ff88319326240dfd6cf7719cc1ae67620cc8d02dea0dfe18ca2c89c0186f094514a193539,
    restartBlock 16 128189 (2 ^ 368 - 1)
      0xdb6cc62d509b9e5bd0ab1290554cde91b7dcc3822f958371e2e42c82385bc1c4021a56f14c1716de4b4a6376c78,
    restartBlock 17 99039 (2 ^ 368 - 1)
      0xf284dbe54403fa1d0dac3231972cc7af9e0437c66f5214b8d1ffbfb01ff0a528277218514ad28709e69acab8d515,
    restartBlock 18 9104
      0xebffffffffffffffffffffffffffffffffffffffffffffffffffffffffffffffffffffffffffffffffffffffffff
      0xf70daf997a13fbc254ffb12ebe3753eb01b2adf8426678330b4cc21fc54c2ef88689d5634ba0edc2e168ca21437a,
    restartBlock 19 69200
      0xeaea5a5a5a5a5a5a5a5a5a5a5a5a5a5a5a5a5a5a5a5a5a5a5a5a5a5a5a5a5a5a5a5a5a5a5a5a5a5a5a5a5a5a5a58
      0x26d9c8a2646b1f5d4c7cfcbd4bbfcb24b6109acc330e8a5207d779fcdd58af09af2664eaac7703e44aa0dd14c3ac,
    restartBlock 20 66747
      0xedbbfb9228bf55ec8319b046dd740aa137ce64fb9228bf55ec8319b046dd740aa137ce64fb9228bf55ec8319b045
      0x6102f8e815714e01d6ea34ca396bfb3038042d3c86fcafcc1748e30f42e621e9c37ffc49cc97a953d80fd035d2a5,
    restartBlock 21 305506
      0xecba1d358377104f33bdedc33e5f2591a35ab7ba62b0a43d7c60eb1af06b8c52bed087e4e78fddd16aa98e18481b
      0x2cb48521aa85f407c251d7727d2d057c1eafa77d01d95933235d47dc4dac0f3a503f9d563094fecef9a151e8ab4a,
    restartBlock 22 97405
      0xef9786747ef4d253b5330974b0fa8da6815a6df83561b978dc1f7f3784a2ce433dfab5ab1736447e1f6489cb6592
      0x6295248594bba09f7e04428133bf59c70a3cc513d69863cf5d25c0fb36da06b74b5adda80109023428507b1f75b9,
    restartBlock 23 8557
      0xeeac05499d9a8c3ca2e34f65d26e3f797cd743aa1fe770576695070e290376886c835aad63927c916ddbd2761836
      0x433dfa1ee4633f3b1691695ff78203202b66f1b6d65972c4d8c940d94933c98f7afb0887d734922a5821ac6fb475,
    restartBlock 24 95525
      0xf198dfef989701c66c967955f10bdc86936acb42a68cc3cb4c93049a58c86e4431836559b207b44a0c686d44ab68
      0x6529f9d5b7f5aeba7f20579688516d12a49340ff984846c87396966a9d07c01b10985fc49b62883580d4a99d1b3f,
    restartBlock 25 152151
      0xf0c6c34903a36076e86c39a96d5ee3ea7ae068b9be288d11b52c5646e831f8508cce2d7a924af7811777ca1549e1
      0xcb6720b31b08e5d12eaa72af32ae9bf276faf0802db38b69a6a5e5214570e010546eb70add0e41a97c72377d36aa,
    restartBlock 26 93807
      0xf3c744ea5fc93d9c20e6b25d05910129480e9bf47d00ca562744e8e64fe5d23c38a053710adc8e0864fe2920a7eb
      0x1a703255f3e45c9a5a4bd14b78c0231c759215498d90334ba766335aa8873bd6ec99a37bfc26f5b9c851266ba246,
    restartBlock 27 44950
      0xf3121a151f3702d30d28c2cf1d2ed00d51a42938871099d1427bf571c40db795d36f41af5a50627e0e9afecd9b0e
      0xe0104ab5d864f40cb2add6bb4f2091716b44a59f771d3a546c594bf4e84d627b1de497c3f26c57f14e9d58217e27,
    restartBlock 28 15903
      0xf62b1e2e9a4192ee4a23708dcafc49f5eece4d492df4eb1a7f24e3af540344b36c310db3d8931a40b8736bb60083
      0xef04e1114e3dbde938fb3ff19ee809f04854dfb2aca63351188261e407ff2b3c2d5f78f455261989aa1657c1d0bf ]

def restartTipHash : Bytes 48 :=
  .ofNat 48
    0x5fd0483249ddc990e814a0b488b4f33bc1d13125e6e776bc8b5111bc925e724cd10a0243bdbc6ddce56a9d8acf5a

/-- A host whose database holds these blocks and genesis. -/
def restartHost : Host Unit :=
  { exampleHost with
    loadBlock := fun _ hash =>
      let hashes := restartChain.map (fun block => block.header.previousBlockHash) ++
        [restartTipHash]
      .ok ((hashes.zip (genesisBlock .hashing .regnet :: restartChain)).lookup hash) }

def restartClock : UInt64 := 1773363300

def restartCalls : List (UInt64 × Call) :=
  restartChain.map fun block => (restartClock, .connectBlock block)

def restartUtxos : List UtxoEntry :=
  (genesisBlock .hashing .regnet :: restartChain).flatMap
    (coinbaseEntries .hashing .regnet)

theorem restartCalls_saved :
    ((fresh restartHost .regnet).run restartHost restartCalls).height = 28 ∧
      ((fresh restartHost .regnet).run restartHost restartCalls).tipHash = restartTipHash ∧
      ((fresh restartHost .regnet).run restartHost restartCalls).tip =
        restartChain.getLast?.map (fun block => block.header) ∧
      ((fresh restartHost .regnet).run restartHost restartCalls).history =
        restartChain.map .connected := by
  decide +kernel

/-- One block back from a reload, 26 of the 27 blocks that the retarget reads are
resident, and it asks for another target than the whole chain does. -/
theorem restart_disconnect_target_ne :
    ∃ loaded, PersistedChainstate.tryIntoChainstate restartHost
        ⟨((fresh restartHost .regnet).run restartHost restartCalls).height,
          ((fresh restartHost .regnet).run restartHost restartCalls).tipHash,
          ((fresh restartHost .regnet).run restartHost restartCalls).tip, restartUtxos⟩
        .regnet (some ()) = .ok loaded ∧
      (loaded.run restartHost
          [(restartClock, .disconnectLastBlock)]).nextDifficultyTargetForTimestamp 1773363289 ≠
        targetForNextBlockWithTimestamp .regnet
          (genesisBlock .hashing .regnet :: canonicalChain
            (canonicalChain []
              ((fresh restartHost .regnet).run restartHost restartCalls).history)
            (loaded.run restartHost [(restartClock, .disconnectLastBlock)]).history)
          1773363289 := by
  obtain ⟨hheight, htipHash, htip, hhistory⟩ := restartCalls_saved
  have hchain : canonicalChain [] (restartChain.map .connected) = restartChain :=
    canonicalChain_connected [] [] restartChain
  rw [hheight, htipHash, htip, hhistory, hchain]
  have hdiffers : (match PersistedChainstate.tryIntoChainstate restartHost
        ⟨28, restartTipHash, restartChain.getLast?.map (fun block => block.header),
          restartUtxos⟩ .regnet (some ()) with
      | .error _ => false
      | .ok loaded => decide
          ((loaded.run restartHost
              [(restartClock, .disconnectLastBlock)]).nextDifficultyTargetForTimestamp
                1773363289 ≠
            targetForNextBlockWithTimestamp .regnet
              (genesisBlock .hashing .regnet :: canonicalChain restartChain
                (loaded.run restartHost [(restartClock, .disconnectLastBlock)]).history)
              1773363289)) = true := by
    decide +kernel
  split at hdiffers
  · cases hdiffers
  · next loaded hload => exact ⟨loaded, hload, of_decide_eq_true hdiffers⟩

/-- A host whose database holds genesis and one block after it. -/
def reloadHost : Host Unit :=
  { exampleHost with
    loadBlock := fun _ hash =>
      .ok ([genesisBlock .hashing .regnet, firstBlock].find? fun block =>
        block.header.blockHash .hashing == hash) }

def reloadCalls : List (UInt64 × Call) :=
  [(exampleClock, .connectBlock firstBlock)]

def reloadUtxos : List UtxoEntry :=
  [genesisBlock .hashing .regnet, firstBlock].flatMap (coinbaseEntries .hashing .regnet)

def laterCalls : List (UInt64 × Call) :=
  [(exampleClock, .disconnectLastBlock), (exampleClock + 60, .selectBranch [firstBlock])]

theorem restart_firstBlock_agrees :
    ∃ loaded, PersistedChainstate.tryIntoChainstate reloadHost
        ⟨((freshWithStorage reloadHost .regnet none).run reloadHost reloadCalls).height,
          ((freshWithStorage reloadHost .regnet none).run reloadHost reloadCalls).tipHash,
          ((freshWithStorage reloadHost .regnet none).run reloadHost reloadCalls).tip,
          reloadUtxos⟩
        .regnet (some ()) = .ok loaded ∧
      loaded.AgreesWith [genesisBlock reloadHost.crypto .regnet, firstBlock] ∧
      (loaded.run reloadHost laterCalls).AgreesWith
        (genesisBlock reloadHost.crypto .regnet ::
          canonicalChain [firstBlock] (loaded.run reloadHost laterCalls).history) := by
  have hchain : [firstBlock] = canonicalChain []
      ((freshWithStorage reloadHost .regnet none).run reloadHost reloadCalls).history := by
    decide +kernel
  have hstored : ∀ block ∈ [genesisBlock reloadHost.crypto .regnet, firstBlock],
      reloadHost.loadBlock () (block.header.blockHash reloadHost.crypto) =
        .ok (some block) := by
    decide +kernel
  have hsufficient : (match PersistedChainstate.tryIntoChainstate reloadHost
        ⟨((freshWithStorage reloadHost .regnet none).run reloadHost reloadCalls).height,
          ((freshWithStorage reloadHost .regnet none).run reloadHost reloadCalls).tipHash,
          ((freshWithStorage reloadHost .regnet none).run reloadHost reloadCalls).tip,
          reloadUtxos⟩ .regnet (some ()) with
      | .error _ => false
      | .ok loaded => decide (loaded.run reloadHost laterCalls).Sufficient) = true := by
    decide +kernel
  split at hsufficient
  · cases hsufficient
  · next loaded hload =>
      obtain ⟨hloaded, hlater⟩ := restart_agrees reloadHost .regnet none reloadCalls ()
        reloadUtxos loaded [firstBlock] hchain
        (fun block hmem found hfound => by
          rw [hstored block hmem] at hfound
          cases hfound
          rfl) hload
      exact ⟨loaded, hload, hloaded, hlater laterCalls (of_decide_eq_true hsufficient)⟩

end Chainstate

end Atho
