import Atho.Storage.Restart

/-! Verification of a whole chain from genesis on, next to the chainstate that
accepted it block by block. -/

namespace Atho

/-- The errors of the node that verification can end with. -/
inductive NodeError where
  | validation (err : ValidationError)
  | storage (err : StorageError)
  deriving DecidableEq

/-! The loop of the source. -/

structure VerificationState where
  utxos : UtxoSet
  previousBlocks : List Block

/-- One block of the loop; only the first has no predecessor. -/
def verifyNext (crypto : Crypto) (now : UInt64) (network : Network) (state : VerificationState)
    (block : Block) : Except NodeError VerificationState :=
  let expectedPreviousHash := (state.previousBlocks.getLast?.map fun previous =>
    previous.header.blockHash crypto).getD (.zero 48)
  let expectedTarget :=
    if state.previousBlocks.isEmpty then block.header.difficultyTargetOrBits
    else targetForNextBlock network state.previousBlocks
  match validateBlockWithContext crypto now block block.header.height network
      expectedPreviousHash expectedTarget state.previousBlocks state.utxos with
  | .error err => .error (.validation err)
  | .ok _ =>
      match state.utxos.applyBlock crypto block with
      | (.error err, _) => .error (.storage err)
      | (.ok _, utxos) => .ok ⟨utxos, state.previousBlocks ++ [block]⟩

def verifyCanonicalChain (crypto : Crypto) (now : UInt64) (network : Network)
    (blocks : List Block) : Except NodeError Nat :=
  if blocks.isEmpty then .ok 0
  else do
    let _ ← blocks.foldlM (verifyNext crypto now network) ⟨.new network, []⟩
    pure blocks.length

/-! What verification asks of a block, and what acceptance has checked. -/

/-- The block is not older than its predecessors allow. -/
def Block.Late (previous : List Block) (block : Block) : Prop :=
  ((minimumNextBlockTimestamp previous).any fun minimum =>
    decide (block.header.timestamp < minimum)) = false

instance (previous : List Block) (block : Block) : Decidable (block.Late previous) :=
  inferInstanceAs (Decidable (_ = _))

/-- The block has the target and a timestamp that its predecessors ask for, when the
target is computed without the timestamp. -/
structure Block.Conforms (network : Network) (previous : List Block) (block : Block) : Prop where
  target : block.header.difficultyTargetOrBits = targetForNextBlock network previous
  late : block.Late previous

/-- A valid block is valid behind other predecessors too, if its target and its
timestamp are what those ask for. -/
theorem validateBlockWithContext_iff_of_ok {crypto : Crypto} {now : UInt64} {block : Block}
    {height : UInt64} {network : Network} {previousHash target target' : Bytes 48}
    {previous previous' : List Block} {utxos : UtxoSet}
    (hvalid : validateBlockWithContext crypto now block height network previousHash target
      previous utxos = .ok ()) :
    validateBlockWithContext crypto now block height network previousHash target' previous'
        utxos = .ok () ↔
      block.header.difficultyTargetOrBits = target' ∧ block.Late previous' := by
  simp only [validateBlockWithContext_ok_iff, validateBlockOverlay,
    validateContextualHeaderPrecheck, bind_eq_ok, rejectWhen_eq_ok, decide_eq_false_iff_not,
    not_not] at hvalid ⊢
  obtain ⟨overlay, _, hstatic, _, ⟨_, hprevious, _, -, _, hclock, _, htarget, hwork⟩,
    hbody⟩ := hvalid
  constructor
  · rintro ⟨-, -, -, -, ⟨-, -, -, hlate, -, -, -, htarget', -⟩, -⟩
    exact ⟨htarget', hlate⟩
  · rintro ⟨htarget', hlate⟩
    refine ⟨overlay, (), hstatic, (), ⟨(), hprevious, (), hlate, (), hclock, (), htarget', ?_⟩,
      hbody⟩
    rwa [← htarget', htarget]

theorem verifyNext_eq_ok {crypto : Crypto} {now : UInt64} {network : Network}
    {state next : VerificationState} {block : Block} :
    verifyNext crypto now network state block = .ok next ↔
      validateBlockWithContext crypto now block block.header.height network
        ((state.previousBlocks.getLast?.map fun previous =>
          previous.header.blockHash crypto).getD (.zero 48))
        (if state.previousBlocks.isEmpty then block.header.difficultyTargetOrBits
          else targetForNextBlock network state.previousBlocks)
        state.previousBlocks state.utxos = .ok () ∧
      ∃ undo utxos, state.utxos.applyBlock crypto block = (.ok undo, utxos) ∧
        next = ⟨utxos, state.previousBlocks ++ [block]⟩ := by
  rw [verifyNext]
  generalize validateBlockWithContext crypto now block block.header.height network _ _ _ _ = valid
  rcases valid with err | ⟨⟩
  · simp
  · rcases state.utxos.applyBlock crypto block with ⟨err | undo, utxos⟩
    · simp
    · simp [eq_comm]

theorem forall_init_cons {P : List α → α → Prop} {head : α} {rest : List α} :
    (∀ before item, before ++ [item] <+: head :: rest → P before item) ↔
      P [] head ∧ ∀ before item, before ++ [item] <+: rest → P (head :: before) item := by
  constructor
  · intro hall
    exact ⟨hall [] head (by simp), fun before item hinit => hall _ _ (by simpa using hinit)⟩
  · rintro ⟨hhead, hrest⟩ before item hinit
    cases before with
    | nil =>
        obtain rfl : item = head := by simpa using hinit
        exact hhead
    | cons first before =>
        obtain ⟨rfl, hbefore⟩ := List.cons_prefix_cons.mp hinit
        exact hrest before item hbefore

namespace Chainstate

variable {host : Host σ} {network : Network} {now : UInt64}

/-- A block that was connected is verified behind its predecessors exactly if it conforms
to them. -/
theorem verifyNext_of_connected {state : Chainstate σ} {full : List Block} {block : Block}
    {undo : BlockUndo} {utxos : UtxoSet} {next : VerificationState}
    (hnetwork : state.network = network)
    (hrecalls : Recalls host.crypto full state.toChainMemory)
    (hvalid : state.validateNext host.crypto now block = .ok ())
    (happly : state.utxos.applyBlock host.crypto block = (.ok undo, utxos)) :
    verifyNext host.crypto now network ⟨state.utxos, full⟩ block = .ok next ↔
      block.Conforms network full ∧ next = ⟨utxos, full ++ [block]⟩ := by
  obtain ⟨last, hlast, -, htipHash, -⟩ := hrecalls.tip
  obtain ⟨accepted⟩ := ChainMemory.validateNext_ok hvalid
  have hheight : block.header.height = state.height.saturatingAdd 1 := accepted.height
  have hfull : full.isEmpty = false := by
    cases full with
    | nil => cases hlast
    | cons => rfl
  have hiff := @validateBlockWithContext_iff_of_ok _ _ _ _ _ _ _ (targetForNextBlock network full)
    _ full _ hvalid
  rw [← hheight, htipHash, hnetwork] at hiff
  simp only [verifyNext_eq_ok, hlast, Option.map_some, Option.getD_some, hfull, happly,
    Bool.false_eq_true, if_false, hiff, Prod.mk.injEq, Except.ok.injEq]
  constructor
  · rintro ⟨⟨htarget, hlate⟩, _, _, ⟨rfl, rfl⟩, rfl⟩
    exact ⟨⟨htarget, hlate⟩, rfl⟩
  · rintro ⟨hconforms, rfl⟩
    exact ⟨⟨hconforms.target, hconforms.late⟩, undo, utxos, ⟨rfl, rfl⟩, rfl⟩

theorem foldlM_verifyNext_of_connected {state final : Chainstate σ} {full blocks : List Block}
    {count : Nat} (hnetwork : state.network = network)
    (hrecalls : Recalls host.crypto full state.toChainMemory)
    (hconnect : state.connectBlocks host now blocks = (.ok (), count, final)) :
    (∃ last, blocks.foldlM (verifyNext host.crypto now network) ⟨state.utxos, full⟩ = .ok last) ↔
      ∀ before block, before ++ [block] <+: blocks → block.Conforms network (full ++ before) := by
  induction blocks generalizing state full count with
  | nil =>
      refine iff_of_true ⟨_, rfl⟩ fun before block hinit => ?_
      simp at hinit
  | cons block rest ih =>
      obtain ⟨next, count, hfirst, hrest⟩ := connectBlocks_cons_ok hconnect
      obtain ⟨undo, utxos, storage, hvalid, happly, rfl⟩ := connectBlock_ok hfirst
      have hlater := ih (by simpa using hnetwork) ((hrecalls.push hvalid).prune _) hrest
      rw [ChainMemory.pruneHistoryToRetain_utxos] at hlater
      simp only [List.append_assoc, List.singleton_append] at hlater
      simp only [forall_init_cons, List.foldlM_cons, bind_eq_ok, List.append_nil,
        verifyNext_of_connected hnetwork hrecalls hvalid happly, ← hlater]
      constructor
      · rintro ⟨last, _, ⟨hconforms, rfl⟩, hfold⟩
        exact ⟨hconforms, last, hfold⟩
      · rintro ⟨hconforms, last, hfold⟩
        exact ⟨last, _, ⟨hconforms, rfl⟩, hfold⟩

/-! What acceptance has checked, when enough blocks stay resident. -/

theorem min_retained_le_length_push {memory : ChainMemory} {block : Block} {undo : BlockUndo}
    {utxos : UtxoSet} {full : List Block} {retain : Nat}
    (hlength : min full.length retain ≤ memory.blocks.length) :
    min (full ++ [block]).length retain ≤
      ((memory.pushBlock host.crypto block undo utxos).pruneHistoryToRetain host.crypto
        retain).blocks.length := by
  rw [List.length_append, List.length_singleton]
  unfold ChainMemory.pruneHistoryToRetain
  split
  · simp only [ChainMemory.pushBlock, List.length_append, List.length_singleton]
    omega
  · next hfull =>
      simp only [ChainMemory.pushBlock, List.length_append, List.length_singleton, not_or,
        List.length_take, List.length_drop] at hfull ⊢
      omega

theorem agreesWith_of_retained {memory : ChainMemory} {full : List Block} {retain : Nat}
    (hrecalls : Recalls host.crypto full memory)
    (hlength : min full.length retain ≤ memory.blocks.length) (hreach : retargetReach < retain) :
    memory.AgreesWith full := by
  rcases Nat.lt_or_ge memory.blocks.length full.length with hlt | hge
  · obtain ⟨first, index, dropped, hblocks, -, -, -⟩ := hrecalls.cons
    refine hrecalls.agreesWith_of_suffix (hblocks ▸ List.suffix_cons first _)
      (List.drop_suffix dropped full) ?_
    have hcount : memory.blocks.length = (full.drop dropped).length + 1 := by
      rw [hblocks, List.length_cons]
    omega
  · exact hrecalls.agreesWith_of_length_eq (Nat.le_antisymm hrecalls.length_le hge)

/-- Every connected block has the target that its timestamp and all of its predecessors
ask for. -/
theorem target_of_connected {state final : Chainstate σ} {full blocks : List Block} {count : Nat}
    (hnetwork : state.network = network)
    (hrecalls : Recalls host.crypto full state.toChainMemory)
    (hlength : min full.length (retainedBlocks host network) ≤ state.blocks.length)
    (hreach : retargetReach < retainedBlocks host network)
    (hconnect : state.connectBlocks host now blocks = (.ok (), count, final)) :
    ∀ before block, before ++ [block] <+: blocks →
      block.header.difficultyTargetOrBits =
        targetForNextBlockWithTimestamp network (full ++ before) block.header.timestamp ∧
      block.Late (full ++ before) := by
  induction blocks generalizing state full count with
  | nil =>
      intro before block hinit
      simp at hinit
  | cons block rest ih =>
      obtain ⟨next, count, hfirst, hrest⟩ := connectBlocks_cons_ok hconnect
      obtain ⟨undo, utxos, storage, hvalid, happly, rfl⟩ := connectBlock_ok hfirst
      have hlater := ih (by simpa using hnetwork) ((hrecalls.push hvalid).prune _)
        (by rw [hnetwork]; exact min_retained_le_length_push hlength) hrest
      obtain ⟨htargets, hminimum⟩ := agreesWith_of_retained hrecalls hlength hreach
      have hself := (validateBlockWithContext_iff_of_ok hvalid).mp hvalid
      rw [htargets, hnetwork, Block.Late, hminimum] at hself
      rw [forall_init_cons, List.append_nil]
      exact ⟨hself, by simpa using hlater⟩

end Chainstate

/-! Genesis. -/

theorem genesisBlock_standard
    (verify : AthoSignatureDomain → List UInt8 → Bytes 48 → List UInt8 → Option Bool)
    (network : Network) :
    genesisBlock (.standard verify) network = genesisBlock .hashing network :=
  rfl

theorem validateBlockBody_genesis (crypto : Crypto) (network : Network) {context}
    (hheight : context.height = 0) (hnetwork : context.network = network) :
    ∃ overlay, validateBlockBody crypto (genesisBlock crypto network) (genesisCoinbase network) []
      context scheduledActivations = .ok overlay := by
  have hshape : validateCoinbaseTransactionShapeWithSchedule (genesisCoinbase network) 0
      scheduledActivations = .ok () := by
    cases network <;> decide +kernel
  have hreward : validateCoinbaseTransactionWithSchedule (genesisCoinbase network)
      (blockSubsidyAtomsForNetwork network 0) 0 scheduledActivations = .ok () := by
    cases network <;> decide +kernel
  have hadd : (blockSubsidyAtomsForNetwork network 0).checkedAdd 0 =
      some (blockSubsidyAtomsForNetwork network 0) := by
    cases network <;> decide +kernel
  have hinputs : (genesisCoinbase network).inputs = [] := by
    cases network <;> rfl
  refine ⟨.new context.utxos, ?_⟩
  simp [validateBlockBody, collectPreparedBlockTransactionsWithSchedule, prepareTransactions,
    validateBody, verifyTransactionSignatures, txidsAreUnique, blockInputsAreUnique, bind_eq_ok,
    rejectWhen_eq_ok, hheight, hnetwork, hshape, hreward, hadd, hinputs]

theorem applyBlock_genesis (crypto : Crypto) (network : Network) :
    ∃ undo, (UtxoSet.new network).applyBlock crypto (genesisBlock crypto network) =
      (.ok undo, UtxoSet.genesisUtxos crypto network) := by
  cases network <;> exact ⟨_, rfl⟩

theorem verifyNext_genesis {crypto : Crypto}
    {verify : AthoSignatureDomain → List UInt8 → Bytes 48 → List UInt8 → Option Bool}
    (hcrypto : crypto = .standard verify) (now : UInt64) (network : Network)
    {next : VerificationState} :
    verifyNext crypto now network ⟨.new network, []⟩ (genesisBlock crypto network) = .ok next ↔
      (genesisBlock crypto network).header.timestamp ≤
          now.saturatingAdd maxFutureBlockTimestampDriftSecs ∧
        next = ⟨UtxoSet.genesisUtxos crypto network, [genesisBlock crypto network]⟩ := by
  obtain ⟨undo, happly⟩ := applyBlock_genesis crypto network
  obtain ⟨overlay, hbody⟩ := @validateBlockBody_genesis crypto network
    ⟨0, network, .zero 48, (genesisBlock crypto network).header.difficultyTargetOrBits, [],
      .new network⟩ rfl rfl
  have hstatic : validateBlockStaticHeaderPrecheckWithSchedule (genesisBlock crypto network) 0
      network scheduledActivations = .ok () := by
    rw [hcrypto, genesisBlock_standard]
    cases network <;> decide +kernel
  have hwork : meetsTarget ((genesisBlock crypto network).header.blockHash crypto)
      (genesisBlock crypto network).header.difficultyTargetOrBits = true := by
    rw [hcrypto]
    change meetsTarget (genesisHash _ network) (genesisParts network).target = true
    rw [genesisHash_standard]
    cases network <;> decide +kernel
  have hvalid : validateBlockWithContext crypto now (genesisBlock crypto network) 0 network
      (.zero 48) (genesisBlock crypto network).header.difficultyTargetOrBits [] (.new network) =
        .ok () ↔ (genesisBlock crypto network).header.timestamp ≤
          now.saturatingAdd maxFutureBlockTimestampDriftSecs := by
    simp only [validateBlockWithContext_ok_iff, validateBlockOverlay,
      validateContextualHeaderPrecheck, validateBlockBodyCommitments, bind_eq_ok,
      rejectWhen_eq_ok, decide_eq_false_iff_not, not_not, UInt64.not_lt]
    constructor
    · rintro ⟨-, -, -, -, ⟨-, -, -, -, -, hclock, -⟩, -⟩
      exact hclock
    · intro hclock
      exact ⟨overlay, (), hstatic, (),
        ⟨(), rfl, (), rfl, (), hclock, (), trivial, by rw [hwork]; rfl⟩, (), ⟨(), rfl, rfl⟩, hbody⟩
  simp only [verifyNext_eq_ok, List.getLast?_nil, Option.map_none, Option.getD_none,
    List.isEmpty_nil, if_true, genesisBlock_height, hvalid, happly, List.nil_append,
    Prod.mk.injEq, Except.ok.injEq]
  refine and_congr_right fun _ => ?_
  constructor
  · rintro ⟨_, _, ⟨rfl, rfl⟩, rfl⟩
    rfl
  · rintro rfl
    exact ⟨undo, _, ⟨rfl, rfl⟩, rfl⟩

/-! The two drivers of the validator. -/

theorem targetForNextBlock_eq (network : Network) (previous : List Block) :
    targetForNextBlock network previous = nextTargetFromBlocks network previous := by
  rw [targetForNextBlock, targetForNextBlockWithTimestamp, if_neg]
  rintro ⟨-, hstalled⟩
  cases hlast : previous.getLast? with
  | none => simp [hlast] at hstalled
  | some last =>
      simp only [hlast, Option.map_some, Option.getD_some, decide_eq_true_eq,
        UInt64.lt_iff_toNat_lt, UInt64.toNat_saturatingSub, UInt64.toNat_saturatingAdd] at hstalled
      rw [show (UInt64.ofNat targetBlockTimeSeconds).toNat = 100 from rfl,
        show testnetStallResetSeconds.toNat = 600 from rfl] at hstalled
      omega

/-- A block that came late enough to reset the difficulty on testnet. -/
def Block.Stalled (previous : List Block) (block : Block) : Prop :=
  ∃ last, previous.getLast? = some last ∧
    testnetStallResetSeconds < block.header.timestamp.saturatingSub last.header.timestamp

theorem targets_agree_iff (network : Network) (previous : List Block) (block : Block) :
    targetForNextBlockWithTimestamp network previous block.header.timestamp =
        targetForNextBlock network previous ↔
      (network = .testnet → block.Stalled previous →
        nextTargetFromBlocks network previous = minDifficultyTarget) := by
  rw [targetForNextBlock_eq, targetForNextBlockWithTimestamp, Block.Stalled]
  cases previous.getLast? with
  | none => simp
  | some last =>
      simp only [Option.some.injEq, exists_eq_left', decide_eq_true_eq]
      split
      · next hreset =>
          rw [eq_comm]
          exact ⟨fun heq _ _ => heq, fun himp => himp hreset.1 hreset.2⟩
      · next hreset =>
          exact iff_of_true rfl fun htestnet hstalled => absurd ⟨htestnet, hstalled⟩ hreset

section

variable {σ : Type} {host : Host σ}
  {verify : AthoSignatureDomain → List UInt8 → Bytes 48 → List UInt8 → Option Bool}
  {network : Network} {now : UInt64} {storage : Option σ} {blocks : List Block}

theorem verifyCanonicalChain_iff_conforms (hcrypto : host.crypto = .standard verify)
    (hconnect : ((Chainstate.freshWithStorage host network storage).connectBlocks host now
      blocks).1 = .ok ()) :
    verifyCanonicalChain host.crypto now network (genesisBlock host.crypto network :: blocks) =
        .ok (blocks.length + 1) ↔
      (genesisBlock host.crypto network).header.timestamp ≤
          now.saturatingAdd maxFutureBlockTimestampDriftSecs ∧
        ∀ before block, before ++ [block] <+: blocks →
          block.Conforms network (genesisBlock host.crypto network :: before) := by
  rcases hresult : (Chainstate.freshWithStorage host network storage).connectBlocks host now
    blocks with ⟨result, count, final⟩
  rw [hresult] at hconnect
  subst hconnect
  have hnetwork : (Chainstate.freshWithStorage host network storage).network = network := rfl
  have hloop := Chainstate.foldlM_verifyNext_of_connected hnetwork
    (.genesis host.crypto network) hresult
  simp only [verifyCanonicalChain, List.isEmpty_cons, Bool.false_eq_true, if_false, bind_eq_ok,
    List.foldlM_cons, verifyNext_genesis hcrypto, List.length_cons]
  constructor
  · rintro ⟨last, ⟨_, ⟨hclock, rfl⟩, hfold⟩, -⟩
    exact ⟨hclock, by simpa using hloop.mp ⟨last, hfold⟩⟩
  · rintro ⟨hclock, hconforms⟩
    obtain ⟨last, hfold⟩ := hloop.mpr (by simpa using hconforms)
    exact ⟨last, ⟨_, ⟨hclock, rfl⟩, hfold⟩, rfl⟩

/-- A chain that was accepted under a clock is verified under it exactly if every block has
the target and the timestamp that all of its predecessors ask for. With the memory that
all networks keep by default, that fails only for a testnet block whose late timestamp has
reset the difficulty. -/
theorem verify_accepted_chain_iff (hcrypto : host.crypto = .standard verify)
    (hconnect : ((Chainstate.freshWithStorage host network storage).connectBlocks host now
      blocks).1 = .ok ()) :
    (verifyCanonicalChain host.crypto now network (genesisBlock host.crypto network :: blocks) =
        .ok (blocks.length + 1) ↔
      (genesisBlock host.crypto network).header.timestamp ≤
          now.saturatingAdd maxFutureBlockTimestampDriftSecs ∧
        ∀ before block, before ++ [block] <+: blocks →
          block.Conforms network (genesisBlock host.crypto network :: before)) ∧
    (retargetReach < retainedBlocks host network →
      (verifyCanonicalChain host.crypto now network (genesisBlock host.crypto network :: blocks) =
          .ok (blocks.length + 1) ↔
        (genesisBlock host.crypto network).header.timestamp ≤
            now.saturatingAdd maxFutureBlockTimestampDriftSecs ∧
          ∀ before block, before ++ [block] <+: blocks → network = .testnet →
            block.Stalled (genesisBlock host.crypto network :: before) →
            nextTargetFromBlocks network (genesisBlock host.crypto network :: before) =
              minDifficultyTarget)) := by
  have hverified := verifyCanonicalChain_iff_conforms hcrypto hconnect
  refine ⟨hverified, fun hreach => hverified.trans (and_congr_right fun _ => ?_)⟩
  rcases hresult : (Chainstate.freshWithStorage host network storage).connectBlocks host now
    blocks with ⟨result, count, final⟩
  rw [hresult] at hconnect
  subst hconnect
  have hnetwork : (Chainstate.freshWithStorage host network storage).network = network := rfl
  have hlength : min [genesisBlock host.crypto network].length (retainedBlocks host network) ≤
      (Chainstate.freshWithStorage host network storage).blocks.length :=
    Nat.min_le_left _ _
  have htargets := Chainstate.target_of_connected hnetwork (.genesis host.crypto network)
    hlength hreach hresult
  refine forall_congr' fun before => forall_congr' fun block => forall_congr' fun hinit => ?_
  obtain ⟨htarget, hlate⟩ := htargets before block hinit
  rw [List.singleton_append] at htarget hlate
  rw [← targets_agree_iff, ← htarget]
  exact ⟨Block.Conforms.target, fun heq => ⟨heq, hlate⟩⟩

end

/-! A testnet chain with two quick blocks and one after a long gap. -/

def quickBlocks : List Block :=
  [rewardBlock .testnet 1 (List.replicate 32 1) 1773360589 3789 (2 ^ 368 - 1)
      33634492084976078969090262872034708285631368294600640280720988040639247752709217741094218591584002792356814521,
    rewardBlock .testnet 2 (List.replicate 32 2) 1773360590 279716 (2 ^ 368 - 1)
      575333924025848690232118950091680265130023882775369741692720898072274259233123292159722191825356769444656985933]

def stalledBlock : Block :=
  rewardBlock .testnet 3 (List.replicate 32 3) 1773361191 27080 (2 ^ 368 - 1)
    229164194889695903827971939288567105565387702528210381569887536024348221111948219806492909037982760784234963479

theorem stalled_block_accepted_not_verified :
    ((Chainstate.fresh Chainstate.exampleHost .testnet).connectBlocks Chainstate.exampleHost
        exampleClock (quickBlocks ++ [stalledBlock])).1 = .ok () ∧
      verifyCanonicalChain .hashing exampleClock .testnet
        (genesisBlock .hashing .testnet :: (quickBlocks ++ [stalledBlock])) =
          .error (.validation .blockTargetOutOfBounds) := by
  decide +kernel

theorem quick_blocks_verified :
    ((Chainstate.fresh Chainstate.exampleHost .testnet).connectBlocks Chainstate.exampleHost
        exampleClock quickBlocks).1 = .ok () ∧
      verifyCanonicalChain .hashing exampleClock .testnet
        (genesisBlock .hashing .testnet :: quickBlocks) = .ok 3 := by
  have hconnect : ((Chainstate.fresh Chainstate.exampleHost .testnet).connectBlocks
      Chainstate.exampleHost exampleClock quickBlocks).1 = .ok () := by
    decide +kernel
  refine ⟨hconnect, (@verify_accepted_chain_iff _ Chainstate.exampleHost _ _ _ none _ rfl
    hconnect).1.mpr ⟨by decide +kernel, ?_⟩⟩
  rw [quickBlocks, forall_init_cons, forall_init_cons]
  refine ⟨⟨by decide +kernel, by decide +kernel⟩, ⟨by decide +kernel, by decide +kernel⟩, ?_⟩
  intro before block hinit
  simp at hinit

end Atho
