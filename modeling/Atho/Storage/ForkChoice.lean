import Atho.Library.BestOf
import Atho.Core.BranchWork
import Atho.Storage.Commitment
import Atho.Storage.Unpruned

/-! Fork choice among whole chains: selecting each of them once, in any order, ends
on the best one. -/

namespace Atho

open Std

/-- A chain on genesis that a chainstate without storage accepts block by block,
that may be reorganised and is kept whole, and in which no block spends an output
of its own. -/
structure Candidate (host : Host σ) (now : UInt64) (network : Network) (chain : List Block) :
    Prop where
  nonempty : chain ≠ []
  accepted : ∃ final, (Chainstate.fresh host network).connectBlocks host now chain =
    (.ok (), chain.length, final)
  reorg : chain.length ≤ (effectiveMaxReorgDepth host network).toNat
  kept : chain.length < retainedBlocks host network
  own : ∀ block ∈ chain, UtxoSet.spendsOwnOutput host.crypto block = false

/-- What is hashed to identify the chains: the headers of their blocks and of
genesis, and the trees over their transactions. -/
def chainHashInputs (crypto : Crypto) (network : Network) (chains : List (List Block)) :
    Set (List UInt8) :=
  {input | input = (genesisBlock crypto network).header.canonicalBytes ∨
    ∃ chain ∈ chains, ∃ block ∈ chain,
      input = block.header.canonicalBytes ∨ input ∈ block.commitmentInputs crypto}

theorem chainHashInputs_eq (crypto : Crypto) (network : Network)
    (chains : List (List Block)) :
    chainHashInputs crypto network chains =
      {input | input ∈ (genesisBlock crypto network).header.canonicalBytes ::
        chains.flatten.flatMap fun block =>
          block.header.canonicalBytes :: block.commitmentInputs crypto} := by
  ext input
  simp only [chainHashInputs, Set.mem_ofPred_eq, List.mem_cons, List.mem_flatMap,
    List.mem_flatten]
  constructor
  · rintro (hgenesis | ⟨chain, hchain, block, hblock, hinput⟩)
    · exact .inl hgenesis
    · exact .inr ⟨block, ⟨chain, hchain, hblock⟩, hinput⟩
  · rintro (hgenesis | ⟨block, ⟨chain, hchain, hblock⟩, hinput⟩)
    · exact .inl hgenesis
    · exact .inr ⟨chain, hchain, block, hblock, hinput⟩

namespace Chainstate

theorem extendAll_of_connectBlocks {host : Host σ} {now : UInt64} {network : Network}
    {chain blocks : List Block} {state final : Chainstate σ} {count : Nat}
    (hunpruned : Unpruned host.crypto network chain state.toChainMemory)
    (hconnect : state.connectBlocks host now blocks = (.ok (), count, final))
    (hroom : chain.length + blocks.length < retainedBlocks host network) :
    state.extendAll host.crypto now blocks = some final.toChainMemory := by
  induction blocks generalizing state chain count with
  | nil =>
      cases hconnect
      rfl
  | cons block rest ih =>
      rw [List.length_cons] at hroom
      obtain ⟨next, count, hfirst, hrest⟩ := connectBlocks_cons_ok hconnect
      obtain ⟨undo, utxos, storage, hvalid, happly, rfl⟩ := connectBlock_ok hfirst
      have hextend : state.extend host.crypto now block =
          some (state.pushBlock host.crypto block undo utxos) :=
        ChainMemory.extend_eq_some.mpr ⟨undo, utxos, hvalid, happly, rfl⟩
      have hkept := pruneHistoryToRetain_extend hextend
        (by rw [hunpruned.resident, List.length_cons]; omega :
          state.blocks.length < retainedBlocks host network)
      rw [hunpruned.network_eq, hkept] at hrest
      exact ChainMemory.extendAll_cons.mpr ⟨_, hextend,
        ih (hunpruned.extend hextend) hrest
          (by rw [List.length_append, List.length_singleton]; omega)⟩

end Chainstate

namespace Candidate

variable {host : Host σ} {now : UInt64} {network : Network} {chain : List Block}

theorem extendAll (hcandidate : Candidate host now network chain) :
    ∃ memory, (ChainMemory.genesis host.crypto network).extendAll host.crypto now chain =
        some memory := by
  obtain ⟨final, haccepted⟩ := hcandidate.accepted
  have hgenesis : Unpruned host.crypto network []
      (Chainstate.fresh host network).toChainMemory := .genesis host.crypto network
  exact ⟨_, Chainstate.extendAll_of_connectBlocks hgenesis haccepted
    (by simpa using hcandidate.kept)⟩

theorem length_lt (hcandidate : Candidate host now network chain) :
    chain.length < 2 ^ 64 - 1 := by
  have hkept := hcandidate.kept
  have hlt := ((effectivePruneDepth host network).saturatingAdd 1).toNat_lt
  rw [retainedBlocks] at hkept
  omega

theorem nodup (hcandidate : Candidate host now network chain) {chains : List (List Block)}
    (hhash : Set.InjOn host.crypto.sha3_384 (chainHashInputs host.crypto network chains))
    (hmem : chain ∈ chains) :
    (blockHashes host.crypto (genesisBlock host.crypto network :: chain)).Nodup := by
  obtain ⟨memory, hextend⟩ := hcandidate.extendAll
  have hunpruned := Unpruned.of_extendAll hextend
  have hlength := hcandidate.length_lt
  refine blockHashes_nodup hunpruned.numbered ?_ (hhash.mono ?_)
  · rw [List.length_cons]
    omega
  · rintro _ ⟨block, hblock, rfl⟩
    rcases List.mem_cons.mp hblock with rfl | hblock
    · exact .inl rfl
    · exact .inr ⟨chain, hmem, block, hblock, .inl rfl⟩

end Candidate

theorem chain_eq_of_tipHash {crypto : Crypto} {network : Network} {now : UInt64}
    {inputs : Set (List UInt8)} (hhash : Set.InjOn crypto.sha3_384 inputs)
    {left right : List Block} {memory memory' : ChainMemory}
    (hleft : (ChainMemory.genesis crypto network).extendAll crypto now left = some memory)
    (hright : (ChainMemory.genesis crypto network).extendAll crypto now right = some memory')
    (hinputs : ∀ block, block ∈ left ∨ block ∈ right →
      block.header.canonicalBytes ∈ inputs ∧ ∀ input ∈ block.commitmentInputs crypto, input ∈ inputs)
    (hlength : left.length = right.length) (htip : memory.tipHash = memory'.tipHash) :
    left = right := by
  induction left using List.reverseRecOn generalizing right memory memory' with
  | nil => exact (List.length_eq_zero_iff.mp hlength.symm).symm
  | append_singleton front block ih =>
      obtain ⟨front', block', rfl⟩ : ∃ front' block', right = front' ++ [block'] := by
        rcases List.eq_nil_or_concat right with rfl | ⟨front', block', rfl⟩
        · simp at hlength
        · exact ⟨front', block', List.concat_eq_append⟩
      obtain ⟨before, hfront, hlast⟩ := ChainMemory.extendAll_concat.mp hleft
      obtain ⟨before', hfront', hlast'⟩ := ChainMemory.extendAll_concat.mp hright
      obtain ⟨_, _, hvalid, -, rfl⟩ := ChainMemory.extend_eq_some.mp hlast
      obtain ⟨_, _, hvalid', -, rfl⟩ := ChainMemory.extend_eq_some.mp hlast'
      obtain ⟨accepted⟩ := ChainMemory.validateNext_ok hvalid
      obtain ⟨accepted'⟩ := ChainMemory.validateNext_ok hvalid'
      obtain ⟨hbytes, hcommitments⟩ := hinputs block (by simp)
      obtain ⟨hbytes', hcommitments'⟩ := hinputs block' (by simp)
      have hheader : block.header = block'.header :=
        BlockHeader.canonicalBytes_injective (hhash hbytes hbytes' htip)
      have hfronts : front = front' := by
        refine ih hfront hfront' (fun other hmem => hinputs other ?_) (by simpa using hlength) ?_
        · simp only [List.mem_append]
          exact hmem.imp .inl .inl
        · exact accepted.previous.symm.trans
            ((congrArg BlockHeader.previousBlockHash hheader).trans accepted'.previous)
      have htransactions := transactions_eq_of_accepted hheader accepted accepted'
        (hhash.mono fun input hinput =>
          hinput.elim (hcommitments input) (hcommitments' input))
      have hblocks : block = block' := by
        cases block
        cases block'
        cases hheader
        cases htransactions
        rfl
      rw [hfronts, hblocks]

theorem eq_of_compareBranchWork_eq {host : Host σ} {now : UInt64} {network : Network}
    {chains : List (List Block)} {left right : List Block}
    (hhash : Set.InjOn host.crypto.sha3_384 (chainHashInputs host.crypto network chains))
    (hcandidates : ∀ chain ∈ chains, Candidate host now network chain)
    (hleft : left ∈ chains) (hright : right ∈ chains)
    (hequal : compareBranchWork host.crypto left right = .eq) : left = right := by
  obtain ⟨-, hheights, hhashes⟩ := compareBranchWork_eq hequal
  obtain ⟨memory, hmemory⟩ := (hcandidates left hleft).extendAll
  obtain ⟨memory', hmemory'⟩ := (hcandidates right hright).extendAll
  have hunpruned := Unpruned.of_extendAll hmemory
  have hunpruned' := Unpruned.of_extendAll hmemory'
  obtain ⟨last, hlast, -, htip, hheight⟩ :=
    hunpruned.getLast? (hcandidates left hleft).nonempty
  obtain ⟨last', hlast', -, htip', hheight'⟩ :=
    hunpruned'.getLast? (hcandidates right hright).nonempty
  rw [hlast, hlast', Option.map_some, Option.map_some, Option.some.injEq] at hheights hhashes
  refine chain_eq_of_tipHash hhash hmemory hmemory' ?_ ?_ ?_
  · rintro block (hblock | hblock)
    · exact ⟨.inr ⟨left, hleft, block, hblock, .inl rfl⟩,
        fun input hinput => .inr ⟨left, hleft, block, hblock, .inr hinput⟩⟩
    · exact ⟨.inr ⟨right, hright, block, hblock, .inl rfl⟩,
        fun input hinput => .inr ⟨right, hright, block, hblock, .inr hinput⟩⟩
  · have hlength := hunpruned.height_toNat
    have hlength' := hunpruned'.height_toNat
    have hlt := (hcandidates left hleft).length_lt
    have hlt' := (hcandidates right hright).length_lt
    rw [hheight, hheights, ← hheight'] at hlength
    omega
  · rw [htip, htip', hhashes]

theorem Numbered.heights {blocks : List Block} (hnumbered : Numbered blocks) :
    blocks.IsChain fun left right =>
      right.header.height = left.header.height.saturatingAdd 1 := by
  rw [List.isChain_iff_getElem]
  intro index hindex
  have hleft := hnumbered index _ (List.getElem?_eq_getElem (by omega))
  have hright := hnumbered (index + 1) _ (List.getElem?_eq_getElem hindex)
  refine UInt64.toNat_inj.mp ?_
  rw [UInt64.toNat_saturatingAdd, UInt64.toNat_one, hleft, hright]
  omega

namespace Chainstate

section Selecting

variable {host : Host σ} {now : UInt64} {network : Network} {current branch : List Block}
  {state : Chainstate σ}

theorem planBranch_eq (hunpruned : Unpruned host.crypto network current state.toChainMemory)
    (hnodup : (blockHashes host.crypto (genesisBlock host.crypto network :: current)).Nodup)
    (hlength : current.length < 2 ^ 64)
    (hreorg : current.length ≤ (effectiveMaxReorgDepth host network).toNat)
    (hbranch : Candidate host now network branch) :
    state.planBranch host branch (state.maxReorgDepth host) =
      .ok ⟨genesisHash host.crypto network, 0, current⟩ := by
  obtain ⟨memory, hextend⟩ := hbranch.extendAll
  have hmemory := Unpruned.of_extendAll hextend
  obtain ⟨first, rest, rfl⟩ := List.exists_cons_of_ne_nil hbranch.nonempty
  have hlinked := List.isChain_cons_cons.mp hmemory.linked
  have hheights := List.isChain_cons_cons.mp hmemory.numbered.heights
  have hsequence := validateBranchSequence_eq hlinked.2 hheights.2
  have hfork : state.canonicalForkHeight host
      ((genesisBlock host.crypto network).header.blockHash host.crypto) = .ok 0 := by
    have hfirst : (genesisBlock host.crypto network :: current)[0]? =
        some (genesisBlock host.crypto network) := rfl
    have hlookup := lookup_buildBlockIndexByHash hnodup hfirst
    rw [← hunpruned.resident, ← hunpruned.index] at hlookup
    have hblock : state.blockByHeight host 0 =
        .ok (some (genesisBlock host.crypto network)) := blockByHeight_eq hunpruned rfl
    have hknown : state.knownBlockHeight host
        ((genesisBlock host.crypto network).header.blockHash host.crypto) = some 0 := by
      simp only [knownBlockHeight, hlookup, hunpruned.resident]
      rfl
    simp only [canonicalForkHeight, hknown, hblock, okOr, bind, Except.bind]
    simp [rejectWhen]
    rfl
  have hdepth : reorgDepthError state.height 0 (state.maxReorgDepth host) = none := by
    have hheight : state.height.toNat = current.length := by
      rw [hunpruned.height_toNat]
      omega
    have hdepth : ¬state.maxReorgDepth host < state.height.saturatingSub 0 := by
      rw [UInt64.not_lt, UInt64.le_iff_toNat_le, maxReorgDepth, hunpruned.network_eq]
      simpa [UInt64.saturatingSub, hheight] using hreorg
    rw [reorgDepthError]
    exact if_neg hdepth
  have hparent := hlinked.1
  have hfirst : first.header.height = (0 : UInt64).saturatingAdd 1 := hheights.1
  simp only [planBranch, hsequence, hparent, hfork, hfirst, bind, Except.bind, ne_eq,
    not_true_eq_false, decide_false, rejectWhen, canonicalBranchAfter_eq hunpruned hlength,
    hdepth]
  rw [UInt64.toNat_zero, List.drop_zero]
  cases current <;> rfl

/-- The state is the one that connecting the chain `current` on genesis gives. -/
structure Follows (host : Host σ) (now : UInt64) (network : Network)
    (current : Option (List Block)) (state : Chainstate σ) : Prop where
  extends_genesis : (ChainMemory.genesis host.crypto network).extendAll host.crypto now
    (current.getD []) = some state.toChainMemory
  storage : state.storage = none

theorem switchBranchIncrementally_eq {memory : ChainMemory}
    (hcurrent : Follows host now network (some current) state)
    (hnodup : (blockHashes host.crypto (genesisBlock host.crypto network :: current)).Nodup)
    (hown : ∀ block ∈ current, UtxoSet.spendsOwnOutput host.crypto block = false)
    (hextend : (ChainMemory.genesis host.crypto network).extendAll host.crypto now branch =
      some memory)
    (hroom : branch.length < retainedBlocks host network) :
    ∃ next, state.switchBranchIncrementally host now 0 current branch = (.ok (), next) ∧
      Follows host now network (some branch) next := by
  match hdisconnect : state.disconnectBlocks host current.length with
  | (result, count, back) =>
      obtain ⟨-, hback, hcases⟩ := disconnectBlocks_cases
        (.genesis host.crypto network) hcurrent.extends_genesis hnodup hdisconnect
        (Nat.le_refl _) (fun block hmem hspends => by simp [hown block hmem] at hspends)
      rcases hcases with ⟨rfl, rfl, -, hstorage⟩ | ⟨-, -, hstorage, -⟩
      · rw [Option.getD_some, Nat.sub_self, List.take_zero, ChainMemory.extendAll_nil,
          Option.some.injEq] at hback
        rw [hback] at hextend
        have hconnect := connectBlocks_of_extendAll hextend
          (hback ▸ Unpruned.genesis host.crypto network) (hstorage hcurrent.storage)
          (by simpa using hroom)
        refine ⟨⟨memory, none, back.history ++ branch.map .connected⟩, ?_, ?_⟩
        · simp only [switchBranchIncrementally, hdisconnect, hconnect]
        · exact ⟨by rw [hback]; exact hextend, rfl⟩
      · exact absurd hcurrent.storage hstorage

theorem selectBranch_follows {chains : List (List Block)} {best : Option (List Block)}
    (hhash : Set.InjOn host.crypto.sha3_384 (chainHashInputs host.crypto network chains))
    (hcandidates : ∀ chain ∈ chains, Candidate host now network chain)
    (hbest : ∀ chain ∈ best, chain ∈ chains) (hfollows : Follows host now network best state)
    (hbranch : branch ∈ chains) :
    ∃ outcome next, state.selectBranch host now branch = (.ok outcome, next) ∧
      Follows host now network (BestOf.keep (compareBranchWork host.crypto) best branch)
        next := by
  have hcandidate := hcandidates branch hbranch
  obtain ⟨memory, hextend⟩ := hcandidate.extendAll
  have hunpruned := Unpruned.of_extendAll hfollows.extends_genesis
  cases best with
  | none =>
      have hplan := planBranch_eq hunpruned (by simp [blockHashes]) (by simp) (by simp)
        hcandidate
      have hgenesis : ChainMemory.genesis host.crypto network = state.toChainMemory :=
        Option.some.inj hfollows.extends_genesis
      rw [hgenesis] at hextend
      have hconnect := connectBlocks_of_extendAll hextend hunpruned hfollows.storage
        (by simpa using hcandidate.kept)
      refine ⟨⟨.extended, []⟩, ⟨memory, none, state.history ++ branch.map .connected⟩, ?_, ?_⟩
      · simp only [selectBranch, selectBranchWithMaxReorgDepth, hplan, Option.getD_none, if_true,
          extendWithValidatedBranch, hconnect, reportSelection]
        rfl
      · exact ⟨by rw [hgenesis]; exact hextend, rfl⟩
  | some current =>
      have hmem := hbest current rfl
      have hcurrent := hcandidates current hmem
      have hnodup := hcurrent.nodup hhash hmem
      have hlength := hcurrent.length_lt
      have hplan := planBranch_eq hunpruned hnodup (by rw [Option.getD_some]; omega)
        hcurrent.reorg hcandidate
      rw [Option.getD_some] at hplan hunpruned
      cases hpreferred : branchIsPreferred host.crypto branch current with
      | false =>
          refine ⟨⟨.keptCurrent, []⟩, state, ?_, ?_⟩
          · simp [selectBranch, selectBranchWithMaxReorgDepth, hplan, hcurrent.nonempty,
              hpreferred]
          · rw [branchIsPreferred] at hpreferred
            simpa [BestOf.keep, hpreferred] using hfollows
      | true =>
          obtain ⟨next, hswitch, hnext⟩ := switchBranchIncrementally_eq hfollows hnodup
            hcurrent.own hextend hcandidate.kept
          have hincremental : state.canSwitchIncrementally host
              ⟨genesisHash host.crypto network, 0, current⟩ = true := by
            simp [canSwitchIncrementally, hunpruned.resident, hunpruned.undoStack_length,
              genesisHash, List.findIdx?_cons]
          refine ⟨⟨.reorged, current⟩, next, ?_, ?_⟩
          · simp [selectBranch, selectBranchWithMaxReorgDepth, hplan, hcurrent.nonempty,
              hpreferred, hincremental, hswitch, reportSelection, Except.map]
          · rw [branchIsPreferred] at hpreferred
            simpa [BestOf.keep, hpreferred] using hnext

/-- Select the branches one after the other, as long as all goes well. -/
def selectBranches (host : Host σ) (now : UInt64) :
    (state : Chainstate σ) → List (List Block) → Except StorageError (Chainstate σ)
  | state, [] => .ok state
  | state, branch :: rest =>
      match state.selectBranch host now branch with
      | (.error err, _) => .error err
      | (.ok _, next) => selectBranches host now next rest

theorem selectBranches_follows {chains order : List (List Block)} {best : Option (List Block)}
    (hhash : Set.InjOn host.crypto.sha3_384 (chainHashInputs host.crypto network chains))
    (hcandidates : ∀ chain ∈ chains, Candidate host now network chain)
    (hbest : ∀ chain ∈ best, chain ∈ chains) (hfollows : Follows host now network best state)
    (horder : ∀ chain ∈ order, chain ∈ chains) :
    ∃ final, state.selectBranches host now order = .ok final ∧
      Follows host now network
        (order.foldl (BestOf.keep (compareBranchWork host.crypto)) best) final := by
  induction order generalizing state best with
  | nil => exact ⟨state, rfl, hfollows⟩
  | cons branch rest ih =>
      rw [List.forall_mem_cons] at horder
      obtain ⟨outcome, next, hselect, hnext⟩ :=
        selectBranch_follows hhash hcandidates hbest hfollows horder.1
      have hkept : ∀ chain ∈ BestOf.keep (compareBranchWork host.crypto) best branch,
          chain ∈ chains := by
        intro chain hchain
        unfold BestOf.keep at hchain
        split at hchain
        · cases hchain
          exact horder.1
        · split at hchain <;> cases hchain
          · exact horder.1
          · exact hbest _ rfl
      obtain ⟨final, hfinal, hfollows⟩ := ih hkept hnext horder.2
      exact ⟨final, by rw [selectBranches, hselect]; exact hfinal, hfollows⟩

end Selecting

/-- Among chains whose hashes do not collide, every order of selecting each of them
once goes through, and ends on the tip and the UTXO set of the best one. -/
theorem selectBranches_order_independent (host : Host σ) (network : Network) (now : UInt64)
    (chains : List (List Block)) (hchains : chains ≠ [])
    (hcandidates : ∀ chain ∈ chains, Candidate host now network chain)
    (hhash : Set.InjOn host.crypto.sha3_384 (chainHashInputs host.crypto network chains)) :
    ∃ best ∈ chains,
      (∀ chain ∈ chains, (compareBranchWork host.crypto chain best).isLE) ∧
      ∃ utxos, ∀ order : List (List Block), order.Perm chains →
        ∃ final, (fresh host network).selectBranches host now order = .ok final ∧
          final.tip = best.getLast?.map (fun block => block.header) ∧
          final.utxos = utxos := by
  obtain ⟨best, hbest⟩ := BestOf.exists_bestOf (compareBranchWork host.crypto) hchains
  obtain ⟨hmem, hmax⟩ := BestOf.bestOf_spec hbest
  obtain ⟨memory, hextend⟩ := (hcandidates best hmem).extendAll
  refine ⟨best, hmem, hmax, memory.utxos, fun order hperm => ?_⟩
  have horder := BestOf.bestOf_eq_of_perm hperm
    (fun left hleft right hright => eq_of_compareBranchWork_eq hhash hcandidates hleft hright)
    hbest
  have hstart : Follows host now network none (fresh host network) := ⟨rfl, rfl⟩
  obtain ⟨final, hfinal, hfollows⟩ := selectBranches_follows hhash hcandidates
    (by simp) hstart (fun chain hchain => hperm.mem_iff.mp hchain)
  rw [BestOf.bestOf] at horder
  rw [horder] at hfollows
  have hmemory : some memory = some final.toChainMemory :=
    hextend.symm.trans hfollows.extends_genesis
  cases hmemory
  obtain ⟨last, hlast, htip, -⟩ :=
    (Unpruned.of_extendAll hextend).getLast? (hcandidates best hmem).nonempty
  exact ⟨final, hfinal, by rw [htip, hlast, Option.map_some], rfl⟩

/-- A mined prunetest block with nothing but its reward. -/
def forkBlock (height nonce timestamp : UInt64) (lock : UInt8) (previous : Bytes 48) : Block :=
  let coinbase := { UtxoSet.relayPayment [] 5000000000 with
    outputs := [⟨5000000000, List.replicate 32 lock⟩] }
  { header :=
      { (genesisBlock .hashing .prunetest).header with
        height := height
        previousBlockHash := previous
        merkleRoot := coinbase.txid .hashing
        witnessRoot := coinbase.txid .hashing
        timestamp := timestamp
        nonce := nonce }
    transactions := [coinbase] }

def longFork : List Block :=
  [forkBlock 1 42643 1773360590 1 (genesisHash .hashing .prunetest),
    forkBlock 2 49720 1773360690 2 (.ofNat 48
      0x9b679290461f5b68e26766f6bdb056c0ecc45fbb93b321684b1f6e1b96c80c85506f79fdae4ecd9be8279f588b4a)]

def shortFork : List Block :=
  [forkBlock 1 48608 1773360590 3 (genesisHash .hashing .prunetest)]

def forkClock : UInt64 := 1773360700

/-- A host on which prunetest keeps a single block besides genesis. -/
def shallowHost : Host Unit :=
  { exampleHost with prunetestPruneDepth := some 1 }

/-- Once the first of two blocks has been pruned, another chain on genesis can no
longer be compared with them. -/
theorem selectBranches_pruned_error :
    (∀ chain ∈ [longFork, shortFork], chain ≠ [] ∧
      ((fresh shallowHost .prunetest).connectBlocks shallowHost forkClock chain).1 = .ok () ∧
      chain.length ≤ (effectiveMaxReorgDepth shallowHost .prunetest).toNat ∧
      ∀ block ∈ chain, UtxoSet.spendsOwnOutput .hashing block = false) ∧
    (match (fresh shallowHost .prunetest).selectBranches shallowHost forkClock
        [longFork, shortFork] with
      | .ok _ => none
      | .error err => some err) = some .incompleteBlockHistory := by
  decide +kernel

theorem selectBranches_forks :
    ∃ best ∈ [longFork, shortFork],
      (∀ chain ∈ [longFork, shortFork],
        (compareBranchWork exampleHost.crypto chain best).isLE) ∧
      ∃ utxos, ∀ order : List (List Block), order.Perm [longFork, shortFork] →
        ∃ final, (fresh exampleHost .prunetest).selectBranches exampleHost forkClock order =
            .ok final ∧
          final.tip = best.getLast?.map (fun block => block.header) ∧
          final.utxos = utxos := by
  have haccepted : ∀ chain ∈ [longFork, shortFork],
      ((fresh exampleHost .prunetest).connectBlocks exampleHost forkClock chain).1 = .ok () ∧
      ((fresh exampleHost .prunetest).connectBlocks exampleHost forkClock chain).2.1 =
        chain.length := by
    decide +kernel
  have hbounds : ∀ chain ∈ [longFork, shortFork], chain ≠ [] ∧
      chain.length ≤ (effectiveMaxReorgDepth exampleHost .prunetest).toNat ∧
      chain.length < retainedBlocks exampleHost .prunetest ∧
      ∀ block ∈ chain, UtxoSet.spendsOwnOutput exampleHost.crypto block = false := by
    decide +kernel
  have hdigests : ((((genesisBlock exampleHost.crypto .prunetest).header.canonicalBytes ::
      [longFork, shortFork].flatten.flatMap fun block =>
        block.header.canonicalBytes :: block.commitmentInputs exampleHost.crypto).dedup).map
          exampleHost.crypto.sha3_384).Nodup := by
    decide +kernel
  refine selectBranches_order_independent exampleHost .prunetest forkClock
    [longFork, shortFork] (by simp) (fun chain hchain => ?_) ?_
  · obtain ⟨hok, hcount⟩ := haccepted chain hchain
    obtain ⟨hnonempty, hreorg, hkept, hown⟩ := hbounds chain hchain
    exact ⟨hnonempty, ⟨_, Prod.ext hok (Prod.ext hcount rfl)⟩, hreorg, hkept, hown⟩
  · rw [chainHashInputs_eq]
    intro left hleft right hright hequal
    exact List.inj_on_of_nodup_map hdigests (List.mem_dedup.mpr hleft)
      (List.mem_dedup.mpr hright) hequal

end Chainstate

end Atho
