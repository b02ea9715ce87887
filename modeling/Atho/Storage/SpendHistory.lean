import Atho.Storage.Authorization
import Atho.Storage.Restart
import Atho.Storage.Supply

/-! Where the outputs come from that the transactions of a canonical chain spend, and what all
outputs together are worth. -/

namespace Atho

open Journal

/-- Blocks from genesis on, each accepted against the set that the blocks before it leave. -/
inductive Vetted (crypto : Crypto) (network : Network) : List Block → UtxoSet → Prop where
  | genesis : Vetted crypto network [] (UtxoSet.genesisUtxos crypto network)
  | connect {chain : List Block} {set next : UtxoSet} {block : Block} {undo : BlockUndo}
      {now : UInt64} {context : BlockValidationContext} (hchain : Vetted crypto network chain set)
      (hutxos : context.utxos = set) (hnetwork : context.network = network)
      (accepted : Accepted crypto now block context scheduledActivations)
      (happly : set.applyBlock crypto block = (.ok undo, next)) :
      Vetted crypto network (chain ++ [block]) next

theorem Vetted.replayBlocks_eq {crypto : Crypto} {network : Network} {chain : List Block}
    {set : UtxoSet} (hvetted : Vetted crypto network chain set) :
    replayBlocks crypto (UtxoSet.genesisUtxos crypto network) chain = .ok set := by
  induction hvetted with
  | genesis => rfl
  | connect _ _ _ _ happly ih => exact replayBlocks_snoc ih happly

theorem Vetted.dropLast {crypto : Crypto} {network : Network} {chain : List Block}
    {set : UtxoSet} (hvetted : Vetted crypto network chain set) :
    ∃ before, Vetted crypto network chain.dropLast before := by
  cases hvetted with
  | genesis => exact ⟨_, .genesis⟩
  | connect hbefore => exact ⟨_, by rwa [List.dropLast_concat]⟩

namespace Chainstate

variable {host : Host σ} {network : Network} {now : UInt64} {state next : Chainstate σ}

/-- The state holds what its canonical chain leaves, and every block of the chain was accepted
at its place. -/
def HoldsVetted (host : Host σ) (network : Network) (state : Chainstate σ) : Prop :=
  state.network = network ∧ state.Tracks host network ∧
    ∃ set, Vetted host.crypto network (canonicalChain [] state.history) set

theorem HoldsVetted.vetted (hholds : state.HoldsVetted host network) :
    Vetted host.crypto network (canonicalChain [] state.history) state.utxos := by
  obtain ⟨-, ⟨undos, pruned, hresident⟩, set, hvetted⟩ := hholds
  have hsame := hvetted.replayBlocks_eq.symm.trans hresident.replays.replayBlocks_eq
  rwa [Except.ok.inj hsame] at hvetted

theorem holdsVetted_fresh (host : Host σ) (network : Network) (storage : Option σ) :
    (freshWithStorage host network storage).HoldsVetted host network :=
  ⟨rfl, tracks_fresh host network storage, _, .genesis⟩

theorem HoldsVetted.connected {block : Block} {undo : BlockUndo} {utxos : UtxoSet}
    (hholds : state.HoldsVetted host network)
    (hvalid : state.validateNext host.crypto now block = .ok ())
    (happly : state.utxos.applyBlock host.crypto block = (.ok undo, utxos))
    (retain : Nat) (storage : Option σ) :
    HoldsVetted host network
      ⟨(state.pushBlock host.crypto block undo utxos).pruneHistoryToRetain host.crypto retain,
        storage, state.history ++ [.connected block]⟩ := by
  obtain ⟨accepted⟩ := ChainMemory.validateNext_ok hvalid
  refine ⟨?_, hholds.2.1.connected happly retain storage, utxos, ?_⟩
  · simpa using hholds.1
  · rw [canonicalChain_snoc]
    exact .connect hholds.vetted rfl hholds.1 accepted happly

theorem HoldsVetted.step {event : ChainEvent} (hstep : Step host now state next)
    (hevent : next.history = state.history ++ [event])
    (hclean : event.clean host.crypto = true) (hholds : state.HoldsVetted host network) :
    next.HoldsVetted host network := by
  have htracks := hholds.2.1.step hstep hevent hclean hholds.1
  refine ⟨hstep.network_eq.trans hholds.1, htracks, ?_⟩
  -- only three kinds of steps change the chain
  cases hstep with
  | connected storage hvalid happly =>
      exact (hholds.connected hvalid happly _ storage).2.2
  | disconnected =>
      rw [canonicalChain_snoc]
      exact hholds.vetted.dropLast
  | @replaced blocks validated storage hvalidated =>
      obtain ⟨first, rest, count, rfl, hconnect⟩ := validateReplacementChain_ok hvalidated
      rw [hholds.1] at hconnect
      have hfinal : validated.HoldsVetted host network :=
        connectBlocks_invariant hconnect (HoldsVetted host network)
          (holdsVetted_fresh host network none)
          fun storage hvalid happly hbefore => hbefore.connected hvalid happly _ storage
      have hvetted := hfinal.vetted
      rw [connectBlocks_history hconnect, canonicalChain_connected] at hvetted
      rw [canonicalChain_snoc]
      exact ⟨_, hvetted⟩
  | withdrawn => exact canonicalChain_snoc [] _ _ ▸ hholds.2.2
  | clashed => exact canonicalChain_snoc [] _ _ ▸ hholds.2.2
  | reinstated => exact canonicalChain_snoc [] _ _ ▸ hholds.2.2
  | replaceFailed => exact canonicalChain_snoc [] _ _ ▸ hholds.2.2

theorem vetted_run (host : Host σ) (network : Network) (storage : Option σ)
    (calls : List (UInt64 × Call))
    (hclean : ∀ event ∈ ((freshWithStorage host network storage).run host calls).history,
      event.clean host.crypto = true) :
    Vetted host.crypto network
        (canonicalChain [] ((freshWithStorage host network storage).run host calls).history)
        ((freshWithStorage host network storage).run host calls).utxos ∧
      ((freshWithStorage host network storage).run host calls).RecallsHistory host network [] := by
  have hruns := run_runs host (freshWithStorage host network storage)
    fun timed (_ : timed ∈ calls) => Set.mem_univ timed.1
  obtain ⟨hholds, hrecalls⟩ := hruns.invariant (fun event => event.clean host.crypto = true)
    (fun state => state.HoldsVetted host network ∧ state.RecallsHistory host network [])
    ⟨holdsVetted_fresh host network storage, recallsHistory_fresh host network storage⟩
    (fun _ hstep hevent hclean hbefore =>
      ⟨hbefore.1.step hstep hevent hclean, hbefore.2.step hstep hbefore.1.1⟩) hclean
  exact ⟨hholds.vetted, hrecalls⟩

end Chainstate

/-! The transactions of a chain, each with the height of its block. -/

def Block.posts (block : Block) : List (UInt64 × Transaction) :=
  block.transactions.map (block.header.height, ·)

def chainPosts (network : Network) (chain : List Block) : List (UInt64 × Transaction) :=
  (0, genesisCoinbase network) :: chain.flatMap Block.posts

def postOps (crypto : Crypto) (network : Network) (posts : List (UInt64 × Transaction)) :
    List UtxoOp :=
  posts.flatMap fun post => transactionOps crypto network post.1 post.2

/-- What the transactions leave of an empty set. -/
def leftOver (crypto : Crypto) (network : Network) (posts : List (UInt64 × Transaction)) :
    UtxoKey → Option UtxoEntry :=
  applyAll (fun _ => none) (postOps crypto network posts)

variable {crypto : Crypto} {network : Network} {posts past : List (UInt64 × Transaction)}
  {post : UInt64 × Transaction}

theorem leftOver_append (later : List (UInt64 × Transaction)) :
    leftOver crypto network (posts ++ later) =
      applyAll (leftOver crypto network posts) (postOps crypto network later) := by
  rw [leftOver, postOps, List.flatMap_append]
  exact applyAll_append _ _ _

theorem bodyOps_cons (height : UInt64) (tx : Transaction) (rest : List Transaction) :
    bodyOps crypto network height (tx :: rest) =
      transactionOps crypto network height tx ++ bodyOps crypto network height rest :=
  rfl

theorem bodyOps_append (height : UInt64) (first second : List Transaction) :
    bodyOps crypto network height (first ++ second) =
      bodyOps crypto network height first ++ bodyOps crypto network height second := by
  simp [bodyOps]

theorem postOps_map (height : UInt64) (transactions : List Transaction) :
    postOps crypto network (transactions.map (height, ·)) =
      bodyOps crypto network height transactions := by
  rw [postOps, List.flatMap_map]
  rfl

theorem applyAll_spendOps {store : UtxoKey → Option UtxoEntry} {inputs : List TxInput}
    {key : UtxoKey} {entry : UtxoEntry} (hheld : applyAll store (spendOps inputs) key = some entry) :
    key ∉ inputs.map TxInput.key ∧ store key = some entry := by
  induction inputs generalizing store with
  | nil => exact ⟨List.not_mem_nil, hheld⟩
  | cons input inputs ih =>
      obtain ⟨hnot, hstore⟩ := ih hheld
      have hne : key ≠ input.key := by
        rintro rfl
        simp [Op.apply] at hstore
      exact ⟨by simp [hne, hnot], by simpa [Op.apply, hne] using hstore⟩

theorem applyAll_createOps {store : UtxoKey → Option UtxoEntry} {outputs : List UtxoEntry}
    {key : UtxoKey} {entry : UtxoEntry}
    (hheld : applyAll store (createOps outputs) key = some entry) :
    (entry ∈ outputs ∧ entry.key = key) ∨ store key = some entry := by
  induction outputs generalizing store with
  | nil => exact .inr hheld
  | cons output outputs ih =>
      rcases ih hheld with ⟨hmem, hkey⟩ | hstore
      · exact .inl ⟨List.mem_cons_of_mem _ hmem, hkey⟩
      · by_cases hkey : key = output.key
        · subst hkey
          obtain rfl : output = entry := by simpa [Op.apply] using hstore
          exact .inl ⟨List.mem_cons_self, rfl⟩
        · exact .inr (by simpa [Op.apply, hkey] using hstore)

/-- An output that `source` pays and that no transaction between it and the end of `past`
spends. -/
structure PaidBy (crypto : Crypto) (network : Network) (past : List (UInt64 × Transaction))
    (key : UtxoKey) (entry : UtxoEntry) (source : UInt64 × Transaction) : Prop where
  paid : entry ∈ UtxoSet.createOutputs crypto source.2 network source.1 ∧ entry.key = key
  unspent : ∃ older between, past = older ++ source :: between ∧
    ∀ other ∈ between, key ∉ other.2.inputs.map TxInput.key

theorem exists_paidBy {key : UtxoKey} {entry : UtxoEntry}
    (hheld : leftOver crypto network past key = some entry) :
    ∃ source, PaidBy crypto network past key entry source := by
  induction past using List.reverseRecOn with
  | nil => cases hheld
  | append_singleton past last ih =>
      rw [leftOver_append] at hheld
      simp only [postOps, List.flatMap_cons, List.flatMap_nil, List.append_nil, transactionOps,
        applyAll_append] at hheld
      rcases applyAll_createOps hheld with hpaid | hbefore
      · exact ⟨last, hpaid, past, [], rfl, by simp⟩
      · obtain ⟨hunspent, hstore⟩ := applyAll_spendOps hbefore
        obtain ⟨source, hpaid, older, between, rfl, hbetween⟩ := ih hstore
        refine ⟨source, hpaid, older, between ++ [last], by simp, fun other hother => ?_⟩
        rcases List.mem_append.mp hother with hother | hother
        · exact hbetween other hother
        · rwa [List.mem_singleton.mp hother]

/-- No output is named twice, and each is there and has the confirmations it needs. -/
def Funded (crypto : Crypto) (network : Network) (past : List (UInt64 × Transaction))
    (post : UInt64 × Transaction) : Prop :=
  (post.2.inputs.map TxInput.key).Nodup ∧ ∀ input ∈ post.2.inputs, ∃ entry,
    leftOver crypto network past input.key = some entry ∧ entry.isSpendableAt post.1 = true

/-- Every transaction of the list is funded by the ones before it. -/
def AllFunded (crypto : Crypto) (network : Network) (posts : List (UInt64 × Transaction)) : Prop :=
  ∀ past post future, posts = past ++ post :: future → Funded crypto network past post

theorem AllFunded.snoc (hposts : AllFunded crypto network posts)
    (hpost : Funded crypto network posts post) : AllFunded crypto network (posts ++ [post]) := by
  intro past other future hsplit
  rcases List.eq_nil_or_concat future with rfl | ⟨front, last, rfl⟩
  · obtain ⟨rfl, hlast⟩ := List.append_inj' hsplit rfl
    cases hlast
    exact hpost
  · rw [List.concat_eq_append, ← List.cons_append, ← List.append_assoc] at hsplit
    exact hposts past other front (List.append_inj' hsplit rfl).1

theorem Accepted.funded {now : UInt64} {block : Block} {context : BlockValidationContext}
    {undo : BlockUndo} {next : UtxoSet} {front back : List Transaction} {tx : Transaction}
    (accepted : Accepted crypto now block context scheduledActivations)
    (hnetwork : context.utxos.network = context.network)
    (happly : context.utxos.applyBlock crypto block = (.ok undo, next))
    (hposts : leftOver crypto context.network posts = context.utxos.get)
    (hsplit : block.transactions = front ++ tx :: back) :
    Funded crypto context.network (posts ++ front.map (block.header.height, ·))
      (block.header.height, tx) := by
  rw [accepted.transactions] at hsplit
  cases front with
  | nil =>
      obtain ⟨rfl, -⟩ := List.cons.inj hsplit
      simp [Funded, accepted.coinbaseInputs]
  | cons first earlier =>
      rw [List.cons_append] at hsplit
      obtain ⟨rfl, hrest⟩ := List.cons.inj hsplit
      obtain ⟨prepared, fee, hprepared, hcommon, -⟩ := accepted.checked hrest
      simp only [validateTransactionWithContextCommon, bind_eq_ok] at hcommon
      obtain ⟨total, hsum, -⟩ := hcommon
      refine ⟨hprepared.inputs_nodup, fun input hinput => ?_⟩
      obtain ⟨position, hposition⟩ := List.getElem?_of_mem hinput
      obtain ⟨entry, hentry, hvalid⟩ := sumInputs_validates hsum hposition
      simp only [validateInput, bind_eq_ok, rejectWhen_eq_ok, Bool.not_eq_false'] at hvalid
      obtain ⟨-, -, -, -, -, -, -, -, -, -, hspendable⟩ := hvalid
      refine ⟨entry, ?_, accepted.height ▸ hspendable⟩
      have hfree := accepted.runs_iff.mp (hnetwork ▸ UtxoSet.journaled_of_applyBlock happly).runs
      have hkeys := notMem_of_runs accepted.rest_runs.1 hfree accepted.put_coinbaseKey_notMem
      rw [Accepted.restOps, hrest, bodyOps_append, bodyOps_cons] at hkeys
      simp only [List.map_append, List.mem_append, not_or, transactionOps] at hkeys
      have hne : input.key ≠ accepted.coinbaseEntry.key := by
        intro heq
        refine hkeys.2.1.1 (heq ▸ List.mem_map.mpr ⟨.take input.key, ?_, rfl⟩)
        exact List.mem_map.mpr ⟨input, hinput, rfl⟩
      -- the coinbase output is the only one that the validator has not seen
      have hcoinbase : transactionOps crypto context.network context.height accepted.coinbase =
          [.put accepted.coinbaseEntry.key accepted.coinbaseEntry] := by
        rw [transactionOps, accepted.coinbaseInputs, accepted.createOutputs_coinbase]
        rfl
      rw [leftOver_append, hposts, postOps_map, accepted.height, bodyOps_cons, hcoinbase,
        List.singleton_append, applyAll_cons, Op.apply, applyAll_update hkeys.1,
        Function.update_of_ne hne]
      exact hentry

/-- The set of a vetted chain is what its transactions leave, and all of them are funded. -/
theorem Vetted.allFunded {chain : List Block} {set : UtxoSet}
    (hvetted : Vetted crypto network chain set) :
    set.network = network ∧ leftOver crypto network (chainPosts network chain) = set.get ∧
      AllFunded crypto network (chainPosts network chain) := by
  induction hvetted with
  | genesis =>
      refine ⟨UtxoSet.genesisUtxos_network crypto network, ?_, ?_⟩
      · have hget := @UtxoSet.get_insertAll (UtxoSet.new network) _
          (UtxoSet.createOutputs_network crypto (genesisCoinbase network) network 0)
        rw [funext (UtxoSet.get_new network)] at hget
        exact hget.symm
      · have hnone : AllFunded crypto network [] := by simp [AllFunded]
        exact hnone.snoc ⟨List.nodup_nil, by simp [genesisCoinbase]⟩
  | @connect chain set next block undo now context _ hutxos hnetwork accepted happly ih =>
      subst hutxos hnetwork
      obtain ⟨hsame, hleft, hfunded⟩ := ih
      have hjournaled := UtxoSet.journaled_of_applyBlock happly
      have hposts : chainPosts context.network (chain ++ [block]) =
          chainPosts context.network chain ++ block.posts := by
        simp [chainPosts]
      rw [hposts]
      refine ⟨hjournaled.network.trans hsame, ?_, ?_⟩
      · rw [leftOver_append, hleft, Block.posts, postOps_map, hjournaled.get, hsame]
        rfl
      -- one transaction of the block after the other
      · suffices hfront : ∀ front back, block.transactions = front ++ back →
            AllFunded crypto context.network
              (chainPosts context.network chain ++ front.map (block.header.height, ·)) from
          hfront block.transactions [] (List.append_nil _).symm
        intro front
        induction front using List.reverseRecOn with
        | nil => exact fun _ _ => by simpa using hfunded
        | append_singleton front tx ih =>
            intro back hsplit
            rw [List.append_assoc, List.singleton_append] at hsplit
            rw [List.map_append, ← List.append_assoc]
            exact (ih _ hsplit).snoc (accepted.funded hsame happly hleft hsplit)

/-- Every block of a vetted chain has added the subsidy of its height. -/
theorem Vetted.totalAtoms {chain : List Block} {set : UtxoSet}
    (hvetted : Vetted crypto network chain set)
    (hnumbered : Numbered (genesisBlock crypto network :: chain)) {height : UInt64}
    (hheight : height.toNat = chain.length + 1) :
    set.totalAtoms = cumulativeIssuedBeforeHeight height := by
  induction hvetted generalizing height with
  | genesis =>
      have hissued := @cumulativeIssuedBeforeHeight_succ 0 height hheight
      rw [UtxoSet.totalAtoms_genesisUtxos, hissued]
      simp [cumulativeIssuedBeforeHeight]
  | @connect chain set next block undo now context hchain hutxos hnetwork accepted happly ih =>
      subst hutxos hnetwork
      have hsame := hchain.allFunded.1
      rw [List.length_append, List.length_singleton] at hheight
      have hnumber := hnumbered (chain.length + 1) block (by simp)
      have hbound := height.toNat_lt
      rw [accepted.height, Nat.min_eq_left (by omega)] at hnumber
      rw [accepted.totalAtoms_applyBlock hsame happly,
        ih hnumbered.left hnumber,
        cumulativeIssuedBeforeHeight_succ (hheight.trans (congrArg (· + 1) hnumber.symm))]
      rfl

namespace Chainstate

theorem exampleCalls_run :
    (∀ event ∈ ((freshWithStorage exampleHost .regnet none).run exampleHost
      exampleCalls).history, event.clean exampleHost.crypto = true) ∧
      ((freshWithStorage exampleHost .regnet none).run exampleHost exampleCalls).height = 1 ∧
      canonicalChain [] ((freshWithStorage exampleHost .regnet none).run exampleHost
        exampleCalls).history = [firstBlock] := by
  decide +kernel

/-- Whatever calls are made, as long as every step is clean, the set is worth what has been
issued through the height of the tip. -/
theorem run_totalAtoms (host : Host σ) (network : Network) (storage : Option σ)
    (calls : List (UInt64 × Call))
    (hclean : ∀ event ∈ ((freshWithStorage host network storage).run host calls).history,
      event.clean host.crypto = true)
    (hheight : ((freshWithStorage host network storage).run host calls).height.toNat <
      2 ^ 64 - 1) :
    ((freshWithStorage host network storage).run host calls).utxos.totalAtoms =
      cumulativeIssuedThroughHeightForNetwork network
        ((freshWithStorage host network storage).run host calls).height := by
  obtain ⟨hvetted, hrecalls⟩ := vetted_run host network storage calls hclean
  obtain ⟨last, hlast, -, -, htip⟩ := hrecalls.tip
  have hnumber := hrecalls.numbered.getLast? hlast
  rw [← htip, List.length_cons] at hnumber
  refine hvetted.totalAtoms hrecalls.numbered ?_
  rw [UInt64.toNat_saturatingAdd, UInt64.toNat_one]
  omega

theorem reward_totalAtoms :
    ((freshWithStorage exampleHost .regnet none).run exampleHost exampleCalls).utxos.totalAtoms =
      cumulativeIssuedThroughHeightForNetwork .regnet 1 := by
  obtain ⟨hclean, hheight, -⟩ := exampleCalls_run
  rw [run_totalAtoms exampleHost .regnet none exampleCalls hclean (by rw [hheight]; decide),
    hheight]

end Chainstate

end Atho
