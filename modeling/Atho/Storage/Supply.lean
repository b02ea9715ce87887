import Atho.Storage.CanonicalChain

/-! Every accepted block raises the value of the UTXO set by the subsidy of its
height. -/

namespace Atho

open Journal Relation

def UtxoSet.totalAtoms (set : UtxoSet) : Nat :=
  weigh UtxoEntry.atoms set.entries

theorem UtxoSet.totalAtoms_run {set set' : UtxoSet} {ops : List UtxoOp}
    (hruns : Runs set.get ops) (hfinal : set'.get = applyAll set.get ops) :
    set'.totalAtoms + spentAtoms set.get ops = set.totalAtoms + createdAtoms ops :=
  weigh_run UtxoEntry.atoms hruns hfinal

theorem UtxoSet.totalAtoms_genesisUtxos (crypto : Crypto) (network : Network) :
    (genesisUtxos crypto network).totalAtoms = (getBlockRewardAtoms 0).toNat := by
  have hfinal : (genesisUtxos crypto network).get = applyAll (UtxoSet.new network).get
      (createOps (createOutputs crypto (genesisCoinbase network) network 0)) :=
    get_insertAll (createOutputs_network crypto _ network 0)
  have hnone : (UtxoSet.new network).get = fun _ => none := funext (get_new network)
  have hruns : Runs (UtxoSet.new network).get
      (createOps (createOutputs crypto (genesisCoinbase network) network 0)) := by
    rw [hnone]
    exact ⟨rfl, trivial⟩
  have htotal := totalAtoms_run hruns hfinal
  rw [spentAtoms_createOps, createdAtoms_createOutputs] at htotal
  have hempty : (UtxoSet.new network).totalAtoms = 0 := rfl
  simpa [hempty, genesisCoinbase, genesisCoinbaseAtomsForNetwork] using htotal

/-- Fees are taken from the inputs and paid to the coinbase, so what is left over
is the subsidy. -/
theorem Accepted.totalAtoms_applyBlock {crypto : Crypto} {now : UInt64} {block : Block}
    {context : BlockValidationContext} {schedule : List ScheduledActivation}
    {undo : BlockUndo} {set' : UtxoSet}
    (accepted : Accepted crypto now block context schedule)
    (hnetwork : context.utxos.network = context.network)
    (happly : context.utxos.applyBlock crypto block = (.ok undo, set')) :
    set'.totalAtoms = context.utxos.totalAtoms +
      (blockSubsidyAtomsForNetwork context.network context.height).toNat := by
  have hjournaled := UtxoSet.journaled_of_applyBlock happly
  rw [hnetwork] at hjournaled
  have hfree := accepted.runs_iff.mp hjournaled.runs
  have hnot := notMem_of_runs accepted.rest_runs.1 hfree accepted.put_coinbaseKey_notMem
  have htotal := UtxoSet.totalAtoms_run hjournaled.runs hjournaled.get
  have hspent : spentAtoms context.utxos.get (blockOps crypto context.network block) =
      spentAtoms context.utxos.get accepted.restOps := by
    rw [accepted.blockOps_eq, spentAtoms, takenWeight, taken, taken_update hnot]
    rfl
  have hcreated : createdAtoms (blockOps crypto context.network block) =
      accepted.output.valueAtoms.toNat + createdAtoms accepted.restOps := by
    rw [accepted.blockOps_eq]
    rfl
  have hfees := accepted.rest_runs.2.2
  have hreward := accepted.reward
  omega

namespace Chainstate

/-- A block has been connected, at whatever time. -/
def Connects (host : Host σ) (state next : Chainstate σ) : Prop :=
  ∃ now block, state.connectBlock host now block = (.ok (), next)

theorem Connects.totalAtoms {host : Host σ} {state next : Chainstate σ}
    (hconnects : Connects host state next) (hnetwork : state.utxos.network = state.network) :
    next.network = state.network ∧ next.utxos.network = next.network ∧
      next.height = state.height.saturatingAdd 1 ∧
      next.utxos.totalAtoms = state.utxos.totalAtoms +
        (blockSubsidyAtomsForNetwork next.network next.height).toNat := by
  obtain ⟨now, block, hconnect⟩ := hconnects
  obtain ⟨undo, utxos, storage, hvalid, happly, rfl⟩ := connectBlock_ok hconnect
  obtain ⟨accepted⟩ := ChainMemory.validateNext_ok hvalid
  have hjournaled := UtxoSet.journaled_of_applyBlock happly
  have htotal := accepted.totalAtoms_applyBlock hnetwork happly
  simp only [ChainMemory.pruneHistoryToRetain_network, ChainMemory.pushBlock_network,
    ChainMemory.pruneHistoryToRetain_utxos, ChainMemory.pruneHistoryToRetain_height]
  refine ⟨trivial, ?_, accepted.height, ?_⟩
  · exact hjournaled.network.trans hnetwork
  · simpa only [ChainMemory.pushBlock, accepted.height] using htotal

theorem totalAtoms_reached {host : Host σ} {network : Network} {storage : Option σ}
    {final : Chainstate σ}
    (hreached : ReflTransGen (Connects host) (freshWithStorage host network storage) final) :
    final.network = network ∧ final.utxos.network = final.network ∧
      (final.height.toNat < 2 ^ 64 - 1 →
        final.utxos.totalAtoms =
          cumulativeIssuedThroughHeightForNetwork network final.height) := by
  induction hreached with
  | refl =>
      refine ⟨rfl, UtxoSet.genesisUtxos_network host.crypto network, fun _ => ?_⟩
      have hone : (UInt64.saturatingAdd 0 1).toNat = (0 : UInt64).toNat + 1 := by decide
      change (UtxoSet.genesisUtxos host.crypto network).totalAtoms =
        cumulativeIssuedBeforeHeight (UInt64.saturatingAdd 0 1)
      rw [UtxoSet.totalAtoms_genesisUtxos, cumulativeIssuedBeforeHeight_succ hone]
      simp [cumulativeIssuedBeforeHeight]
  | @tail state next _ hconnects ih =>
      obtain ⟨hnetwork, hutxos, hissued⟩ := ih
      obtain ⟨hsame, hnextUtxos, hheight, htotal⟩ := hconnects.totalAtoms hutxos
      refine ⟨hsame.trans hnetwork, hnextUtxos, fun hbound => ?_⟩
      -- A saturated height stays at the bound, so the height before was below it too.
      have hnext := UInt64.toNat_saturatingAdd state.height 1
      rw [← hheight, UInt64.toNat_one] at hnext
      have hsucc := UInt64.toNat_saturatingAdd next.height 1
      rw [UInt64.toNat_one] at hsucc
      rw [htotal, hissued (by omega), hsame.trans hnetwork]
      unfold cumulativeIssuedThroughHeightForNetwork cumulativeIssuedThroughHeight
      rw [← hheight]
      exact (cumulativeIssuedBeforeHeight_succ (by omega)).symm

/-- On every chain of accepted blocks the UTXO set holds exactly what has been
issued through its height, and each further block adds its subsidy. -/
theorem totalAtoms_eq_issued {host : Host σ} {network : Network} {storage : Option σ}
    {final : Chainstate σ}
    (hreached : ReflTransGen (Connects host) (freshWithStorage host network storage) final)
    (hheight : final.height.toNat < 2 ^ 64 - 1) :
    final.utxos.totalAtoms = cumulativeIssuedThroughHeightForNetwork network final.height ∧
      ∀ next, Connects host final next →
        next.utxos.totalAtoms = final.utxos.totalAtoms +
          (blockSubsidyAtomsForNetwork network next.height).toNat := by
  obtain ⟨hnetwork, hutxos, hissued⟩ := totalAtoms_reached hreached
  refine ⟨hissued hheight, fun next hconnects => ?_⟩
  obtain ⟨hsame, -, -, htotal⟩ := hconnects.totalAtoms hutxos
  rw [htotal, hsame, hnetwork]

theorem totalAtoms_firstBlock :
    ∃ final, (freshWithStorage exampleHost .regnet none).connectBlock exampleHost exampleClock
        firstBlock = (.ok (), final) ∧
      final.height.toNat < 2 ^ 64 - 1 ∧
      final.utxos.totalAtoms =
        cumulativeIssuedThroughHeightForNetwork .regnet final.height := by
  have hconnect : ((freshWithStorage exampleHost .regnet none).connectBlock exampleHost
      exampleClock firstBlock).1 = .ok () := by
    decide +kernel
  have hheight : ((freshWithStorage exampleHost .regnet none).connectBlock exampleHost
      exampleClock firstBlock).2.height.toNat < 2 ^ 64 - 1 := by
    decide +kernel
  generalize hresult : (freshWithStorage exampleHost .regnet none).connectBlock exampleHost
    exampleClock firstBlock = outcome at hconnect hheight
  obtain ⟨result, final⟩ := outcome
  cases hconnect
  have hreached := ReflTransGen.single (show Connects exampleHost _ _ from
    ⟨exampleClock, firstBlock, hresult⟩)
  exact ⟨final, rfl, hheight, (totalAtoms_eq_issued hreached hheight).1⟩

end Chainstate

end Atho
