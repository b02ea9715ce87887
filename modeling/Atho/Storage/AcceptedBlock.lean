import Atho.Storage.BlockValidation
import Atho.Storage.UtxoJournal

/-! What an accepted block satisfies, and the overlay of the validator against
the UTXO set that applies the block. -/

namespace Atho

open Journal

/-! The overlay as a store. -/

namespace UtxoOverlay

theorem get_new (base : UtxoSet) : (new base).get = base.get := by
  funext key
  simp [get, new]

theorem remove_ok {overlay overlay' : UtxoOverlay} {entry : UtxoEntry}
    (hremove : overlay.remove key = .ok (entry, overlay')) :
    overlay.get key = some entry ∧ overlay'.get = Function.update overlay.get key none := by
  unfold remove at hremove
  split at hremove
  · next found hadded =>
      cases hremove
      refine ⟨by simp [get, hadded], ?_⟩
      funext other
      by_cases hother : other = key
      · subst hother
        have hfresh := overlay.added_fresh (Finmap.mem_iff.mpr ⟨_, hadded⟩)
        rcases hfresh with hremoved | hbase
        · simp [get, hremoved]
        · simp [get, hbase]
      · simp [get, hother, Finmap.lookup_erase_ne hother]
  · next hadded =>
      split at hremove
      · cases hremove
      · next hremoved =>
          split at hremove
          · cases hremove
          · next found hbase =>
              cases hremove
              refine ⟨by simp [get, hadded, hremoved, hbase], ?_⟩
              funext other
              by_cases hother : other = key
              · subst hother
                simp [get, hadded]
              · simp [get, hother]

theorem insert_ok {overlay overlay' : UtxoOverlay} {entry : UtxoEntry}
    (hinsert : overlay.insert entry = .ok overlay') :
    overlay.get entry.key = none ∧
      overlay'.get = Function.update overlay.get entry.key (some entry) := by
  unfold insert at hinsert
  split at hinsert
  · cases hinsert
  · next hclash =>
      cases hinsert
      simp only [not_or, not_and, Option.not_isSome_iff_eq_none] at hclash
      have hadded : overlay.added.lookup entry.key = none :=
        Finmap.lookup_eq_none.mpr hclash.1
      refine ⟨?_, ?_⟩
      · by_cases hremoved : entry.key ∈ overlay.removed
        · simp [get, hadded, hremoved]
        · simp [get, hadded, hremoved, hclash.2 hremoved]
      · funext other
        by_cases hother : other = entry.key
        · subst hother
          simp [get]
        · simp [get, hother, Finmap.lookup_insert_of_ne _ hother]

end UtxoOverlay

theorem overlaySpendInputs_ok {overlay overlay' : UtxoOverlay} {seen seen' : Finset UtxoKey}
    {inputs : List TxInput}
    (hspend : overlaySpendInputs overlay seen inputs = .ok (overlay', seen')) :
    Runs overlay.get (spendOps inputs) ∧
      overlay'.get = applyAll overlay.get (spendOps inputs) := by
  induction inputs generalizing overlay seen with
  | nil =>
      cases hspend
      exact ⟨trivial, rfl⟩
  | cons input inputs ih =>
      simp only [overlaySpendInputs, bind_eq_ok, rejectWhen_eq_ok] at hspend
      obtain ⟨-, -, ⟨entry, next⟩, hremove, hrest⟩ := hspend
      obtain ⟨hentry, hnext⟩ := UtxoOverlay.remove_ok hremove
      obtain ⟨hruns, hfinal⟩ := ih hrest
      rw [hnext] at hruns hfinal
      exact ⟨⟨by simp [Op.enabled, hentry], hruns⟩, hfinal⟩

theorem overlayInsertOutputs_ok {overlay overlay' : UtxoOverlay} {outputs : List UtxoEntry}
    (hinsert : overlayInsertOutputs overlay outputs = .ok overlay') :
    Runs overlay.get (createOps outputs) ∧
      overlay'.get = applyAll overlay.get (createOps outputs) := by
  induction outputs generalizing overlay with
  | nil =>
      cases hinsert
      exact ⟨trivial, rfl⟩
  | cons output outputs ih =>
      simp only [overlayInsertOutputs, bind_eq_ok] at hinsert
      obtain ⟨next, houtput, hrest⟩ := hinsert
      obtain ⟨hfree, hnext⟩ := UtxoOverlay.insert_ok houtput
      obtain ⟨hruns, hfinal⟩ := ih hrest
      rw [hnext] at hruns hfinal
      exact ⟨⟨by simp [Op.enabled, hfree], hruns⟩, hfinal⟩

/-- The facts that the preparation of a transaction establishes. -/
structure Prepared (crypto : Crypto) (tx : Transaction) (network : Network) (height : UInt64)
    (schedule : List ScheduledActivation) (prepared : PreparedTransactionValidation) : Prop where
  inputs_ne : tx.inputs ≠ []
  outputs_ne : tx.outputs ≠ []
  version : isSupportedTransactionVersionWithSchedule tx.version height schedule = true
  outputs_le : tx.outputs.length ≤ maximumStandardOutputs network tx
  size : tx.fullSizeBytes ≤ maxTransactionRawBytes
  inputs_nodup : (tx.inputs.map TxInput.key).Nodup
  locks : ∀ output ∈ tx.outputs, output.lockingScript.length = 32
  txid : prepared.txid = tx.txid crypto
  witness : ∃ witness, tx.witnessPayload = some witness ∧ witness.signerGroupCount ≠ 0 ∧
    witness.totalInputRefs = tx.inputs.length ∧ prepared.signerGroups = witness.signerGroups ∧
    assignSignerGroups crypto (tx.txid crypto) 0 none
      (List.replicate tx.inputs.length none) witness.signerGroups =
        .ok prepared.signerGroupByInput
  assigned : none ∉ prepared.signerGroupByInput

theorem prepared_of_ok {crypto : Crypto} {tx : Transaction} {feeAtoms : UInt64}
    {network : Network} {height : UInt64} {schedule : List ScheduledActivation}
    {prepared : PreparedTransactionValidation}
    (hprepare : prepareTransactionValidation crypto tx feeAtoms network height schedule =
      .ok prepared) :
    Prepared crypto tx network height schedule prepared := by
  simp only [prepareTransactionValidation, bind_eq_ok, rejectWhen_eq_ok, okOr_eq_ok,
    pure_eq_ok] at hprepare
  obtain ⟨-, hcoinbase, -, hversion, -, houtputs, -, hcount, -, hsize, -, -, -, hinputs, -, -,
    -, -, -, hlocks, witness, hwitness, -, hgroups, -, hrefs, byInput, hassign, -, hassigned,
    rfl⟩ := hprepare
  simp only [Bool.not_eq_false', decide_eq_false_iff_not, not_or, not_lt, not_not,
    List.any_eq_false] at *
  exact
    { inputs_ne := by simpa [Transaction.isCoinbase] using hcoinbase
      outputs_ne := by simpa using houtputs
      version := hversion
      outputs_le := hcount
      size := hsize.1
      inputs_nodup := hinputs
      locks := by simpa [paymentDigestFromLockingScript] using hlocks
      txid := rfl
      witness := ⟨witness, hwitness, hgroups, hrefs, rfl, hassign⟩
      assigned := by simpa using hassigned }

theorem prepareTransactions_ok {crypto : Crypto} {network : Network} {height : UInt64}
    {schedule : List ScheduledActivation} {transactions : List Transaction}
    {prepared : List PreparedTransactionValidation}
    (hprepare : prepareTransactions crypto network height schedule transactions =
      .ok prepared) :
    List.Forall₂ (Prepared crypto · network height schedule ·) transactions prepared := by
  induction transactions generalizing prepared with
  | nil =>
      cases hprepare
      exact .nil
  | cons tx transactions ih =>
      simp only [prepareTransactions, bind_eq_ok, pure_eq_ok] at hprepare
      obtain ⟨first, hfirst, rest, hrest, rfl⟩ := hprepare
      exact .cons (prepared_of_ok hfirst) (ih hrest)

/-! Transactions against the overlay. -/

/-- The transaction spends its inputs from the store it is checked against and
pays `fee` above its outputs. -/
structure Balanced (store : UtxoKey → Option UtxoEntry) (tx : Transaction) (fee : UInt64) :
    Prop where
  present : ∀ input ∈ tx.inputs, (store input.key).isSome
  value : (tx.inputs.map fun input =>
      ((store input.key).map fun entry => entry.valueAtoms.toNat).getD 0).sum =
    (tx.outputs.map fun output => output.valueAtoms.toNat).sum + fee.toNat

theorem sumInputs_ok {crypto : Crypto} {prepared : PreparedTransactionValidation}
    {network : Network} {spendHeight : UInt64} {lookup : UtxoKey → Option UtxoEntry}
    {index : Nat} {total sum : UInt64} {inputs : List TxInput}
    (hsum : sumInputs crypto prepared network spendHeight lookup index total inputs =
      .ok sum) :
    (∀ input ∈ inputs, (lookup input.key).isSome) ∧
      sum.toNat = total.toNat + (inputs.map fun input =>
        ((lookup input.key).map fun entry => entry.valueAtoms.toNat).getD 0).sum := by
  induction inputs generalizing index total with
  | nil =>
      cases hsum
      simp
  | cons input inputs ih =>
      simp only [sumInputs, bind_eq_ok, okOr_eq_ok] at hsum
      obtain ⟨utxo, hutxo, -, -, next, hnext, hrest⟩ := hsum
      obtain ⟨hpresent, hvalue⟩ := ih hrest
      rw [UInt64.checkedAdd_eq_some] at hnext
      refine ⟨List.forall_mem_cons.mpr ⟨by simp [hutxo], hpresent⟩, ?_⟩
      rw [hvalue, hnext, List.map_cons, List.sum_cons, hutxo]
      simp only [Option.map_some, Option.getD_some]
      omega

theorem balanced_of_ok {crypto : Crypto} {tx : Transaction}
    {prepared : PreparedTransactionValidation} {network : Network} {spendHeight fee : UInt64}
    {lookup : UtxoKey → Option UtxoEntry}
    (hcommon : validateTransactionWithContextCommon crypto tx prepared network spendHeight
      lookup = .ok fee) :
    Balanced lookup tx fee := by
  simp only [validateTransactionWithContextCommon, bind_eq_ok, okOr_eq_ok, rejectWhen_eq_ok,
    pure_eq_ok, decide_eq_false_iff_not] at hcommon
  obtain ⟨inputTotal, hinputs, outputTotal, houtputs, -, hle, rfl⟩ := hcommon
  obtain ⟨hpresent, hinputSum⟩ := sumInputs_ok hinputs
  have houtputSum := UInt64.checkedSum_eq_some houtputs
  rw [UInt64.not_lt] at hle
  refine ⟨hpresent, ?_⟩
  rw [UInt64.toNat_sub_of_le _ _ hle]
  rw [UInt64.le_iff_toNat_le] at hle
  simp only [UInt64.toNat_zero, List.map_map, Function.comp_def, zero_add] at hinputSum houtputSum
  omega

theorem overlayOutputs_eq {crypto : Crypto} {tx : Transaction} {network : Network}
    {height : UInt64} (hinputs : tx.inputs ≠ []) :
    overlayOutputs tx (tx.txid crypto) network height =
      UtxoSet.createOutputs crypto tx network height := by
  have hcoinbase : tx.isCoinbase = false := by simpa [Transaction.isCoinbase] using hinputs
  simp only [overlayOutputs, UtxoSet.createOutputs, hcoinbase]

/-- One pass of the body loop does to the overlay what applying the transaction
does to a set. -/
theorem validateBodyTransaction_ok {crypto : Crypto} {network : Network} {height : UInt64}
    {witnessRoot : Bytes 48} {schedule : List ScheduledActivation} {state state' : BodyState}
    {tx : Transaction} {prepared : PreparedTransactionValidation}
    (hprepared : Prepared crypto tx network height schedule prepared)
    (hbody : validateBodyTransaction crypto network height witnessRoot state tx prepared =
      .ok state') :
    Runs state.overlay.get (transactionOps crypto network height tx) ∧
      state'.overlay.get =
        applyAll state.overlay.get (transactionOps crypto network height tx) ∧
      ∃ fee, Balanced state.overlay.get tx fee ∧
        state'.sumFees.toNat = state.sumFees.toNat + fee.toNat := by
  simp only [validateBodyTransaction, validateTransactionWithContextMinimumFeePrepared,
    bind_eq_ok, okOr_eq_ok, rejectWhen_eq_ok, pure_eq_ok] at hbody
  obtain ⟨_, ⟨fee, hcommon, -, -, -, -, rfl⟩, ⟨spent, seen⟩, hspend, -, -, sumFees, hfees,
    created, hcreate, rfl⟩ := hbody
  obtain ⟨hspendRuns, hspent⟩ := overlaySpendInputs_ok hspend
  obtain ⟨hcreateRuns, hcreated⟩ := overlayInsertOutputs_ok hcreate
  rw [hprepared.txid, overlayOutputs_eq hprepared.inputs_ne, hspent] at hcreateRuns hcreated
  refine ⟨(runs_append _ _ _).mpr ⟨hspendRuns, hcreateRuns⟩, ?_, fee, balanced_of_ok hcommon,
    UInt64.checkedAdd_eq_some.mp hfees⟩
  rw [hcreated, transactionOps, applyAll_append]

/-! Values moved by a run of operations. -/

def UtxoEntry.atoms (entry : UtxoEntry) : Nat :=
  entry.valueAtoms.toNat

def spentAtoms (store : UtxoKey → Option UtxoEntry) (ops : List UtxoOp) : Nat :=
  takenWeight UtxoEntry.atoms store ops

def createdAtoms (ops : List UtxoOp) : Nat :=
  putWeight UtxoEntry.atoms ops

theorem spentAtoms_append (store : UtxoKey → Option UtxoEntry) (first second : List UtxoOp) :
    spentAtoms store (first ++ second) =
      spentAtoms store first + spentAtoms (applyAll store first) second :=
  takenWeight_append ..

theorem createdAtoms_append (first second : List UtxoOp) :
    createdAtoms (first ++ second) = createdAtoms first + createdAtoms second :=
  putWeight_append ..

theorem spentAtoms_createOps (store : UtxoKey → Option UtxoEntry) (outputs : List UtxoEntry) :
    spentAtoms store (createOps outputs) = 0 := by
  have htaken : taken store (createOps outputs) = [] := by
    induction outputs generalizing store with
    | nil => rfl
    | cons output outputs ih => exact ih _
  simp [spentAtoms, takenWeight, htaken]

theorem createdAtoms_spendOps (inputs : List TxInput) : createdAtoms (spendOps inputs) = 0 := by
  simp [createdAtoms, putWeight, spendOps, Function.comp_def]

theorem createdAtoms_createOutputs (crypto : Crypto) (tx : Transaction) (network : Network)
    (height : UInt64) :
    createdAtoms (createOps (UtxoSet.createOutputs crypto tx network height)) =
      (tx.outputs.map fun output => output.valueAtoms.toNat).sum := by
  rw [createdAtoms, putWeight, createOps, List.map_map]
  refine congrArg List.sum (List.ext_getElem (by simp [UtxoSet.createOutputs]) ?_)
  intro index hleft hright
  simp [UtxoSet.createOutputs, UtxoEntry.atoms]

theorem spentAtoms_spendOps {store : UtxoKey → Option UtxoEntry} {inputs : List TxInput}
    (hnodup : (inputs.map TxInput.key).Nodup) :
    spentAtoms store (spendOps inputs) = (inputs.map fun input =>
      ((store input.key).map fun entry => entry.valueAtoms.toNat).getD 0).sum := by
  induction inputs generalizing store with
  | nil => rfl
  | cons input inputs ih =>
      simp only [List.map_cons, List.nodup_cons] at hnodup
      have hothers : ∀ other ∈ inputs,
          Function.update store input.key none other.key = store other.key := by
        intro other hother
        refine Function.update_of_ne ?_ _ _
        intro hkey
        exact hnodup.1 (hkey ▸ List.mem_map_of_mem hother)
      have hrest : spentAtoms (Function.update store input.key none) (spendOps inputs) = _ :=
        ih hnodup.2
      rw [List.map_congr_left fun other hother => by rw [hothers other hother]] at hrest
      rw [List.map_cons, List.sum_cons, ← hrest]
      change spentAtoms store ([.take input.key] ++ spendOps inputs) = _
      rw [spentAtoms_append]
      congr 1
      cases hentry : store input.key <;> simp [spentAtoms, takenWeight, taken, hentry, UtxoEntry.atoms]

theorem spentAtoms_transactionOps {store : UtxoKey → Option UtxoEntry} {tx : Transaction}
    {fee : UInt64} (crypto : Crypto) (network : Network) (height : UInt64)
    (hbalanced : Balanced store tx fee) (hnodup : (tx.inputs.map TxInput.key).Nodup) :
    spentAtoms store (transactionOps crypto network height tx) =
      createdAtoms (transactionOps crypto network height tx) + fee.toNat := by
  rw [transactionOps, spentAtoms_append, createdAtoms_append, spentAtoms_createOps,
    createdAtoms_spendOps, createdAtoms_createOutputs, spentAtoms_spendOps hnodup,
    hbalanced.value]
  omega

/-! The body and the whole block. -/

def bodyOps (crypto : Crypto) (network : Network) (height : UInt64)
    (transactions : List Transaction) : List UtxoOp :=
  (transactions.map (transactionOps crypto network height)).flatten

theorem validateBody_ok {crypto : Crypto} {network : Network} {height : UInt64}
    {witnessRoot : Bytes 48} {schedule : List ScheduledActivation} {state state' : BodyState}
    {transactions : List Transaction} {prepared : List PreparedTransactionValidation}
    (hprepared : List.Forall₂ (Prepared crypto · network height schedule ·)
      transactions prepared)
    (hbody : validateBody crypto network height witnessRoot state
      (transactions.zip prepared) = .ok state') :
    let ops := bodyOps crypto network height transactions
    Runs state.overlay.get ops ∧ state'.overlay.get = applyAll state.overlay.get ops ∧
      spentAtoms state.overlay.get ops + state.sumFees.toNat =
        createdAtoms ops + state'.sumFees.toNat := by
  induction hprepared generalizing state with
  | nil =>
      cases hbody
      exact ⟨trivial, rfl, rfl⟩
  | @cons tx first transactions prepared hfirst hprepared ih =>
      simp only [List.zip_cons_cons, validateBody, bind_eq_ok] at hbody
      obtain ⟨next, hnext, hrest⟩ := hbody
      obtain ⟨hruns, hget, fee, hbalanced, hfees⟩ := validateBodyTransaction_ok hfirst hnext
      obtain ⟨hrunsRest, hgetRest, hvalueRest⟩ := ih hrest
      rw [hget] at hrunsRest hgetRest hvalueRest
      have hvalue := spentAtoms_transactionOps crypto network height hbalanced
        hfirst.inputs_nodup
      refine ⟨(runs_append _ _ _).mpr ⟨hruns, hrunsRest⟩, ?_, ?_⟩
      · rw [hgetRest]
        exact (applyAll_append _ _ _).symm
      · change spentAtoms _ (_ ++ bodyOps crypto network height transactions) + _ =
          createdAtoms (_ ++ bodyOps crypto network height transactions) + _
        rw [spentAtoms_append, createdAtoms_append]
        omega

/-- A block that passed validation, taken apart. -/
structure Accepted (crypto : Crypto) (now : UInt64) (block : Block)
    (context : BlockValidationContext) (schedule : List ScheduledActivation) where
  coinbase : Transaction
  rest : List Transaction
  prepared : List PreparedTransactionValidation
  final : BodyState
  output : TxOutput
  transactions : block.transactions = coinbase :: rest
  height : block.header.height = context.height
  network : block.header.networkId = context.network
  size : block.sizeMetrics.rawSizeBytes ≤ maxBlockRawBytes
  previous : block.header.previousBlockHash = context.expectedPreviousHash
  target : block.header.difficultyTargetOrBits = context.expectedTarget
  merkle : block.merkleRoot crypto = block.header.merkleRoot
  witness : block.computeWitnessRoot crypto = block.header.witnessRoot
  txids : ((coinbase :: rest).map (Transaction.txid crypto)).Nodup
  coinbaseInputs : coinbase.inputs = []
  coinbaseOutputs : coinbase.outputs = [output]
  coinbaseLock : output.lockingScript.length = 32
  coinbaseBare : coinbase.bare = true
  reward : output.valueAtoms.toNat =
    (blockSubsidyAtomsForNetwork context.network context.height).toNat + final.sumFees.toNat
  forall_prepared : List.Forall₂
    (Prepared crypto · context.network context.height schedule ·) rest prepared
  body : validateBody crypto context.network context.height block.header.witnessRoot
    ⟨.new context.utxos, ∅, 0⟩ (rest.zip prepared) = .ok final
  signatures : verifyTransactionSignatures crypto context.network (rest.zip prepared) = .ok ()

theorem coinbaseShape_ok {tx : Transaction} {height : UInt64}
    {schedule : List ScheduledActivation}
    (hshape : validateCoinbaseTransactionShapeWithSchedule tx height schedule = .ok ()) :
    tx.inputs = [] ∧ tx.bare = true ∧
      ∃ output, tx.outputs = [output] ∧ output.lockingScript.length = 32 := by
  simp only [validateCoinbaseTransactionShapeWithSchedule, bind_eq_ok, rejectWhen_eq_ok]
    at hshape
  obtain ⟨-, hcoinbase, -, -, hrest⟩ := hshape
  split at hrest
  · next output houtputs =>
      simp only [bind_eq_ok, canonicalPaymentLock, okOr_eq_ok, rejectWhen_eq_ok] at hrest
      obtain ⟨digest, hdigest, hbare⟩ := hrest
      rw [paymentDigestFromLockingScript_eq_some] at hdigest
      refine ⟨by simpa [Transaction.isCoinbase] using hcoinbase, ?_, output, houtputs, ?_⟩
      · simpa [Transaction.bare, and_assoc] using hbare
      · simp [hdigest]
  · cases hrest

theorem accepted_of_ok {crypto : Crypto} {now : UInt64} {block : Block}
    {context : BlockValidationContext} {schedule : List ScheduledActivation}
    {overlay : UtxoOverlay}
    (hvalid : validateBlockOverlay crypto now block context schedule = .ok overlay) :
    ∃ accepted : Accepted crypto now block context schedule,
      accepted.final.overlay = overlay := by
  simp only [validateBlockOverlay, bind_eq_ok, validateBlockStaticHeaderPrecheckWithSchedule,
    validateBlockCommonHeaderWithSchedule, validateBlockSizeMetrics,
    validateContextualHeaderPrecheck, validateBlockBodyCommitments, rejectWhen_eq_ok] at hvalid
  obtain ⟨-, ⟨-, ⟨-, -, -, -, -, hnetwork, -, hheight, -⟩, -, hsize, -⟩,
    -, ⟨-, hprevious, -, -, -, -, -, htarget, -⟩, -, ⟨-, hmerkle, hwitness⟩, hbody⟩ := hvalid
  simp only [decide_eq_false_iff_not, not_not, not_or, not_lt] at *
  split at hbody
  · cases hbody
  · next coinbase rest htransactions =>
      simp only [validateBlockBody, collectPreparedBlockTransactionsWithSchedule, bind_eq_ok,
        okOr_eq_ok, rejectWhen_eq_ok, pure_eq_ok, validateCoinbaseTransactionWithSchedule]
        at hbody
      obtain ⟨prepared, ⟨_, hshape, -, htxids, -, -, hprepare⟩, final, hfinal, reward, hreward,
        -, ⟨-, -, total, htotal, htotalReward⟩, _, hsignatures, rfl⟩ := hbody
      obtain ⟨hinputs, hbare, output, houtput, hlock⟩ := coinbaseShape_ok hshape
      have hvalue : output.valueAtoms.toNat = (blockSubsidyAtomsForNetwork context.network
          context.height).toNat + final.sumFees.toNat := by
        have hsum := UInt64.checkedSum_eq_some htotal
        rw [← UInt64.checkedAdd_eq_some.mp hreward]
        simp_all
      refine ⟨{
        coinbase := coinbase
        rest := rest
        prepared := prepared
        final := final
        output := output
        transactions := htransactions
        height := hheight
        network := hnetwork
        size := hsize.1
        previous := hprevious
        target := htarget
        merkle := hmerkle
        witness := hwitness
        txids := by simpa [txidsAreUnique] using htxids
        coinbaseInputs := hinputs
        coinbaseOutputs := houtput
        coinbaseLock := hlock
        coinbaseBare := hbare
        reward := hvalue
        forall_prepared := prepareTransactions_ok hprepare
        body := hfinal
        signatures := hsignatures }, rfl⟩

/-! Validator and set agree up to the coinbase. -/

/-- The entries that the first transaction of a block creates. -/
def coinbaseEntries (crypto : Crypto) (network : Network) (block : Block) : List UtxoEntry :=
  match block.transactions with
  | [] => []
  | coinbase :: _ => UtxoSet.createOutputs crypto coinbase network block.header.height

namespace Accepted

variable {crypto : Crypto} {now : UInt64} {block : Block} {context : BlockValidationContext}
  {schedule : List ScheduledActivation} (accepted : Accepted crypto now block context schedule)

def coinbaseEntry : UtxoEntry where
  network := context.network
  txid := accepted.coinbase.txid crypto
  outputIndex := 0
  valueAtoms := accepted.output.valueAtoms
  lockingScript := accepted.output.lockingScript
  createdHeight := context.height
  isCoinbase := true

def restOps : List UtxoOp :=
  bodyOps crypto context.network context.height accepted.rest

theorem createOutputs_coinbase :
    UtxoSet.createOutputs crypto accepted.coinbase context.network context.height =
      [accepted.coinbaseEntry] := by
  simp [UtxoSet.createOutputs, accepted.coinbaseOutputs, Transaction.isCoinbase,
    accepted.coinbaseInputs, coinbaseEntry]

theorem coinbaseEntries_eq :
    coinbaseEntries crypto context.network block = [accepted.coinbaseEntry] := by
  simp only [coinbaseEntries, accepted.transactions, accepted.height]
  exact accepted.createOutputs_coinbase

theorem blockOps_eq :
    blockOps crypto context.network block =
      .put accepted.coinbaseEntry.key accepted.coinbaseEntry :: accepted.restOps := by
  simp only [blockOps, blockBatches, accepted.transactions, accepted.height, List.map_cons,
    List.flatten_cons, transactionOps, accepted.coinbaseInputs,
    accepted.createOutputs_coinbase]
  rfl

theorem put_coinbaseKey_notMem (entry : UtxoEntry) :
    .put accepted.coinbaseEntry.key entry ∉ accepted.restOps := by
  intro hput
  simp only [restOps, bodyOps, transactionOps, spendOps, createOps, UtxoSet.createOutputs,
    List.mem_flatten, List.mem_map, exists_exists_and_eq_and, List.mem_append, reduceCtorEq,
    and_false, exists_false, false_or, List.mem_mapIdx, Op.put.injEq] at hput
  obtain ⟨tx, htx, output, ⟨index, hindex, rfl⟩, hkey, -⟩ := hput
  have htxid : tx.txid crypto = accepted.coinbase.txid crypto := congrArg UtxoKey.txid hkey
  have hunique := (List.nodup_cons.mp accepted.txids).1
  exact hunique (List.mem_map.mpr ⟨tx, htx, htxid⟩)

theorem rest_runs :
    Runs context.utxos.get accepted.restOps ∧
      accepted.final.overlay.get = applyAll context.utxos.get accepted.restOps ∧
      spentAtoms context.utxos.get accepted.restOps =
        createdAtoms accepted.restOps + accepted.final.sumFees.toNat := by
  have hbody := validateBody_ok accepted.forall_prepared accepted.body
  simpa [UtxoOverlay.get_new, restOps] using hbody

theorem runs_iff :
    Runs context.utxos.get (blockOps crypto context.network block) ↔
      context.utxos.get accepted.coinbaseEntry.key = none := by
  rw [accepted.blockOps_eq]
  constructor
  · intro hruns
    simpa [Op.enabled] using hruns.1
  · intro hfree
    have hnot := notMem_of_runs accepted.rest_runs.1 hfree accepted.put_coinbaseKey_notMem
    exact ⟨by simp [Op.enabled, hfree], (runs_update hnot _).mpr accepted.rest_runs.1⟩

theorem applyAll_blockOps
    (hfree : context.utxos.get accepted.coinbaseEntry.key = none) :
    applyAll context.utxos.get (blockOps crypto context.network block) =
      Function.update accepted.final.overlay.get accepted.coinbaseEntry.key
        (some accepted.coinbaseEntry) := by
  have hnot := notMem_of_runs accepted.rest_runs.1 hfree accepted.put_coinbaseKey_notMem
  rw [accepted.blockOps_eq, accepted.rest_runs.2.1, ← applyAll_update hnot]
  rfl

end Accepted

theorem validateBlockWithContext_ok_iff {crypto : Crypto} {now : UInt64} {block : Block}
    {height : UInt64} {network : Network} {previousHash target : Bytes 48}
    {previousBlocks : List Block} {utxos : UtxoSet} :
    validateBlockWithContext crypto now block height network previousHash target
        previousBlocks utxos = .ok () ↔
      ∃ overlay, validateBlockOverlay crypto now block
        ⟨height, network, previousHash, target, previousBlocks, utxos⟩
        scheduledActivations = .ok overlay := by
  simp only [validateBlockWithContext, validateBlockWithContextAndSchedule, bind_eq_ok,
    pure_eq_ok, and_true]

/-- For an accepted block, applying it succeeds and ends in the validator's
final view plus the coinbase output exactly when the set does not already hold
the coinbase output's key. -/
theorem applyBlock_agrees_iff {crypto : Crypto} {now : UInt64} {block : Block}
    {height : UInt64} {network : Network} {previousHash target : Bytes 48}
    {previousBlocks : List Block} {set : UtxoSet} (hnetwork : set.network = network)
    (hvalid : validateBlockWithContext crypto now block height network previousHash target
      previousBlocks set = .ok ()) :
    ∃ overlay entry,
      validateBlockOverlay crypto now block
        ⟨height, network, previousHash, target, previousBlocks, set⟩
        scheduledActivations = .ok overlay ∧
      coinbaseEntries crypto network block = [entry] ∧
      ((∃ undo set', set.applyBlock crypto block = (.ok undo, set') ∧
          set'.get = Function.update overlay.get entry.key (some entry)) ↔
        set.get entry.key = none) := by
  obtain ⟨overlay, hoverlay⟩ := validateBlockWithContext_ok_iff.mp hvalid
  obtain ⟨accepted, rfl⟩ := accepted_of_ok hoverlay
  refine ⟨_, accepted.coinbaseEntry, hoverlay, accepted.coinbaseEntries_eq, ?_⟩
  have hiff := accepted.runs_iff
  simp only [← hnetwork] at hiff
  constructor
  · rintro ⟨undo, set', happly, -⟩
    exact hiff.mp (UtxoSet.journaled_of_applyBlock happly).runs
  · intro hfree
    obtain ⟨undo, set', happly⟩ := UtxoSet.applyBlock_ok_iff.mpr (hiff.mpr hfree)
    refine ⟨undo, set', happly, ?_⟩
    rw [(UtxoSet.journaled_of_applyBlock happly).get, hnetwork]
    exact accepted.applyAll_blockOps hfree

/-- The clock of the examples, a little after the genesis blocks. -/
def exampleClock : UInt64 := 1773360600

/-- The validator accepts a block whose coinbase output is already in the set,
and the set refuses it. -/
theorem echoBlock_accepted_not_applied :
    validateBlockWithContext .hashing exampleClock UtxoSet.echoBlock 1 .regnet
        (genesisHash .hashing .regnet) genesisTarget [genesisBlock .hashing .regnet]
        (UtxoSet.genesisUtxos .hashing .regnet) = .ok () ∧
      (UtxoSet.genesisUtxos .hashing .regnet).network = .regnet ∧
      ((UtxoSet.genesisUtxos .hashing .regnet).applyBlock .hashing UtxoSet.echoBlock).1 =
        .error .duplicateUtxo := by
  decide +kernel

/-- A mined block on the regnet genesis with a reward of its own. -/
def firstBlock : Block :=
  let transactions := [UtxoSet.relayPayment [] 5000000000]
  { header :=
      { UtxoSet.echoBlock.header with
        merkleRoot := merkleRoot .hashing transactions
        witnessRoot := witnessRoot .hashing transactions
        nonce := 13590 }
    transactions := transactions }

/-- A block with nothing but its reward, which goes to `script`. -/
def rewardBlock (network : Network) (height : UInt64) (script : List UInt8)
    (timestamp nonce : UInt64) (target previous : Nat) : Block :=
  let coinbase : Transaction :=
    { version := 1
      inputs := []
      outputs := [⟨5000000000, script⟩]
      lockTime := 0
      witness := []
      txPowNonce := 0
      txPowBits := 0 }
  { header :=
      { (genesisBlock .hashing network).header with
        height := height
        previousBlockHash := .ofNat 48 previous
        merkleRoot := coinbase.txid .hashing
        witnessRoot := coinbase.txid .hashing
        timestamp := timestamp
        difficultyTargetOrBits := .ofNat 48 target
        nonce := nonce }
    transactions := [coinbase] }

theorem firstBlock_accepted_and_applied :
    ∃ undo set', (UtxoSet.genesisUtxos .hashing .regnet).applyBlock .hashing firstBlock =
      (.ok undo, set') := by
  have hvalid : validateBlockWithContext .hashing exampleClock firstBlock 1 .regnet
      (genesisHash .hashing .regnet) genesisTarget [genesisBlock .hashing .regnet]
      (UtxoSet.genesisUtxos .hashing .regnet) = .ok () := by
    decide +kernel
  have hfree : ∀ entry ∈ coinbaseEntries .hashing .regnet firstBlock,
      (UtxoSet.genesisUtxos .hashing .regnet).get entry.key = none := by
    decide +kernel
  obtain ⟨overlay, entry, -, hentries, hiff⟩ := applyBlock_agrees_iff
    (UtxoSet.genesisUtxos_network .hashing .regnet) hvalid
  obtain ⟨undo, set', happly, -⟩ := hiff.mpr (hfree entry (by simp [hentries]))
  exact ⟨undo, set', happly⟩

end Atho
