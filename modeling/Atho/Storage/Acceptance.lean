import Atho.Storage.Authorization

/-! Transactions that pass the checks: what is well formed, funded and signed is
accepted. -/

namespace Atho

/-! Filing references. -/

theorem assignInputRefs_exists {crypto : Crypto} {txid : Bytes 48} {signature : List UInt8}
    {groupIndex : Nat} {previous : Option UInt32} {byInput : List (Option Nat)}
    {refs : List WitnessInputRef}
    (hascending : (refs.map WitnessInputRef.inputIndex).Pairwise (· < ·))
    (habove : ∀ last ∈ previous, ∀ ref ∈ refs, last < ref.inputIndex)
    (hfree : ∀ position ∈ inputPositions refs, byInput[position]? = some none)
    (hshort : ∀ ref ∈ refs,
      ref.sigRefShort = deriveSigRefShort crypto txid signature ref.inputIndex) :
    ∃ byInput', assignInputRefs crypto txid signature groupIndex previous byInput refs =
      .ok byInput' := by
  induction refs generalizing previous byInput with
  | nil => exact ⟨byInput, rfl⟩
  | cons ref refs ih =>
      rw [List.map_cons, List.pairwise_cons] at hascending
      obtain ⟨hfirst, hascending⟩ := hascending
      obtain ⟨hslot, hfree⟩ := List.forall_mem_cons.mp hfree
      obtain ⟨hrefShort, hshort⟩ := List.forall_mem_cons.mp hshort
      have hinside : ref.inputIndex.toNat < byInput.length :=
        (List.getElem?_eq_some_iff.mp hslot).1
      have hlater : ∀ other ∈ refs, ref.inputIndex < other.inputIndex := fun other hother =>
        hfirst _ (List.mem_map_of_mem hother)
      have hstill : ∀ position ∈ inputPositions refs,
          (byInput.set ref.inputIndex.toNat (some groupIndex))[position]? = some none := by
        intro position hposition
        obtain ⟨other, hother, rfl⟩ := List.mem_map.mp hposition
        rw [List.getElem?_set_ne (UInt32.lt_iff_toNat_lt.mp (hlater other hother)).ne]
        exact hfree _ hposition
      obtain ⟨byInput', hrest⟩ := @ih (some ref.inputIndex) _ hascending
        (by simpa using hlater) hstill hshort
      refine ⟨byInput', ?_⟩
      simp only [assignInputRefs, bind_eq_ok, rejectWhen_eq_ok, decide_eq_false_iff_not, not_le,
        not_not]
      refine ⟨(), hinside, (), ?_, (), hslot, (), hrefShort, hrest⟩
      cases previous with
      | none => rfl
      | some last =>
          have hlt := habove last rfl ref (List.mem_cons_self)
          simpa using hlt

/-- What the filing asks of one group. -/
structure Fileable (crypto : Crypto) (txid : Bytes 48) (group : WitnessSignerGroup) : Prop where
  signature : group.signature ≠ []
  pubkey : group.pubkey ≠ []
  inputRefs : group.inputRefs ≠ []
  ascending : group.inputIndexes.Pairwise (· < ·)
  short : ∀ ref ∈ group.inputRefs,
    ref.sigRefShort = deriveSigRefShort crypto txid group.signature ref.inputIndex

/-- The inputs that groups refer to, group by group. -/
def coveredPositions (groups : List WitnessSignerGroup) : List Nat :=
  groups.flatMap fun group => inputPositions group.inputRefs

/-- The first references of groups, in order. -/
def firstIndexes (groups : List WitnessSignerGroup) : List UInt32 :=
  groups.filterMap fun group => group.inputIndexes.head?

theorem assignSignerGroups_exists {crypto : Crypto} {txid : Bytes 48} {groupIndex : Nat}
    {previousFirst : Option UInt32} {byInput : List (Option Nat)}
    {groups : List WitnessSignerGroup} (hgroups : ∀ group ∈ groups, Fileable crypto txid group)
    (hordered : (previousFirst.toList ++ firstIndexes groups).Pairwise (· < ·))
    (hdistinct : (coveredPositions groups).Nodup)
    (hfree : ∀ position ∈ coveredPositions groups, byInput[position]? = some none) :
    ∃ byInput', assignSignerGroups crypto txid groupIndex previousFirst byInput groups =
      .ok byInput' := by
  induction groups generalizing groupIndex previousFirst byInput with
  | nil => exact ⟨byInput, rfl⟩
  | cons group groups ih =>
      obtain ⟨hgroup, hgroups⟩ := List.forall_mem_cons.mp hgroups
      obtain ⟨ref, refs, hrefs⟩ := List.exists_cons_of_ne_nil hgroup.inputRefs
      have hfirsts : firstIndexes (group :: groups) = ref.inputIndex :: firstIndexes groups := by
        simp [firstIndexes, WitnessSignerGroup.inputIndexes, hrefs]
      rw [hfirsts, List.pairwise_append] at hordered
      obtain ⟨-, hnext, hbefore⟩ := hordered
      rw [coveredPositions, List.flatMap_cons, List.nodup_append] at hdistinct
      obtain ⟨-, hdistinct, hapart⟩ := hdistinct
      rw [coveredPositions, List.flatMap_cons, List.forall_mem_append] at hfree
      obtain ⟨hown, hothers⟩ := hfree
      obtain ⟨middle, hmiddle⟩ := @assignInputRefs_exists crypto txid group.signature groupIndex
        none byInput group.inputRefs hgroup.ascending (by simp) hown hgroup.short
      obtain ⟨-, -, -, -, hvalue⟩ := assignInputRefs_ok hmiddle
      have hstill : ∀ position ∈ coveredPositions groups, middle[position]? = some none := by
        intro position hposition
        rw [hvalue, if_neg fun hmem => hapart position hmem position hposition rfl]
        exact hothers position hposition
      obtain ⟨byInput', hrest⟩ := @ih (groupIndex + 1) (some ref.inputIndex) middle hgroups hnext
        hdistinct hstill
      refine ⟨byInput', ?_⟩
      simp only [assignSignerGroups, bind_eq_ok, rejectWhen_eq_ok, okOr_eq_ok]
      refine ⟨(), ?_, ref.inputIndex, by rw [hrefs]; rfl, (), ?_, middle, hmiddle, hrest⟩
      · simp [hgroup.signature, hgroup.pubkey, hgroup.inputRefs]
      · cases previousFirst with
        | none => rfl
        | some last =>
            have hlt := hbefore last (by simp) ref.inputIndex (List.mem_cons_self)
            simpa using hlt

/-! Structure. -/

/-- A transaction whose structure, fee and witness are in order. -/
structure Presentable (crypto : Crypto) (tx : Transaction) (feeAtoms : UInt64)
    (network : Network) (height : UInt64) (schedule : List ScheduledActivation)
    (witness : TxWitness) : Prop where
  inputs_ne : tx.inputs ≠ []
  inputs_nodup : (tx.inputs.map TxInput.key).Nodup
  version : isSupportedTransactionVersionWithSchedule tx.version height schedule = true
  outputs_ne : tx.outputs ≠ []
  outputs_le : tx.outputs.length ≤ maximumStandardOutputs network tx
  raw : tx.fullSizeBytes ≤ maxTransactionRawBytes
  vbytes : tx.vsizeBytes ≤ maxTransactionVbytes
  values : ∀ output ∈ tx.outputs, dustRelayValueAtoms ≤ output.valueAtoms
  locks : ∀ output ∈ tx.outputs, output.lockingScript.length = 32
  fee : minimumRequiredFeeAtoms network tx ≤ feeAtoms
  payload : tx.witnessPayload = some witness
  groups : ∀ group ∈ witness.signerGroups, Fileable crypto (tx.txid crypto) group
  ordered : (firstIndexes witness.signerGroups).Pairwise (· < ·)
  covers : (coveredPositions witness.signerGroups).Perm (List.range tx.inputs.length)

namespace Presentable

variable {crypto : Crypto} {tx : Transaction} {feeAtoms : UInt64} {network : Network}
  {height : UInt64} {schedule : List ScheduledActivation} {witness : TxWitness}

theorem signerGroups_ne (hpresent : Presentable crypto tx feeAtoms network height schedule witness) :
    witness.signerGroups ≠ [] := by
  intro hnone
  have hlength := hpresent.covers.length_eq
  rw [hnone, List.length_range] at hlength
  exact hpresent.inputs_ne (List.length_eq_zero_iff.mp hlength.symm)

theorem totalInputRefs_eq (hpresent : Presentable crypto tx feeAtoms network height schedule witness) :
    witness.totalInputRefs = tx.inputs.length := by
  have hlength := hpresent.covers.length_eq
  have hgroups : witness.signerGroups = witness.primary :: witness.additionalSigners :=
    if_neg fun hempty => hpresent.signerGroups_ne (if_pos hempty)
  rw [hgroups, List.length_range] at hlength
  rw [← hlength, TxWitness.totalInputRefs]
  simp [coveredPositions, inputPositions, TxWitness.primary, List.length_flatMap]

theorem signerGroupCount_ne (hpresent : Presentable crypto tx feeAtoms network height schedule witness) :
    witness.signerGroupCount ≠ 0 := by
  rw [TxWitness.signerGroupCount, if_neg fun hempty => hpresent.signerGroups_ne (if_pos hempty)]
  omega

theorem prepare (hpresent : Presentable crypto tx feeAtoms network height schedule witness) :
    ∃ prepared, prepareTransactionValidation crypto tx feeAtoms network height schedule =
        .ok prepared ∧
      prepared.signerGroups = witness.signerGroups ∧
      ∀ group ∈ witness.signerGroups, ∀ position ∈ inputPositions group.inputRefs,
        prepared.signerPubkey position = group.pubkey := by
  have hinside : ∀ position ∈ coveredPositions witness.signerGroups,
      position < tx.inputs.length := fun position hposition =>
    List.mem_range.mp (hpresent.covers.mem_iff.mp hposition)
  obtain ⟨byInput, hassign⟩ := @assignSignerGroups_exists crypto (tx.txid crypto) 0 none
    (List.replicate tx.inputs.length none) witness.signerGroups hpresent.groups
    hpresent.ordered (hpresent.covers.nodup_iff.mpr List.nodup_range)
    (fun position hposition => by simp [hinside position hposition])
  have hfiled := partitioned_of_assign hassign
  have hcovered : none ∉ byInput := by
    intro hnone
    obtain ⟨position, hlt, hslot⟩ := List.mem_iff_getElem.mp hnone
    rw [hfiled.length, List.length_replicate] at hlt
    have hposition : position ∈ coveredPositions witness.signerGroups :=
      hpresent.covers.mem_iff.mpr (List.mem_range.mpr hlt)
    obtain ⟨group, hgroup, hposition⟩ := List.mem_flatMap.mp hposition
    obtain ⟨k, hk⟩ := List.mem_iff_getElem?.mp hgroup
    have hother := (hfiled.filed hk position hposition).2
    rw [List.getElem?_eq_getElem (by simpa [hfiled.length] using hlt), hslot] at hother
    cases hother
  refine ⟨⟨tx.txid crypto, witness.signerGroups, byInput⟩, ?_, rfl, ?_⟩
  · have hzero : ∀ output ∈ tx.outputs, output.valueAtoms ≠ 0 := by
      intro output houtput hzero
      have hdust := hpresent.values output houtput
      rw [hzero] at hdust
      exact absurd hdust (by decide)
    have hlock : ∀ output ∈ tx.outputs,
        (paymentDigestFromLockingScript output.lockingScript).isNone = false := by
      intro output houtput
      simp [paymentDigestFromLockingScript, hpresent.locks output houtput]
    simp only [prepareTransactionValidation, bind_eq_ok, rejectWhen_eq_ok, okOr_eq_ok, pure_eq_ok]
    refine ⟨(), ?_, (), ?_, (), ?_, (), ?_, (), ?_, (), ?_, (), ?_, (), ?_, (), ?_, (), ?_,
      witness, hpresent.payload, (), ?_, (), ?_, byInput, hassign, (), ?_, rfl⟩
    · simp [Transaction.isCoinbase, hpresent.inputs_ne]
    · simp [hpresent.version]
    · simp [hpresent.outputs_ne]
    · simpa using hpresent.outputs_le
    · simpa using ⟨hpresent.raw, hpresent.vbytes⟩
    · simpa [List.any_eq_false] using hzero
    · simpa using hpresent.inputs_nodup
    · simpa using hpresent.fee
    · exact List.any_eq_false.mpr fun output houtput hdust =>
        UInt64.not_lt.mpr (hpresent.values output houtput) (of_decide_eq_true hdust)
    · exact List.any_eq_false.mpr fun output houtput => by simp [hlock output houtput]
    · simpa using hpresent.signerGroupCount_ne
    · simpa using hpresent.totalInputRefs_eq
    · simpa using hcovered
  · intro group hgroup position hposition
    obtain ⟨k, hk⟩ := List.mem_iff_getElem?.mp hgroup
    have hslot := (hfiled.filed hk position hposition).2
    rw [Nat.zero_add] at hslot
    simp [PreparedTransactionValidation.signerPubkey, PreparedTransactionValidation.signerGroup,
      hslot, hk]

end Presentable

/-! Inputs. -/

theorem sumInputs_eq {crypto : Crypto} {prepared : PreparedTransactionValidation}
    {network : Network} {spendHeight : UInt64} {lookup : UtxoKey → Option UtxoEntry}
    {index : Nat} {total : UInt64} {inputs : List TxInput} {entries : List UtxoEntry}
    (hfound : List.Forall₂ (fun input entry => lookup input.key = some entry) inputs entries)
    (hvalid : ∀ {position : Nat} {input entry}, inputs[position]? = some input →
      lookup input.key = some entry →
      validateInput crypto prepared network spendHeight (index + position) input entry =
        .ok ()) :
    sumInputs crypto prepared network spendHeight lookup index total inputs =
      okOr (UInt64.checkedSum total (entries.map UtxoEntry.valueAtoms)) .feeMismatch := by
  induction hfound generalizing index total with
  | nil => rfl
  | cons hentry hfound ih =>
      rename_i input entry inputs entries
      have hfirst := @hvalid 0 _ _ rfl hentry
      rw [Nat.add_zero] at hfirst
      rw [sumInputs, hentry]
      simp only [okOr, bind, Except.bind, hfirst, List.map_cons, UInt64.checkedSum]
      rcases hsum : total.checkedAdd entry.valueAtoms with _ | next
      · rfl
      · refine ih fun {position input entry} hinput hentry => ?_
        have hrest := @hvalid (position + 1) input entry hinput hentry
        rwa [← Nat.add_assoc, Nat.add_right_comm] at hrest

/-! Signatures. -/

theorem verifySignerGroups_of {crypto : Crypto} {tx : Transaction} {network : Network}
    {groups : List WitnessSignerGroup}
    (hgroups : ∀ group ∈ groups, group.pubkey.length = falcon512PublicKeyBytes ∧
      group.signature.length = falcon512SignatureBytes ∧
      crypto.falconVerify .transaction group.pubkey
        (signerGroupDigest crypto tx network group.inputIndexes) group.signature =
          some true) :
    verifySignerGroups crypto tx network groups = .ok () := by
  induction groups with
  | nil => rfl
  | cons group groups ih =>
      obtain ⟨⟨hpubkey, hsignature, hverify⟩, hgroups⟩ := List.forall_mem_cons.mp hgroups
      simp only [verifySignerGroups, verifySignerGroup, bind_eq_ok, okOr_eq_ok, rejectWhen_eq_ok,
        decide_eq_false_iff_not, not_not]
      exact ⟨(), ⟨(), hpubkey, (), hsignature, true, hverify, rfl⟩, ih hgroups⟩

/-! Transactions. -/

/-- An input whose output is there, locked to the key of its group, and mature. -/
structure Spends (crypto : Crypto) (network : Network) (height : UInt64)
    (group : WitnessSignerGroup) (input : TxInput) (entry : UtxoEntry) : Prop where
  lock : entry.lockingScript = (publicKeyDigest crypto network group.pubkey).toList
  unlock : input.unlockingScript = entry.lockingScript
  network : entry.network = network
  mature : entry.isSpendableAt height = true

theorem Spends.validateInput {crypto : Crypto} {network : Network} {height : UInt64}
    {group : WitnessSignerGroup} {input : TxInput} {entry : UtxoEntry}
    {prepared : PreparedTransactionValidation} {index : Nat}
    (hspends : Spends crypto network height group input entry)
    (hkey : prepared.signerPubkey index = group.pubkey) :
    validateInput crypto prepared network height index input entry = .ok () := by
  have hlock : paymentDigestFromLockingScript entry.lockingScript =
      some (publicKeyDigest crypto network group.pubkey) :=
    paymentDigestFromLockingScript_eq_some.mpr hspends.lock
  simp only [Atho.validateInput, canonicalPaymentLock, bind_eq_ok, okOr_eq_ok, rejectWhen_eq_ok,
    decide_eq_false_iff_not, not_not]
  refine ⟨_, hlock, _, by rw [hspends.unlock]; exact hlock, (), hspends.unlock.symm, (),
    hspends.network, (), ?_, ?_⟩
  · rw [hspends.network, hkey]
  · simp [hspends.mature]

/-- A presentable transaction whose inputs are funded, that pays its fee, carries its proof of
work and is signed, is accepted. -/
theorem Presentable.validate {crypto : Crypto} {tx : Transaction} {feeAtoms : UInt64}
    {network : Network} {height : UInt64} {schedule : List ScheduledActivation}
    {witness : TxWitness} {lookup : UtxoKey → Option UtxoEntry} {entries : List UtxoEntry}
    {inputTotal outputTotal : UInt64}
    (hpresent : Presentable crypto tx feeAtoms network height schedule witness)
    (hfound : List.Forall₂ (fun input entry => lookup input.key = some entry) tx.inputs entries)
    (hspends : ∀ group ∈ witness.signerGroups, ∀ position ∈ inputPositions group.inputRefs,
      ∀ input entry, tx.inputs[position]? = some input → lookup input.key = some entry →
        Spends crypto network height group input entry)
    (hin : UInt64.checkedSum 0 (entries.map UtxoEntry.valueAtoms) = some inputTotal)
    (hout : tx.checkedOutputValueAtoms = some outputTotal)
    (hfee : inputTotal.toNat = outputTotal.toNat + feeAtoms.toNat)
    (hbits : tx.txPowBits = requiredTxPowBits network tx feeAtoms)
    (hnonce : transactionPowIsValidForBits crypto network tx tx.txPowBits = true)
    (hsigned : verifySignerGroups crypto tx network witness.signerGroups = .ok ()) :
    validateTransactionWithContextAndSchedule crypto tx feeAtoms network height lookup schedule =
      .ok feeAtoms := by
  obtain ⟨prepared, hprepare, hgroups, hkeys⟩ := hpresent.prepare
  have hvalid : ∀ {position : Nat} {input entry}, tx.inputs[position]? = some input →
      lookup input.key = some entry →
      validateInput crypto prepared network height (0 + position) input entry = .ok () := by
    intro position input entry hinput hentry
    have hposition : position ∈ coveredPositions witness.signerGroups :=
      hpresent.covers.mem_iff.mpr (List.mem_range.mpr (List.getElem?_eq_some_iff.mp hinput).1)
    obtain ⟨group, hgroup, hposition⟩ := List.mem_flatMap.mp hposition
    rw [Nat.zero_add]
    exact (hspends group hgroup position hposition input entry hinput hentry).validateInput
      (hkeys group hgroup position hposition)
  have hsum : sumInputs crypto prepared network height lookup 0 0 tx.inputs = .ok inputTotal := by
    rw [sumInputs_eq hfound hvalid, hin]
    rfl
  have hle : outputTotal ≤ inputTotal := by
    rw [UInt64.le_iff_toNat_le]
    omega
  have hdifference : inputTotal - outputTotal = feeAtoms := by
    rw [← UInt64.toNat_inj, UInt64.toNat_sub_of_le _ _ hle]
    omega
  simp only [validateTransactionWithContextAndSchedule,
    validateTransactionWithContextExactFeePrepared, validateTransactionWithContextCommon,
    validateTransactionPow, bind_eq_ok, rejectWhen_eq_ok, okOr_eq_ok, pure_eq_ok,
    decide_eq_false_iff_not, not_not]
  refine ⟨prepared, hprepare, feeAtoms, ⟨feeAtoms, ⟨inputTotal, hsum, outputTotal, hout, (),
    UInt64.not_lt.mpr hle, hdifference⟩, (), rfl, (), ⟨(), hbits, ?_⟩, rfl⟩, (), ?_, rfl⟩
  · rw [← hbits, hnonce]
    rfl
  · rw [hgroups]
    exact hsigned

end Atho
