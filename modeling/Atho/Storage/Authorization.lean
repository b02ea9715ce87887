import Atho.Storage.Commitment

/-! Every input of an accepted transaction is authorized by exactly one signer
group. -/

namespace Atho

open Journal

def WitnessSignerGroup.inputIndexes (group : WitnessSignerGroup) : List UInt32 :=
  group.inputRefs.map WitnessInputRef.inputIndex

/-- The positions of the inputs that references name. -/
def inputPositions (refs : List WitnessInputRef) : List Nat :=
  refs.map fun ref => ref.inputIndex.toNat

/-! Filing references. -/

theorem assignInputRefs_ok {crypto : Crypto} {txid : Bytes 48} {signature : List UInt8}
    {groupIndex : Nat} {previous : Option UInt32} {byInput byInput' : List (Option Nat)}
    {refs : List WitnessInputRef}
    (hassign : assignInputRefs crypto txid signature groupIndex previous byInput refs =
      .ok byInput') :
    byInput'.length = byInput.length ∧
      (refs.map WitnessInputRef.inputIndex).Pairwise (· < ·) ∧
      (∀ last ∈ previous, ∀ ref ∈ refs, last < ref.inputIndex) ∧
      (∀ position ∈ inputPositions refs, byInput[position]? = some none) ∧
      ∀ position : Nat, byInput'[position]? =
        if position ∈ inputPositions refs then some (some groupIndex)
        else byInput[position]? := by
  induction refs generalizing previous byInput with
  | nil =>
      cases hassign
      simp [inputPositions]
  | cons ref refs ih =>
      simp only [assignInputRefs, bind_eq_ok, rejectWhen_eq_ok, decide_eq_false_iff_not,
        not_le, not_not] at hassign
      obtain ⟨-, hinside, -, hascends, -, hfree, -, -, hrest⟩ := hassign
      obtain ⟨hlength, hpairwise, habove, hfreeRest, hfinal⟩ := ih hrest
      have habove : ∀ other ∈ refs, ref.inputIndex < other.inputIndex :=
        habove _ (Option.mem_some_self _)
      have hne : ∀ position ∈ inputPositions refs, ref.inputIndex.toNat ≠ position := by
        intro position hposition
        obtain ⟨other, hother, rfl⟩ := List.mem_map.mp hposition
        exact (UInt32.lt_iff_toNat_lt.mp (habove other hother)).ne
      refine ⟨by simpa using hlength, ?_, ?_, ?_, ?_⟩
      · simpa using ⟨habove, hpairwise⟩
      · intro last hlast
        have hfirst : last < ref.inputIndex := by
          simp only [Option.mem_def] at hlast
          simpa [hlast] using hascends
        refine List.forall_mem_cons.mpr ⟨hfirst, fun other hother => ?_⟩
        exact UInt32.lt_trans hfirst (habove other hother)
      · refine List.forall_mem_cons.mpr ⟨hfree, fun position hposition => ?_⟩
        have hother := hfreeRest position hposition
        rwa [List.getElem?_set_ne (hne position hposition)] at hother
      · intro position
        rw [hfinal position]
        by_cases hposition : position ∈ inputPositions refs
        · have hmem : position ∈ inputPositions (ref :: refs) := List.mem_cons_of_mem _ hposition
          rw [if_pos hposition, if_pos hmem]
        · rw [if_neg hposition]
          by_cases hself : position = ref.inputIndex.toNat
          · have hmem : position ∈ inputPositions (ref :: refs) := by simp [inputPositions, hself]
            rw [if_pos hmem, hself, List.getElem?_set_self hinside]
          · have hmem : position ∉ inputPositions (ref :: refs) := by
              rw [inputPositions, List.map_cons, List.mem_cons, not_or]
              exact ⟨hself, hposition⟩
            rw [if_neg hmem, List.getElem?_set_ne (Ne.symm hself)]

/-- The groups, counted from `start`, divide the inputs among themselves. -/
structure Partitioned (start : Nat) (byInput byInput' : List (Option Nat))
    (groups : List WitnessSignerGroup) : Prop where
  length : byInput'.length = byInput.length
  kept : ∀ {position g : Nat}, byInput[position]? = some (some g) →
    byInput'[position]? = some (some g)
  ascending : ∀ group ∈ groups, group.inputIndexes.Pairwise (· < ·)
  filed : ∀ {k : Nat} {group}, groups[k]? = some group →
    ∀ position ∈ inputPositions group.inputRefs, byInput[position]? = some none ∧
      byInput'[position]? = some (some (start + k))
  found : ∀ {position g : Nat}, byInput'[position]? = some (some g) →
    byInput[position]? = some (some g) ∨ ∃ k group, g = start + k ∧
      groups[k]? = some group ∧ position ∈ inputPositions group.inputRefs

theorem partitioned_of_assign {crypto : Crypto} {txid : Bytes 48} {start : Nat}
    {previousFirst : Option UInt32} {byInput byInput' : List (Option Nat)}
    {groups : List WitnessSignerGroup}
    (hassign : assignSignerGroups crypto txid start previousFirst byInput groups =
      .ok byInput') :
    Partitioned start byInput byInput' groups := by
  induction groups generalizing start previousFirst byInput with
  | nil =>
      cases hassign
      exact ⟨rfl, id, by simp, by simp, .inl⟩
  | cons group groups ih =>
      simp only [assignSignerGroups, bind_eq_ok, okOr_eq_ok, rejectWhen_eq_ok] at hassign
      obtain ⟨-, -, first, -, -, -, middle, hgroup, hrest⟩ := hassign
      obtain ⟨hlength, hpairwise, -, hfree, hmiddle⟩ := assignInputRefs_ok hgroup
      have hpartitioned := ih hrest
      have htaken : ∀ position ∈ inputPositions group.inputRefs,
          middle[position]? = some (some start) := by
        intro position hposition
        rw [hmiddle, if_pos hposition]
      have hothers : ∀ {position}, position ∉ inputPositions group.inputRefs →
          middle[position]? = byInput[position]? := by
        intro position hposition
        rw [hmiddle, if_neg hposition]
      refine ⟨hpartitioned.length.trans hlength, ?_, ?_, ?_, ?_⟩
      · intro position g hheld
        refine hpartitioned.kept ?_
        by_cases hposition : position ∈ inputPositions group.inputRefs
        · rw [hfree position hposition] at hheld
          cases hheld
        · rwa [hothers hposition]
      · exact List.forall_mem_cons.mpr ⟨hpairwise, hpartitioned.ascending⟩
      · intro k found hfound position hposition
        cases k with
        | zero =>
            cases hfound
            exact ⟨hfree position hposition,
              hpartitioned.kept (htaken position hposition)⟩
        | succ k =>
            obtain ⟨hnone, hfiled⟩ := hpartitioned.filed hfound position hposition
            have houtside : position ∉ inputPositions group.inputRefs := by
              intro hinside
              rw [htaken position hinside] at hnone
              cases hnone
            rw [hothers houtside] at hnone
            exact ⟨hnone, by rwa [Nat.add_right_comm] at hfiled⟩
      · intro position g hheld
        rcases hpartitioned.found hheld with hmid | ⟨k, found, rfl, hfound, hposition⟩
        · by_cases hposition : position ∈ inputPositions group.inputRefs
          · rw [htaken position hposition] at hmid
            cases hmid
            exact .inr ⟨0, group, rfl, rfl, hposition⟩
          · exact .inl ((hothers hposition).symm.trans hmid)
        · exact .inr ⟨k + 1, found, by omega, hfound, hposition⟩

/-! The two digests. -/

theorem eq_range_of_ascending {indexes : List Nat} {count : Nat}
    (hascending : indexes.Pairwise (· < ·)) (hbound : ∀ index ∈ indexes, index < count)
    (hlength : indexes.length = count) : indexes = List.range count := by
  have hnodup : indexes.Nodup := hascending.imp fun hlt => hlt.ne
  have hperm : indexes.Perm (List.range count) :=
    (hnodup.subperm fun index hindex => List.mem_range.mpr (hbound index hindex)).perm_of_length_le
      (by simp [hlength])
  exact hperm.eq_of_pairwise' (hascending.imp Nat.le_of_lt)
    (List.pairwise_lt_range.imp Nat.le_of_lt)

/-- A group that names as many inputs as there are names them all, so the digest
over all inputs is the digest over its own. -/
theorem signerGroupDigest_eq {crypto : Crypto} {tx : Transaction} {network : Network}
    {inputIndexes : List UInt32} (hascending : inputIndexes.Pairwise (· < ·))
    (hbound : ∀ index ∈ inputIndexes, index.toNat < tx.inputs.length) :
    signerGroupDigest crypto tx network inputIndexes =
      transactionSigningDigestForInputIndexes crypto network tx inputIndexes := by
  unfold signerGroupDigest
  split
  · next hlength =>
      have hrange : inputIndexes.map UInt32.toNat = List.range tx.inputs.length := by
        refine eq_range_of_ascending ?_ (by simpa using hbound) (by simpa using hlength)
        exact List.pairwise_map.mpr (hascending.imp UInt32.lt_iff_toNat_lt.mp)
      have hindexes : inputIndexes = (List.range tx.inputs.length).map UInt32.ofNat := by
        rw [← hrange, List.map_map]
        simp [Function.comp_def]
      have hinner : tx.signingDigest crypto =
          tx.signingDigestForInputIndexes crypto inputIndexes := by
        rw [Transaction.signingDigest, Transaction.signingDigestForInputIndexes, countPrefixed,
          hlength, hindexes, List.flatMap_map, List.append_assoc]
      rw [transactionSigningDigest, transactionSigningDigestForInputIndexes, hinner]
  · rfl

/-! Transactions. -/

theorem sumInputs_validates {crypto : Crypto} {prepared : PreparedTransactionValidation}
    {network : Network} {spendHeight : UInt64} {lookup : UtxoKey → Option UtxoEntry}
    {index : Nat} {total sum : UInt64} {inputs : List TxInput}
    (hsum : sumInputs crypto prepared network spendHeight lookup index total inputs =
      .ok sum) :
    ∀ {position : Nat} {input}, inputs[position]? = some input →
      ∃ utxo, lookup input.key = some utxo ∧
        validateInput crypto prepared network spendHeight (index + position) input utxo =
          .ok () := by
  induction inputs generalizing index total with
  | nil => simp
  | cons first rest ih =>
      simp only [sumInputs, bind_eq_ok, okOr_eq_ok] at hsum
      obtain ⟨utxo, hutxo, _, hvalid, next, -, hrest⟩ := hsum
      intro position input hinput
      cases position with
      | zero =>
          cases hinput
          exact ⟨utxo, hutxo, hvalid⟩
      | succ position =>
          have hrest := ih hrest hinput
          rwa [Nat.add_assoc, Nat.add_comm 1] at hrest

theorem verifySignerGroups_ok {crypto : Crypto} {tx : Transaction} {network : Network}
    {groups : List WitnessSignerGroup}
    (hverify : verifySignerGroups crypto tx network groups = .ok ()) :
    ∀ group ∈ groups, crypto.falconVerify .transaction group.pubkey
      (signerGroupDigest crypto tx network group.inputIndexes) group.signature =
        some true := by
  induction groups with
  | nil => simp
  | cons group groups ih =>
      simp only [verifySignerGroups, verifySignerGroup, bind_eq_ok, okOr_eq_ok,
        rejectWhen_eq_ok, Bool.not_eq_false'] at hverify
      obtain ⟨_, ⟨-, -, -, -, verified, hverified, rfl⟩, hrest⟩ := hverify
      exact List.forall_mem_cons.mpr ⟨hverified, ih hrest⟩

/-- The group names its inputs in ascending order, its key is the one that the
spent output is locked to, and its signature verifies over exactly its inputs. -/
structure Authorizes (crypto : Crypto) (tx : Transaction) (network : Network)
    (lookup : UtxoKey → Option UtxoEntry) (input : TxInput) (group : WitnessSignerGroup) :
    Prop where
  ascending : group.inputIndexes.Pairwise (· < ·)
  lock : ∃ utxo, lookup input.key = some utxo ∧
    paymentDigestFromLockingScript utxo.lockingScript =
      some (publicKeyDigest crypto network group.pubkey)
  signature : crypto.falconVerify .transaction group.pubkey
    (transactionSigningDigestForInputIndexes crypto network tx group.inputIndexes)
    group.signature = some true

/-- Each input belongs to exactly one signer group of the witness, and that group
authorizes its spend. -/
def Authorized (crypto : Crypto) (tx : Transaction) (network : Network)
    (lookup : UtxoKey → Option UtxoEntry) : Prop :=
  ∃ witness, tx.witnessPayload = some witness ∧
    ∀ (position : Nat) (input : TxInput), tx.inputs[position]? = some input →
      ∃ k group, witness.signerGroups[k]? = some group ∧
        position ∈ inputPositions group.inputRefs ∧
        (∀ (other : Nat) found, witness.signerGroups[other]? = some found →
          position ∈ inputPositions found.inputRefs → other = k) ∧
        Authorizes crypto tx network lookup input group

theorem authorized_of_checks {crypto : Crypto} {tx : Transaction} {network : Network}
    {height spendHeight fee : UInt64} {schedule : List ScheduledActivation}
    {prepared : PreparedTransactionValidation} {lookup : UtxoKey → Option UtxoEntry}
    (hprepared : Prepared crypto tx network height schedule prepared)
    (hcommon : validateTransactionWithContextCommon crypto tx prepared network spendHeight
      lookup = .ok fee)
    (hverify : verifySignerGroups crypto tx network prepared.signerGroups = .ok ()) :
    Authorized crypto tx network lookup := by
  obtain ⟨witness, hpayload, -, -, hgroups, hassign⟩ := hprepared.witness
  have hpartitioned := partitioned_of_assign hassign
  rw [hgroups] at hverify
  simp only [validateTransactionWithContextCommon, bind_eq_ok] at hcommon
  obtain ⟨total, hsum, -⟩ := hcommon
  refine ⟨witness, hpayload, fun position input hinput => ?_⟩
  have hlength : prepared.signerGroupByInput.length = tx.inputs.length := by
    simpa using hpartitioned.length
  obtain ⟨hposition, -⟩ := List.getElem?_eq_some_iff.mp hinput
  -- Every position is filed under some group, as none is left over.
  obtain ⟨g, hg⟩ : ∃ g, prepared.signerGroupByInput[position]? = some (some g) := by
    cases hslot : prepared.signerGroupByInput[position]? with
    | none =>
        rw [List.getElem?_eq_none_iff] at hslot
        omega
    | some slot =>
        cases slot with
        | none => exact absurd (List.mem_of_getElem? hslot) hprepared.assigned
        | some g => exact ⟨g, rfl⟩
  rcases hpartitioned.found hg with hstart | ⟨k, group, rfl, hgroup, hfiled⟩
  · simp [List.getElem?_replicate] at hstart
  rw [Nat.zero_add] at hg
  have hmem : group ∈ witness.signerGroups := List.mem_of_getElem? hgroup
  have hascending := hpartitioned.ascending group hmem
  refine ⟨k, group, hgroup, hfiled, ?_, hascending, ?_, ?_⟩
  · intro other found hfound hother
    obtain ⟨-, hslot⟩ := hpartitioned.filed hfound position hother
    rw [hg, Nat.zero_add] at hslot
    simpa using hslot.symm
  · obtain ⟨utxo, hutxo, hvalid⟩ := sumInputs_validates hsum hinput
    have hpubkey : prepared.signerPubkey (0 + position) = group.pubkey := by
      simp [PreparedTransactionValidation.signerPubkey,
        PreparedTransactionValidation.signerGroup, hg, hgroups, hgroup]
    simp only [validateInput, canonicalPaymentLock, hpubkey, bind_eq_ok, okOr_eq_ok,
      rejectWhen_eq_ok, decide_eq_false_iff_not, not_not] at hvalid
    obtain ⟨lock, hlock, -, -, -, -, -, hnetwork, -, hdigest, -⟩ := hvalid
    exact ⟨utxo, hutxo, by rw [hlock, ← hdigest, hnetwork]⟩
  · have hsigned := verifySignerGroups_ok hverify group hmem
    rwa [signerGroupDigest_eq hascending] at hsigned
    intro index hindex
    obtain ⟨ref, href, rfl⟩ := List.mem_map.mp hindex
    have hfree := (hpartitioned.filed hgroup _ (List.mem_map_of_mem href)).1
    obtain ⟨hlt, -⟩ := List.getElem?_eq_some_iff.mp hfree
    simpa using hlt

/-! Blocks. -/

theorem validateBody_append {crypto : Crypto} {network : Network} {height : UInt64}
    {witnessRoot : Bytes 48} {state state' : BodyState}
    {before after : List (Transaction × PreparedTransactionValidation)}
    (hbody : validateBody crypto network height witnessRoot state (before ++ after) =
      .ok state') :
    ∃ middle, validateBody crypto network height witnessRoot state before = .ok middle ∧
      validateBody crypto network height witnessRoot middle after = .ok state' := by
  induction before generalizing state with
  | nil => exact ⟨state, rfl, hbody⟩
  | cons pair before ih =>
      simp only [List.cons_append, validateBody, bind_eq_ok] at hbody ⊢
      obtain ⟨next, hnext, hrest⟩ := hbody
      obtain ⟨middle, hmiddle, hafter⟩ := ih hrest
      exact ⟨middle, ⟨next, hnext, hmiddle⟩, hafter⟩

theorem verifyTransactionSignatures_ok {crypto : Crypto} {network : Network}
    {transactions : List (Transaction × PreparedTransactionValidation)}
    (hverify : verifyTransactionSignatures crypto network transactions = .ok ()) :
    ∀ pair ∈ transactions,
      verifySignerGroups crypto pair.1 network pair.2.signerGroups = .ok () := by
  induction transactions with
  | nil => simp
  | cons pair rest ih =>
      obtain ⟨tx, prepared⟩ := pair
      simp only [verifyTransactionSignatures, bind_eq_ok] at hverify
      obtain ⟨_, hfirst, hrest⟩ := hverify
      exact List.forall_mem_cons.mpr ⟨hfirst, ih hrest⟩

/-- The store that a transaction of an accepted block spends from is the set
after the transactions between the coinbase and it. -/
theorem Accepted.checked {crypto : Crypto} {now : UInt64} {block : Block}
    {context : BlockValidationContext} {schedule : List ScheduledActivation}
    {earlier later : List Transaction} {tx : Transaction}
    (accepted : Accepted crypto now block context schedule)
    (hrest : accepted.rest = earlier ++ tx :: later) :
    ∃ prepared fee, Prepared crypto tx context.network context.height schedule prepared ∧
      validateTransactionWithContextCommon crypto tx prepared context.network context.height
        (applyAll context.utxos.get (bodyOps crypto context.network context.height earlier)) =
          .ok fee ∧
      verifySignerGroups crypto tx context.network prepared.signerGroups = .ok () := by
  have hforall := accepted.forall_prepared
  rw [hrest] at hforall
  obtain ⟨earlier', prepared, later', hprepared, hearlier, htx⟩ := forall₂_split hforall
  have hzip : accepted.rest.zip accepted.prepared =
      earlier.zip earlier' ++ (tx, prepared) :: later.zip later' := by
    rw [hrest, hprepared, List.zip_append hearlier.length_eq, List.zip_cons_cons]
  have hbody := accepted.body
  rw [hzip] at hbody
  obtain ⟨middle, hbefore, hafter⟩ := validateBody_append hbody
  obtain ⟨-, hoverlay, -⟩ := validateBody_ok hearlier hbefore
  rw [UtxoOverlay.get_new] at hoverlay
  simp only [validateBody, validateBodyTransaction,
    validateTransactionWithContextMinimumFeePrepared, bind_eq_ok] at hafter
  obtain ⟨_, ⟨_, ⟨fee, hcommon, -⟩, -⟩, -⟩ := hafter
  rw [hoverlay] at hcommon
  exact ⟨prepared, fee, htx, hcommon,
    verifyTransactionSignatures_ok accepted.signatures (tx, prepared) (by simp [hzip])⟩

theorem Accepted.authorized {crypto : Crypto} {now : UInt64} {block : Block}
    {context : BlockValidationContext} {schedule : List ScheduledActivation}
    {earlier later : List Transaction} {tx : Transaction}
    (accepted : Accepted crypto now block context schedule)
    (hrest : accepted.rest = earlier ++ tx :: later) :
    Authorized crypto tx context.network
      (applyAll context.utxos.get (bodyOps crypto context.network context.height earlier)) := by
  obtain ⟨prepared, fee, hprepared, hcommon, hverify⟩ := accepted.checked hrest
  exact authorized_of_checks hprepared hcommon hverify

/-- Spends are authorized: in a transaction that is accepted on its own, against
the lookup it was checked with, and in every transaction of an accepted block
that is not a coinbase, against the set as the transactions before it have left
it. -/
theorem accepted_spends_authorized (crypto : Crypto) (network : Network) (height : UInt64) :
    (∀ tx fee actualFee lookup,
      validateTransactionWithContext crypto tx fee network height lookup = .ok actualFee →
        Authorized crypto tx network lookup) ∧
    ∀ now block previousHash target previousBlocks (utxos : UtxoSet),
      validateBlockWithContext crypto now block height network previousHash target
          previousBlocks utxos = .ok () →
        ∀ before tx after, block.transactions = before ++ tx :: after →
          tx.isCoinbase = false →
          Authorized crypto tx network
            (applyAll utxos.get (bodyOps crypto network height before.tail)) := by
  refine ⟨fun tx fee actualFee lookup hvalid => ?_, ?_⟩
  · simp only [validateTransactionWithContext, validateTransactionWithContextAndSchedule,
      validateTransactionWithContextExactFeePrepared, bind_eq_ok] at hvalid
    obtain ⟨prepared, hprepare, _, ⟨_, hcommon, -⟩, _, hverify, -⟩ := hvalid
    exact authorized_of_checks (prepared_of_ok hprepare) hcommon hverify
  · intro now block previousHash target previousBlocks utxos hvalid before tx after hsplit
      hcoinbase
    obtain ⟨overlay, hoverlay⟩ := validateBlockWithContext_ok_iff.mp hvalid
    obtain ⟨accepted, -⟩ := accepted_of_ok hoverlay
    rw [accepted.transactions] at hsplit
    cases before with
    | nil =>
        cases hsplit
        simp [Transaction.isCoinbase, accepted.coinbaseInputs] at hcoinbase
    | cons first earlier =>
        obtain ⟨rfl, hrest⟩ := List.cons.inj hsplit
        exact accepted.authorized hrest

/-! A payment signed under the public key whose polynomial is the constant 111. -/

def exampleKey : List UInt8 :=
  9 :: beBytes 7 (111 * 2 ^ 42) ++ List.replicate 889 0

/-- The head byte, a zero nonce and the compressed short polynomial. -/
def exampleSignature : List UInt8 :=
  0x39 :: List.replicate 40 0 ++ [
    0xa4874833728c94da3d30d84bf192ddbc9e1998816df290a90c336505c3c971720904173f,
    0xa7d9e9b078683ec7511b94c131b85854c639308943331a2846326f3585c7e65839864f61,
    0x968be3b41aa8de0a6d15d7cc63f959541a55a88eea715b29be226d0dcf4630f2dd6c8b45,
    0x13d16d35721cec3a2995ce4b6619281e9b2b12c3ea209b291cba5d06cc68727828bc8621,
    0x9cd262a498fceece4f188e66647b0c86772987c666305adce6bf6b33c7cd35b978bc560b,
    0x0bd2c720f84d063a459882c0b0503c64072335806ba3930d4e4f15278a4472517dbe4763,
    0xacd2eb347b4c4652512285e671f1096e0e6588c2e470b91c263a59088e6624f2bdb69a47,
    0x0c87c2e13319b64a59288849251118ec0b272fc244a4f8387c474d238964f2f0f8de263f,
    0x82cce724b368563f251798c233f8cc0c961d2d9ae1625a38ce4f6f99d6e1a01a1c36cb39,
    0x2980442158dda427112191402458391cde390085c1a07a4d6e8b63b393e624599c0c834f,
    0x22d14ab63858961f6d07cac13591b98e2e2f1395e5a09999a61a0f9ec44021ba48142a6d,
    0x97c1eb711ae99402492dcbe7b1594d26334503c149f1d28d1eca1f81c1cae3f83cce2e25,
    0x84dae3f5795c86925f0c8f65b5b8b8048f5f269b6a2551d9546e5b83d0c431f0ec8e3759,
    0xa4d6612030edb4de0f0b856634501c1cba4900c5c1f41ae8c482253296e8e55839be1f6d,
    0x11cb6c75b138ee3f2d9b94c6a63959b40a3500c74275bb4d5e335f8c9064b3fa0906860d,
    0x348f60e5512884aa358a86cbb118d8b4de29928841727ab8b44f6995d16df5104c0e1f27].flatMap (beBytes 36) ++
  List.replicate 49 0

def exampleEntry : UtxoEntry where
  network := .regnet
  txid := .zero 48
  outputIndex := 0
  valueAtoms := 1000000
  lockingScript := beBytes 32
    0x0adb75a17dc01588ac750bfbca4a6fb8f3411ef98663669be3f185cadc4271f3
  createdHeight := 1
  isCoinbase := false

def exampleSet : UtxoSet :=
  ((UtxoSet.new .regnet).insert exampleEntry).2

def unsignedPayment : Transaction :=
  { UtxoSet.relayPayment [⟨.zero 48, 0, exampleEntry.lockingScript⟩] 900000 with
    txPowNonce := 13533
    txPowBits := 16 }

/-- The payment with its witness, in which `commitRef` is the part for the block. -/
def examplePayment (commitRef : Bytes 16) : Transaction :=
  let witness : TxWitness :=
    ⟨exampleSignature, exampleKey, [⟨0, .ofNat 2 0xe928, commitRef⟩], []⟩
  { unsignedPayment with witness := witness.canonicalBytes }

/-- SHA3 and a signature check that accepts the one signature. -/
def exampleCrypto : Crypto :=
  .standard fun domain key digest signature =>
    some (decide (domain = .transaction ∧ key = exampleKey ∧
      digest = .ofNat 48
        0x074bfd8841812e3a81535d0077bdb62cd0807457611652f2432c3d0495a421d07a9bcd73757e36f8b8809cf84ed98c34 ∧
      signature = exampleSignature))

/-- A mined block at height 2 with that payment. -/
def paymentBlock : Block where
  header :=
    { UtxoSet.echoBlock.header with
      height := 2
      merkleRoot := .ofNat 48
        0x9e6f2a187eedbbf9a4799b2dfdc4749b4808ed214f8ad43429d6579b7cbc3cac1509a8ee7892194d8de7cff95ba2320b
      witnessRoot := .ofNat 48
        0xb78ee37f2224de6846f8e96bb9505ada808e9a9e05de78d3e4c47207a583b7a48a9d83f7aeaab2edfedf8bad99c08bfe
      nonce := 8398 }
  transactions := [UtxoSet.relayPayment [] 5000100000,
    examplePayment (.ofNat 16 0xf281a6c8f7dcdc96637501dda41069e5)]

theorem examplePayment_valid :
    validateTransactionWithContext exampleCrypto (examplePayment (.zero 16)) 100000 .regnet 2
      exampleSet.get = .ok 100000 := by
  decide +kernel

theorem paymentBlock_valid :
    validateBlockWithContext exampleCrypto exampleClock paymentBlock 2 .regnet
      (genesisHash .hashing .regnet) genesisTarget [] exampleSet = .ok () := by
  decide +kernel

theorem examplePayment_authorized :
    Authorized exampleCrypto (examplePayment (.zero 16)) .regnet exampleSet.get ∧
      ∃ payment, paymentBlock.transactions = [UtxoSet.relayPayment [] 5000100000, payment] ∧
        Authorized exampleCrypto payment .regnet exampleSet.get := by
  have hauthorized := accepted_spends_authorized exampleCrypto .regnet 2
  refine ⟨hauthorized.1 _ _ _ _ examplePayment_valid, _, rfl, ?_⟩
  exact hauthorized.2 _ _ _ _ _ _ paymentBlock_valid [UtxoSet.relayPayment [] 5000100000] _ []
    rfl rfl

end Atho
