import Atho.Core.WitnessLeaf
import Atho.Storage.Commitment

/-! Binding the witness of a transaction to the block that carries it. -/

namespace Atho

/-! Witnesses with given references. -/

namespace TxWitness

def withCommitRefs (commitRef : UInt32 → Bytes 16) (witness : TxWitness) : TxWitness :=
  witness.mapInputRefs fun inputRef =>
    { inputRef with witnessCommitRef := commitRef inputRef.inputIndex }

theorem withCommitRefs_withoutCommitRefs (commitRef : UInt32 → Bytes 16) (witness : TxWitness) :
    witness.withoutCommitRefs.withCommitRefs commitRef = witness.withCommitRefs commitRef := by
  simp [withCommitRefs, withoutCommitRefs, mapInputRefs, WitnessInputRef.withoutCommitRef]

theorem mapInputRefs_eq_self {witness : TxWitness} {change : WitnessInputRef → WitnessInputRef}
    (hprimary : ∀ ref ∈ witness.inputRefs, change ref = ref)
    (hsigners : ∀ group ∈ witness.additionalSigners, ∀ ref ∈ group.inputRefs, change ref = ref) :
    witness.mapInputRefs change = witness := by
  have hgroups : (witness.additionalSigners.map fun group =>
      { group with inputRefs := group.inputRefs.map change }) = witness.additionalSigners := by
    refine (List.map_congr_left fun group hgroup => ?_).trans (List.map_id _)
    rw [(List.map_congr_left (hsigners group hgroup)).trans (List.map_id' _), id]
  rw [mapInputRefs, hgroups, (List.map_congr_left hprimary).trans (List.map_id' _)]

theorem Sized.withCommitRefs_eq {commitRef : UInt32 → Bytes 16} {witness : TxWitness}
    (hsized : witness.Sized fun ref => ref.witnessCommitRef = commitRef ref.inputIndex) :
    witness.withCommitRefs commitRef = witness := by
  refine mapInputRefs_eq_self (fun ref href => ?_) (fun group hgroup ref href => ?_)
  · rw [← hsized.primary.refs ref href]
  · rw [← (hsized.additionalSigners group hgroup).refs ref href]

theorem withoutCommitRefs_withCommitRefs (commitRef : UInt32 → Bytes 16) (witness : TxWitness) :
    (witness.withCommitRefs commitRef).withoutCommitRefs = witness.withoutCommitRefs := by
  simp [withCommitRefs, withoutCommitRefs, mapInputRefs, WitnessInputRef.withoutCommitRef]

theorem Framed.withCommitRefs {witness : TxWitness} (hwitness : witness.Framed)
    (commitRef : UInt32 → Bytes 16) : (witness.withCommitRefs commitRef).Framed := by
  refine ⟨⟨hwitness.primary.signature, hwitness.primary.pubkey⟩, ?_, fun group hgroup => ?_, ?_⟩
  · simpa [TxWitness.withCommitRefs, mapInputRefs] using hwitness.additional
  · obtain ⟨group, hmem, rfl⟩ := List.mem_map.mp hgroup
    have hframed := hwitness.additionalSigners group hmem
    exact ⟨hframed.signature, hframed.pubkey⟩
  · simpa [TxWitness.withCommitRefs, mapInputRefs, TxWitness.totalInputRefs, Function.comp_def]
      using hwitness.totalInputRefs

theorem commitRef_of_withCommitRefs {commitRef : UInt32 → Bytes 16} {witness : TxWitness}
    {group : WitnessSignerGroup} (hgroup : group ∈ (witness.withCommitRefs commitRef).signerGroups) :
    ∀ ref ∈ group.inputRefs, ref.witnessCommitRef = commitRef ref.inputIndex := by
  have hmapped : ∀ refs : List WitnessInputRef, ∀ ref ∈ refs.map (fun inputRef =>
      { inputRef with witnessCommitRef := commitRef inputRef.inputIndex }),
      ref.witnessCommitRef = commitRef ref.inputIndex := by
    intro refs ref href
    obtain ⟨inputRef, -, rfl⟩ := List.mem_map.mp href
    rfl
  rw [signerGroups] at hgroup
  split at hgroup
  · cases hgroup
  · rcases List.mem_cons.mp hgroup with rfl | hgroup
    · exact hmapped witness.inputRefs
    · obtain ⟨group, -, rfl⟩ := List.mem_map.mp hgroup
      exact hmapped group.inputRefs

/-! What does not see the references. -/

theorem length_canonicalBytes_withoutCommitRefs (witness : TxWitness) :
    witness.withoutCommitRefs.canonicalBytes.length = witness.canonicalBytes.length := by
  have hgroup : ∀ group : WitnessSignerGroup,
      (group.withoutCommitRefs.bytesWith WitnessInputRef.canonicalBytes).length =
        (group.bytesWith WitnessInputRef.canonicalBytes).length := by
    intro group
    simp [WitnessSignerGroup.bytesWith, WitnessSignerGroup.withoutCommitRefs, countPrefixed,
      List.flatMap_map, List.length_flatMap, WitnessInputRef.length_canonicalBytes]
  rw [canonicalBytes, canonicalBytes, bytesWith, bytesWith, List.length_append,
    List.length_append]
  congr 1
  · exact hgroup witness.primary
  · simp only [additionalSigners_withoutCommitRefs, countPrefixed, List.length_append,
      List.length_map, List.flatMap_map, List.length_flatMap, hgroup]

theorem signerGroups_withoutCommitRefs (witness : TxWitness) :
    witness.withoutCommitRefs.signerGroups =
      witness.signerGroups.map WitnessSignerGroup.withoutCommitRefs := by
  have hempty : witness.withoutCommitRefs.isEmpty = witness.isEmpty := by
    simp [isEmpty, withoutCommitRefs, mapInputRefs]
  rw [signerGroups, signerGroups, hempty]
  split <;> rfl

theorem signerGroupCount_eq (witness : TxWitness) :
    witness.signerGroupCount = witness.signerGroups.length := by
  rw [signerGroupCount, signerGroups]
  split
  · rfl
  · rw [List.length_cons, Nat.add_comm]

end TxWitness

/-! Transactions. -/

theorem Transaction.witnessPayload_framed {tx : Transaction} {witness : TxWitness}
    (hpayload : tx.witnessPayload = some witness) :
    tx.witness = witness.canonicalBytes ∧ witness.Framed := by
  unfold witnessPayload at hpayload
  split at hpayload
  · cases hpayload
  · exact TxWitness.fromBytes_framed hpayload

/-- Rebuilds the references of a witness against the root of the selected block. -/
def finalizeWitnessCommitRefs (crypto : Crypto) (tx : Transaction)
    (blockWitnessRoot : Bytes 48) : Transaction :=
  match tx.witnessPayload with
  | none => tx
  | some witness =>
      let txid := tx.txid crypto
      let witness := witness.withCommitRefs (deriveWitnessCommitRef crypto txid blockWitnessRoot)
      { tx with witness := witness.canonicalBytes }

theorem witnessPayload_finalizeWitnessCommitRefs (crypto : Crypto) (tx : Transaction)
    (blockWitnessRoot : Bytes 48) :
    (finalizeWitnessCommitRefs crypto tx blockWitnessRoot).witnessPayload =
      tx.witnessPayload.map
        (·.withCommitRefs (deriveWitnessCommitRef crypto (tx.txid crypto) blockWitnessRoot)) := by
  rw [finalizeWitnessCommitRefs]
  cases hpayload : tx.witnessPayload with
  | none => exact hpayload
  | some witness =>
      have hframed := (Transaction.witnessPayload_framed hpayload).2
      exact (hframed.withCommitRefs _).witnessPayload_canonicalBytes tx

/-- Two transactions differ in nothing but the references to their blocks. -/
def Transaction.SameUpToRefs (left right : Transaction) : Prop :=
  left = { right with witness := left.witness } ∧ left.WitnessMatches right

namespace Transaction.SameUpToRefs

theorem refl (tx : Transaction) : tx.SameUpToRefs tx :=
  ⟨rfl, .inl rfl⟩

variable {left right : Transaction} (hsame : left.SameUpToRefs right)
include hsame

theorem symm : right.SameUpToRefs left := by
  obtain ⟨hfields, hmatches⟩ := hsame
  refine ⟨by rw [hfields], ?_⟩
  rcases hmatches with hwitness | ⟨witness, witness', hpayload, hpayload', heq⟩
  · exact .inl hwitness.symm
  · exact .inr ⟨witness', witness, hpayload', hpayload, heq.symm⟩

theorem baseBytes_eq : left.baseBytes = right.baseBytes := by
  rw [hsame.1]
  rfl

theorem inputs_eq : left.inputs = right.inputs := by
  rw [hsame.1]

theorem txid_eq (crypto : Crypto) : left.txid crypto = right.txid crypto :=
  congrArg crypto.sha3_384 hsame.baseBytes_eq

theorem witnessLeaf_eq : left.witnessLeaf = right.witnessLeaf := by
  have hfields := hsame.1
  rcases hsame.2 with hwitness | ⟨witness, witness', hpayload, hpayload', heq⟩
  · rw [hfields, hwitness]
  · have hcommitted : witness.commitmentBytes = witness'.commitmentBytes := by
      rw [← witness.commitmentBytes_withoutCommitRefs, heq,
        witness'.commitmentBytes_withoutCommitRefs]
    have hpow : left.txPowNonce = right.txPowNonce ∧ left.txPowBits = right.txPowBits := by
      rw [hfields]
      exact ⟨rfl, rfl⟩
    rw [witnessLeaf, witnessLeaf, (suffix_of_payload hpayload).2, (suffix_of_payload hpayload').2,
      hsame.baseBytes_eq, hcommitted, hpow.1, hpow.2]

theorem length_witness_eq : left.witness.length = right.witness.length := by
  rcases hsame.2 with hwitness | ⟨witness, witness', hpayload, hpayload', heq⟩
  · rw [hwitness]
  · rw [(witnessPayload_sound hpayload).1, (witnessPayload_sound hpayload').1,
      ← witness.length_canonicalBytes_withoutCommitRefs, heq,
      witness'.length_canonicalBytes_withoutCommitRefs]

theorem fullSizeBytes_eq : left.fullSizeBytes = right.fullSizeBytes := by
  rw [fullSizeBytes, hsame.length_witness_eq, hsame.1]
  rfl

theorem baseSizeBytes_eq : left.baseSizeBytes = right.baseSizeBytes := by
  rw [hsame.1]
  rfl

theorem vsizeBytes_eq : left.vsizeBytes = right.vsizeBytes := by
  rw [vsizeBytes, weightBytes, hsame.baseSizeBytes_eq, hsame.fullSizeBytes_eq, vsizeBytes,
    weightBytes]

theorem txPowMessage_eq : txPowMessage left = txPowMessage right := by
  rcases hsame.2 with hwitness | ⟨witness, witness', hpayload, hpayload', heq⟩
  · rw [hsame.1, hwitness]
  · have hgroups : ∀ witness : TxWitness, witness.signerGroups.flatMap
        (WitnessSignerGroup.bytesWith WitnessInputRef.commitmentBytes) =
        witness.withoutCommitRefs.signerGroups.flatMap
          (WitnessSignerGroup.bytesWith WitnessInputRef.commitmentBytes) := by
      intro witness
      simp only [TxWitness.signerGroups_withoutCommitRefs, List.flatMap_map,
        WitnessSignerGroup.commitmentBytes_withoutCommitRefs]
    have hcount : ∀ witness : TxWitness,
        witness.signerGroupCount = witness.withoutCommitRefs.signerGroups.length := by
      intro witness
      rw [witness.signerGroupCount_eq, witness.signerGroups_withoutCommitRefs, List.length_map]
    rw [txPowMessage, txPowMessage, hpayload, hpayload', hsame.baseBytes_eq]
    simp only [hgroups witness, hcount witness, heq, ← hgroups witness', ← hcount witness']

theorem signingDigest_eq (crypto : Crypto) :
    left.signingDigest crypto = right.signingDigest crypto := by
  rw [signingDigest, hsame.baseBytes_eq, hsame.inputs_eq]
  rfl

theorem signingDigestForInputIndexes_eq (crypto : Crypto) (inputIndexes : List UInt32) :
    left.signingDigestForInputIndexes crypto inputIndexes =
      right.signingDigestForInputIndexes crypto inputIndexes := by
  rw [signingDigestForInputIndexes, hsame.baseBytes_eq]
  rfl

theorem transactionSigningDigest_eq (crypto : Crypto) (network : Network) :
    transactionSigningDigest crypto network left = transactionSigningDigest crypto network right := by
  rw [transactionSigningDigest, hsame.signingDigest_eq, transactionSigningDigest]

theorem transactionSigningDigestForInputIndexes_eq (crypto : Crypto) (network : Network)
    (inputIndexes : List UInt32) :
    transactionSigningDigestForInputIndexes crypto network left inputIndexes =
      transactionSigningDigestForInputIndexes crypto network right inputIndexes := by
  rw [transactionSigningDigestForInputIndexes, hsame.signingDigestForInputIndexes_eq,
    transactionSigningDigestForInputIndexes]

theorem transactionPowPreimage_eq (crypto : Crypto) (network : Network) :
    transactionPowPreimage crypto network left = transactionPowPreimage crypto network right := by
  rw [transactionPowPreimage, hsame.txPowMessage_eq, transactionPowPreimage]

theorem witnessCommitmentHash_eq (crypto : Crypto) :
    left.witnessCommitmentHash crypto = right.witnessCommitmentHash crypto :=
  congrArg crypto.sha3_384 hsame.witnessLeaf_eq

theorem finalizeWitnessCommitRefs_eq (crypto : Crypto) (blockWitnessRoot : Bytes 48) :
    finalizeWitnessCommitRefs crypto left blockWitnessRoot =
      finalizeWitnessCommitRefs crypto right blockWitnessRoot := by
  rcases hsame.2 with hwitness | ⟨witness, witness', hpayload, hpayload', heq⟩
  · rw [hsame.1, hwitness]
  · rw [finalizeWitnessCommitRefs, finalizeWitnessCommitRefs, hpayload, hpayload']
    simp only [hsame.txid_eq crypto]
    rw [← witness.withCommitRefs_withoutCommitRefs, heq,
      witness'.withCommitRefs_withoutCommitRefs, hsame.1]

end Transaction.SameUpToRefs

theorem finalizeWitnessCommitRefs_same (crypto : Crypto) (tx : Transaction)
    (blockWitnessRoot : Bytes 48) :
    (finalizeWitnessCommitRefs crypto tx blockWitnessRoot).SameUpToRefs tx := by
  have hpayload := witnessPayload_finalizeWitnessCommitRefs crypto tx blockWitnessRoot
  cases hparsed : tx.witnessPayload with
  | none =>
      rw [finalizeWitnessCommitRefs, hparsed]
      exact .refl tx
  | some witness =>
      rw [hparsed] at hpayload
      refine ⟨?_, .inr ⟨_, witness, hpayload, hparsed,
        witness.withoutCommitRefs_withCommitRefs _⟩⟩
      rw [finalizeWitnessCommitRefs, hparsed]

theorem Witnessed.finalizeWitnessCommitRefs_self {crypto : Crypto} {blockWitnessRoot : Bytes 48}
    {tx : Transaction} (hwitnessed : Witnessed crypto blockWitnessRoot tx) :
    finalizeWitnessCommitRefs crypto tx blockWitnessRoot = tx := by
  obtain ⟨witness, hpayload, hsized⟩ := hwitnessed
  rw [finalizeWitnessCommitRefs, hpayload]
  simp only [hsized.withCommitRefs_eq]
  rw [← (Transaction.witnessPayload_sound hpayload).1]

/-- A transaction that already refers to the block is what every copy of it is
finalized to. -/
theorem Witnessed.finalizeWitnessCommitRefs_eq {crypto : Crypto} {blockWitnessRoot : Bytes 48}
    {tx other : Transaction} (hwitnessed : Witnessed crypto blockWitnessRoot tx)
    (hsame : other.SameUpToRefs tx) :
    finalizeWitnessCommitRefs crypto other blockWitnessRoot = tx := by
  rw [hsame.finalizeWitnessCommitRefs_eq, hwitnessed.finalizeWitnessCommitRefs_self]

theorem finalizeWitnessCommitRefs_of_bare (crypto : Crypto) {tx : Transaction}
    (hbare : tx.bare = true) (blockWitnessRoot : Bytes 48) :
    finalizeWitnessCommitRefs crypto tx blockWitnessRoot = tx := by
  simp only [Transaction.bare, Bool.and_eq_true] at hbare
  rw [finalizeWitnessCommitRefs, Transaction.witnessPayload, if_pos hbare.1.1]

/-- Binding a transaction to a block changes nothing but its references to the block. -/
theorem finalize_changes_only_refs (crypto : Crypto) (tx : Transaction)
    (blockWitnessRoot otherRoot : Bytes 48) :
    let bound := finalizeWitnessCommitRefs crypto tx blockWitnessRoot
    bound.txid crypto = tx.txid crypto ∧
      bound.witnessCommitmentHash crypto = tx.witnessCommitmentHash crypto ∧
      bound.signingDigest crypto = tx.signingDigest crypto ∧
      (∀ inputIndexes, bound.signingDigestForInputIndexes crypto inputIndexes =
        tx.signingDigestForInputIndexes crypto inputIndexes) ∧
      (∀ network, transactionSigningDigest crypto network bound =
        transactionSigningDigest crypto network tx) ∧
      (∀ network inputIndexes,
        transactionSigningDigestForInputIndexes crypto network bound inputIndexes =
          transactionSigningDigestForInputIndexes crypto network tx inputIndexes) ∧
      (∀ network, transactionPowPreimage crypto network bound =
        transactionPowPreimage crypto network tx) ∧
      bound.baseSizeBytes = tx.baseSizeBytes ∧ bound.fullSizeBytes = tx.fullSizeBytes ∧
      bound.vsizeBytes = tx.vsizeBytes ∧
      bound.witnessPayload.isSome = tx.witnessPayload.isSome ∧
      (∀ witness, bound.witnessPayload = some witness →
        ∀ group ∈ witness.signerGroups, ∀ ref ∈ group.inputRefs, ref.witnessCommitRef =
          deriveWitnessCommitRef crypto (bound.txid crypto) blockWitnessRoot ref.inputIndex) ∧
      finalizeWitnessCommitRefs crypto bound otherRoot =
        finalizeWitnessCommitRefs crypto tx otherRoot := by
  intro bound
  have hsame : bound.SameUpToRefs tx := finalizeWitnessCommitRefs_same crypto tx blockWitnessRoot
  have hpayload : bound.witnessPayload = _ :=
    witnessPayload_finalizeWitnessCommitRefs crypto tx blockWitnessRoot
  refine ⟨hsame.txid_eq crypto, hsame.witnessCommitmentHash_eq crypto, hsame.signingDigest_eq crypto,
    hsame.signingDigestForInputIndexes_eq crypto, hsame.transactionSigningDigest_eq crypto,
    hsame.transactionSigningDigestForInputIndexes_eq crypto, hsame.transactionPowPreimage_eq crypto,
    hsame.baseSizeBytes_eq, hsame.fullSizeBytes_eq, hsame.vsizeBytes_eq, ?_,
    fun witness hwitness group hgroup => ?_, hsame.finalizeWitnessCommitRefs_eq crypto otherRoot⟩
  · rw [hpayload, Option.isSome_map]
  · rw [hpayload, Option.map_eq_some_iff] at hwitness
    obtain ⟨parsed, -, rfl⟩ := hwitness
    rw [hsame.txid_eq crypto]
    exact TxWitness.commitRef_of_withCommitRefs hgroup

end Atho
