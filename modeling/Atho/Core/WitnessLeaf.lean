import Atho.Core.Streams

/-! What the leaf of the witness tree says about its transaction. -/

namespace Atho

/-! A witness without the references that belong to a block. -/

def WitnessInputRef.withoutCommitRef (ref : WitnessInputRef) : WitnessInputRef :=
  { ref with witnessCommitRef := .zero 16 }

def WitnessSignerGroup.withoutCommitRefs (group : WitnessSignerGroup) : WitnessSignerGroup :=
  { group with inputRefs := group.inputRefs.map WitnessInputRef.withoutCommitRef }

theorem WitnessSignerGroup.commitmentBytes_withoutCommitRefs (group : WitnessSignerGroup) :
    group.withoutCommitRefs.bytesWith WitnessInputRef.commitmentBytes =
      group.bytesWith WitnessInputRef.commitmentBytes := by
  simp only [withoutCommitRefs, bytesWith, countPrefixed, List.length_map, List.flatMap_map]
  rfl

theorem WitnessSignerGroup.Sized.withoutCommitRefs {group : WitnessSignerGroup}
    (hgroup : group.Sized fun _ => True) :
    group.withoutCommitRefs.Sized fun ref => ref.witnessCommitRef = .zero 16 := by
  refine ⟨hgroup.signature, hgroup.pubkey,
    by simpa [WitnessSignerGroup.withoutCommitRefs] using hgroup.inputRefs, fun ref href => ?_⟩
  obtain ⟨ref, -, rfl⟩ := List.mem_map.mp href
  rfl

namespace TxWitness

def withoutCommitRefs (witness : TxWitness) : TxWitness :=
  witness.mapInputRefs WitnessInputRef.withoutCommitRef

theorem additionalSigners_withoutCommitRefs (witness : TxWitness) :
    witness.withoutCommitRefs.additionalSigners =
      witness.additionalSigners.map WitnessSignerGroup.withoutCommitRefs :=
  rfl

theorem commitmentBytes_withoutCommitRefs (witness : TxWitness) :
    witness.withoutCommitRefs.commitmentBytes = witness.commitmentBytes := by
  rw [commitmentBytes, commitmentBytes, bytesWith, bytesWith]
  congr 1
  · exact witness.primary.commitmentBytes_withoutCommitRefs
  · simp only [additionalSigners_withoutCommitRefs, countPrefixed, List.length_map,
      List.flatMap_map, WitnessSignerGroup.commitmentBytes_withoutCommitRefs]

theorem Sized.withoutCommitRefs {witness : TxWitness} (hsized : witness.Sized fun _ => True) :
    witness.withoutCommitRefs.Sized fun ref => ref.witnessCommitRef = .zero 16 := by
  refine ⟨hsized.primary.withoutCommitRefs, ?_, fun group hmem => ?_⟩
  · simpa [additionalSigners_withoutCommitRefs] using hsized.additional
  · obtain ⟨group, hgroups, rfl⟩ := List.mem_map.mp hmem
    exact (hsized.additionalSigners group hgroups).withoutCommitRefs

theorem eq_of_commitmentBytes {left right : TxWitness} {after after' : List UInt8}
    (hleft : left.Sized fun _ => True) (hright : right.Sized fun _ => True)
    (heq : left.commitmentBytes ++ after = right.commitmentBytes ++ after') :
    left.withoutCommitRefs = right.withoutCommitRefs ∧ after = after' := by
  rw [← left.commitmentBytes_withoutCommitRefs, ← right.commitmentBytes_withoutCommitRefs] at heq
  exact unambiguous_witness (unambiguous_commitmentBytes fun _ => .zero 16)
    hleft.withoutCommitRefs hright.withoutCommitRefs heq

end TxWitness

namespace Transaction

theorem witnessPayload_sound {tx : Transaction} {witness : TxWitness}
    (hpayload : tx.witnessPayload = some witness) :
    tx.witness = witness.canonicalBytes ∧ witness.Sized fun _ => True := by
  unfold witnessPayload at hpayload
  split at hpayload
  · cases hpayload
  · exact TxWitness.fromBytes_sound hpayload

def powBytes (tx : Transaction) : List UInt8 :=
  le64 tx.txPowNonce ++ [tx.txPowBits]

/-- The four shapes of what a leaf has after the base bytes; the first has no tag. -/
inductive LeafShape (tx : Transaction) : List UInt8 → Prop where
  | bare (hbare : tx.bare = true) : LeafShape tx []
  | unwitnessed (hempty : tx.witness = []) : LeafShape tx (0 :: tx.powBytes)
  | parsed (witness : TxWitness) (hpayload : tx.witnessPayload = some witness) :
      LeafShape tx (1 :: (witness.commitmentBytes ++ tx.powBytes))
  | unparsed (hpayload : tx.witnessPayload = none) :
      LeafShape tx (2 :: (lengthPrefixed tx.witness ++ tx.powBytes))

theorem leafShape (tx : Transaction) : LeafShape tx tx.witnessCommitmentSuffix := by
  rw [witnessCommitmentSuffix, List.append_assoc]
  change LeafShape tx (if tx.bare then [] else _ ++ tx.powBytes)
  cases hbare : tx.bare
  · cases hempty : tx.witness.isEmpty
    · cases hpayload : tx.witnessPayload with
      | none => simpa using LeafShape.unparsed hpayload
      | some witness => simpa using LeafShape.parsed witness hpayload
    · simpa using LeafShape.unwitnessed (List.isEmpty_iff.mp hempty)
  · simpa using LeafShape.bare hbare

theorem powBytes_inj {left right : Transaction} (heq : left.powBytes = right.powBytes) :
    left.txPowNonce = right.txPowNonce ∧ left.txPowBits = right.txPowBits := by
  obtain ⟨hnonce, hbits⟩ := unambiguous_le64 trivial trivial heq
  exact ⟨hnonce, List.singleton_inj.mp hbits⟩

/-- The witnesses are the same, or parse to bundles that differ in nothing but their
block-specific references. -/
def WitnessMatches (left right : Transaction) : Prop :=
  left.witness = right.witness ∨
    ∃ witness witness', left.witnessPayload = some witness ∧
      right.witnessPayload = some witness' ∧
      witness.withoutCommitRefs = witness'.withoutCommitRefs

theorem matches_of_suffix_eq {left right : Transaction}
    (hleft : left.witness.length < 2 ^ 32) (hright : right.witness.length < 2 ^ 32)
    (heq : left.witnessCommitmentSuffix = right.witnessCommitmentSuffix) :
    left.WitnessMatches right ∧ left.powBytes = right.powBytes := by
  have hshape := left.leafShape
  have hshape' := right.leafShape
  generalize left.witnessCommitmentSuffix = suffix at hshape heq
  generalize right.witnessCommitmentSuffix = suffix' at hshape' heq
  -- the tags tell every pair of different shapes apart
  cases hshape with
  | bare hbare =>
      cases hshape' with
      | bare hbare' =>
          simp only [bare, Bool.and_eq_true, List.isEmpty_iff, beq_iff_eq] at hbare hbare'
          refine ⟨.inl (hbare.1.1.trans hbare'.1.1.symm), ?_⟩
          rw [powBytes, powBytes, hbare.1.2, hbare.2, hbare'.1.2, hbare'.2]
      | _ => cases heq
  | unwitnessed hempty =>
      cases hshape' with
      | unwitnessed hempty' =>
          exact ⟨.inl (hempty.trans hempty'.symm), (List.cons.inj heq).2⟩
      | _ => simp at heq
  | parsed witness hpayload =>
      cases hshape' with
      | parsed witness' hpayload' =>
          obtain ⟨hcommitted, hpow⟩ := TxWitness.eq_of_commitmentBytes
            (witnessPayload_sound hpayload).2 (witnessPayload_sound hpayload').2
            (List.cons.inj heq).2
          exact ⟨.inr ⟨witness, witness', hpayload, hpayload', hcommitted⟩, hpow⟩
      | _ => simp at heq
  | unparsed hpayload =>
      cases hshape' with
      | unparsed hpayload' =>
          obtain ⟨hbytes, hpow⟩ := unambiguous_lengthPrefixed hleft hright (List.cons.inj heq).2
          exact ⟨.inl hbytes, hpow⟩
      | _ => simp at heq

/-- All lengths that are written in four bytes fit them. -/
structure Measured (tx : Transaction) : Prop extends tx.Sized where
  witnessLength : tx.witness.length < 2 ^ 32

end Transaction

/-- Transactions whose witness leaves are hashed from the same bytes agree in every field,
up to the block-specific references of witnesses that parse. -/
theorem eq_of_witness_stream_eq {left right : Transaction}
    (hleft : left.Measured) (hright : right.Measured)
    (heq : left.updateWitnessCommitmentHasher .transcript [] =
      right.updateWitnessCommitmentHasher .transcript []) :
    left = { right with witness := left.witness } ∧ left.WitnessMatches right := by
  rw [left.updateWitnessCommitmentHasher_eq, right.updateWitnessCommitmentHasher_eq] at heq
  obtain ⟨hbase, hsuffix⟩ := Transaction.eq_of_baseBytes hleft.toSized hright.toSized heq
  obtain ⟨hmatches, hpow⟩ := Transaction.matches_of_suffix_eq hleft.witnessLength
    hright.witnessLength hsuffix
  obtain ⟨hnonce, hbits⟩ := Transaction.powBytes_inj hpow
  refine ⟨?_, hmatches⟩
  rw [hbase, hnonce, hbits]

/-- The bundle of `oneSignerWitness` with the reference of another block. -/
def otherBlockWitness : TxWitness :=
  { oneSignerWitness with
    inputRefs := oneSignerWitness.inputRefs.map fun ref =>
      { ref with witnessCommitRef := ⟨List.replicate 16 4, rfl⟩ } }

def otherBlockTransaction : Transaction :=
  { oneSignerTransaction with witness := otherBlockWitness.canonicalBytes }

theorem other_block_same_stream :
    oneSignerTransaction.Measured ∧ otherBlockTransaction.Measured ∧
      oneSignerTransaction ≠ otherBlockTransaction ∧
      oneSignerTransaction.WitnessMatches otherBlockTransaction := by
  have hleft : oneSignerTransaction.Measured :=
    ⟨oneSignerTransaction_wellFormed.toSized, oneSignerTransaction_wellFormed.witnessLength⟩
  have hright : otherBlockTransaction.Measured :=
    ⟨⟨by decide, by decide, by decide, by decide⟩, by decide +kernel⟩
  exact ⟨hleft, hright, by decide +kernel,
    (eq_of_witness_stream_eq hleft hright (by decide +kernel)).2⟩

end Atho
