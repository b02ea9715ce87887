import Atho.Core.Transaction

/-! What the canonical bytes of transactions and witnesses determine. -/

namespace Atho

/-! Lengths. -/

theorem length_flatMap_of_length {encode : α → List UInt8} {size : α → Nat}
    (hsize : ∀ item, (encode item).length = size item) (items : List α) :
    (items.flatMap encode).length = (items.map size).sum := by
  simp [List.length_flatMap, hsize]

theorem TxInput.length_bytes (input : TxInput) :
    input.bytes.length = 48 + 4 + 4 + input.unlockingScript.length := by
  simp only [TxInput.bytes, lengthPrefixed, List.length_append, length_le32,
    Bytes.length_toList]
  omega

theorem TxOutput.length_bytes (output : TxOutput) :
    output.bytes.length = 8 + 4 + output.lockingScript.length := by
  simp only [TxOutput.bytes, lengthPrefixed, List.length_append, length_le32, length_le64]
  omega

namespace Transaction

theorem length_baseBytes (tx : Transaction) : tx.baseBytes.length = tx.baseSizeBytes := by
  simp only [baseBytes, countPrefixed, List.length_append, length_le16, length_le32,
    length_flatMap_of_length TxInput.length_bytes,
    length_flatMap_of_length TxOutput.length_bytes, baseSizeBytes]
  omega

/-- Every length that the canonical bytes write fits its four bytes. -/
structure Sized (tx : Transaction) : Prop where
  inputs : tx.inputs.length < 2 ^ 32
  unlockingScripts : ∀ input ∈ tx.inputs, input.unlockingScript.length < 2 ^ 32
  outputs : tx.outputs.length < 2 ^ 32
  lockingScripts : ∀ output ∈ tx.outputs, output.lockingScript.length < 2 ^ 32

theorem length_le_sum {items : List α} {size : α → Nat} {base : Nat} (hbase : 0 < base)
    (hsize : ∀ item ∈ items, base ≤ size item) : items.length ≤ (items.map size).sum := by
  have hone : ∀ item ∈ items, 1 ≤ size item := fun item hitem => hbase.trans_le (hsize item hitem)
  simpa using List.length_le_sum_of_one_le (items.map size) (by simpa using hone)

theorem Sized.of_fullSizeBytes {tx : Transaction} (hsize : tx.fullSizeBytes < 2 ^ 32) :
    tx.Sized := by
  have hinputs := @length_le_sum _ tx.inputs
    (fun input => 48 + 4 + 4 + input.unlockingScript.length) 56 (by decide) (by intros; omega)
  have houtputs := @length_le_sum _ tx.outputs
    (fun output => 8 + 4 + output.lockingScript.length) 12 (by decide) (by intros; omega)
  unfold fullSizeBytes at hsize
  refine ⟨by omega, ?_, by omega, ?_⟩
  · intro input hinput
    have hle := List.single_le_sum (l := tx.inputs.map
      fun input => 48 + 4 + 4 + input.unlockingScript.length) (by simp) _
      (List.mem_map_of_mem hinput)
    omega
  · intro output houtput
    have hle := List.single_le_sum (l := tx.outputs.map
      fun output => 8 + 4 + output.lockingScript.length) (by simp) _
      (List.mem_map_of_mem houtput)
    omega

end Transaction

/-! Transactions. -/

theorem unambiguous_txInput :
    Unambiguous (fun input => input.unlockingScript.length < 2 ^ 32) TxInput.bytes := by
  intro left right after after' hleft hright heq
  simp only [TxInput.bytes, List.append_assoc] at heq
  obtain ⟨htxid, heq⟩ := unambiguous_bytes trivial trivial heq
  obtain ⟨hindex, heq⟩ := unambiguous_le32 trivial trivial heq
  obtain ⟨hscript, heq⟩ := unambiguous_lengthPrefixed hleft hright heq
  cases left
  cases right
  simp_all

theorem unambiguous_txOutput :
    Unambiguous (fun output => output.lockingScript.length < 2 ^ 32) TxOutput.bytes := by
  intro left right after after' hleft hright heq
  simp only [TxOutput.bytes, List.append_assoc] at heq
  obtain ⟨hvalue, heq⟩ := unambiguous_le64 trivial trivial heq
  obtain ⟨hscript, heq⟩ := unambiguous_lengthPrefixed hleft hright heq
  cases left
  cases right
  simp_all

theorem Transaction.eq_of_baseBytes {left right : Transaction} {after after' : List UInt8}
    (hleft : left.Sized) (hright : right.Sized)
    (heq : left.baseBytes ++ after = right.baseBytes ++ after') :
    left = { right with
      witness := left.witness
      txPowNonce := left.txPowNonce
      txPowBits := left.txPowBits } ∧ after = after' := by
  simp only [baseBytes, List.append_assoc] at heq
  obtain ⟨hversion, heq⟩ := unambiguous_le16 trivial trivial heq
  obtain ⟨hinputs, heq⟩ := unambiguous_countPrefixed unambiguous_txInput
    ⟨hleft.inputs, hleft.unlockingScripts⟩ ⟨hright.inputs, hright.unlockingScripts⟩ heq
  obtain ⟨houtputs, heq⟩ := unambiguous_countPrefixed unambiguous_txOutput
    ⟨hleft.outputs, hleft.lockingScripts⟩ ⟨hright.outputs, hright.lockingScripts⟩ heq
  obtain ⟨hlockTime, hafter⟩ := unambiguous_le32 trivial trivial heq
  refine ⟨?_, hafter⟩
  cases left
  cases right
  simp_all

/-! Witnesses. -/

/-- The lengths of a signer group fit, and its references satisfy `validRef`. -/
structure WitnessSignerGroup.Sized (validRef : WitnessInputRef → Prop)
    (group : WitnessSignerGroup) : Prop where
  signature : group.signature.length < 2 ^ 32
  pubkey : group.pubkey.length < 2 ^ 32
  inputRefs : group.inputRefs.length < 2 ^ 32
  refs : ∀ ref ∈ group.inputRefs, validRef ref

structure TxWitness.Sized (validRef : WitnessInputRef → Prop) (witness : TxWitness) : Prop where
  primary : witness.primary.Sized validRef
  additional : witness.additionalSigners.length < 2 ^ 32
  additionalSigners : ∀ group ∈ witness.additionalSigners, group.Sized validRef

section

variable {validRef : WitnessInputRef → Prop} {encodeRef : WitnessInputRef → List UInt8}

theorem unambiguous_signerGroup (href : Unambiguous validRef encodeRef) :
    Unambiguous (WitnessSignerGroup.Sized validRef)
      (WitnessSignerGroup.bytesWith encodeRef) := by
  intro left right after after' hleft hright heq
  simp only [WitnessSignerGroup.bytesWith, List.append_assoc] at heq
  obtain ⟨hsignature, heq⟩ :=
    unambiguous_lengthPrefixed hleft.signature hright.signature heq
  obtain ⟨hpubkey, heq⟩ := unambiguous_lengthPrefixed hleft.pubkey hright.pubkey heq
  obtain ⟨hrefs, heq⟩ := unambiguous_countPrefixed href ⟨hleft.inputRefs, hleft.refs⟩
    ⟨hright.inputRefs, hright.refs⟩ heq
  cases left
  cases right
  simp_all

theorem unambiguous_witness (href : Unambiguous validRef encodeRef) :
    Unambiguous (TxWitness.Sized validRef) (TxWitness.bytesWith encodeRef) := by
  intro left right after after' hleft hright heq
  simp only [TxWitness.bytesWith, List.append_assoc] at heq
  obtain ⟨hprimary, heq⟩ := unambiguous_signerGroup href hleft.primary hright.primary heq
  obtain ⟨hadditional, heq⟩ := unambiguous_countPrefixed (unambiguous_signerGroup href)
    ⟨hleft.additional, hleft.additionalSigners⟩
    ⟨hright.additional, hright.additionalSigners⟩ heq
  cases left
  cases right
  simp_all [TxWitness.primary]

end

/-- References whose block-specific part is a function of the input are
determined by what the witness tree commits to. -/
theorem unambiguous_commitmentBytes (commitRef : UInt32 → Bytes 16) :
    Unambiguous (fun ref => ref.witnessCommitRef = commitRef ref.inputIndex)
      WitnessInputRef.commitmentBytes := by
  intro left right after after' hleft hright heq
  simp only [WitnessInputRef.commitmentBytes, List.append_assoc] at heq
  obtain ⟨hindex, heq⟩ := unambiguous_le32 trivial trivial heq
  obtain ⟨hsignature, heq⟩ := unambiguous_bytes trivial trivial heq
  cases left
  cases right
  simp_all

/-! The witness parser accepts only canonical bytes. -/

/-- Falcon material of the one accepted size. -/
structure WitnessSignerGroup.Framed (group : WitnessSignerGroup) : Prop where
  signature : group.signature.length = falcon512SignatureBytes
  pubkey : group.pubkey.length = falcon512PublicKeyBytes

/-- What the parser accepts: groups may be without references. -/
structure TxWitness.Framed (witness : TxWitness) : Prop where
  primary : witness.primary.Framed
  additional : witness.additionalSigners.length < 2 ^ 32
  additionalSigners : ∀ group ∈ witness.additionalSigners, group.Framed
  totalInputRefs : witness.totalInputRefs ≤ maxWitnessInputRefs

theorem WitnessSignerGroup.Framed.sized {group : WitnessSignerGroup} (hgroup : group.Framed)
    (hrefs : group.inputRefs.length ≤ maxWitnessInputRefs) : group.Sized fun _ => True := by
  have hmax : maxWitnessInputRefs < 2 ^ 32 := by decide
  refine ⟨?_, ?_, hrefs.trans_lt hmax, fun _ _ => trivial⟩
  · simp [hgroup.signature, falcon512SignatureBytes]
  · simp [hgroup.pubkey, falcon512PublicKeyBytes]

theorem TxWitness.Framed.sized {witness : TxWitness} (hwitness : witness.Framed) :
    witness.Sized fun _ => True := by
  have htotal := hwitness.totalInputRefs
  rw [TxWitness.totalInputRefs] at htotal
  refine ⟨hwitness.primary.sized (show witness.inputRefs.length ≤ _ by omega),
    hwitness.additional, fun group hgroup => ?_⟩
  have hmem := List.single_le_sum
    (l := witness.additionalSigners.map fun group => group.inputRefs.length) (by simp) _
    (List.mem_map_of_mem hgroup)
  exact (hwitness.additionalSigners group hgroup).sized (by omega)

namespace TxWitness

open Decoder

theorem readSized_ok {length : Nat} {input bytes rest : List UInt8}
    (hread : readSized length input = some (bytes, rest)) :
    input = lengthPrefixed bytes ++ rest ∧ bytes.length = length := by
  obtain ⟨declared, middle, hdeclared, hread⟩ := bind_eq_some.mp hread
  obtain ⟨_, last, hguard, htake⟩ := bind_eq_some.mp hread
  obtain ⟨hlength, rfl⟩ := guard_eq_some.mp hguard
  obtain ⟨rfl, hbytes⟩ := take_eq_some.mp htake
  refine ⟨?_, hbytes.trans hlength⟩
  rw [reads_u32 hdeclared, lengthPrefixed, hbytes, UInt32.ofNat_toNat, List.append_assoc]

theorem reads_readInputRef : Reads readInputRef WitnessInputRef.canonicalBytes := by
  intro input rest ref hread
  obtain ⟨inputIndex, middle, hindex, hread⟩ := bind_eq_some.mp hread
  obtain ⟨sigRef, last, hsigRef, hread⟩ := bind_eq_some.mp hread
  obtain ⟨commitRef, final, hcommitRef, hread⟩ := bind_eq_some.mp hread
  obtain ⟨rfl, rfl⟩ := pure_eq_some.mp hread
  rw [reads_u32 hindex, array_eq_some.mp hsigRef, array_eq_some.mp hcommitRef]
  simp [WitnessInputRef.canonicalBytes]

theorem readSignerGroup_ok {used : Nat} {input rest : List UInt8} {group : WitnessSignerGroup}
    (hread : readSignerGroup used input = some (group, rest)) :
    input = group.bytesWith WitnessInputRef.canonicalBytes ++ rest ∧
      group.Framed ∧ used + group.inputRefs.length ≤ maxWitnessInputRefs := by
  obtain ⟨signature, afterSignature, hsignature, hread⟩ := bind_eq_some.mp hread
  obtain ⟨pubkey, afterPubkey, hpubkey, hread⟩ := bind_eq_some.mp hread
  obtain ⟨refCount, afterCount, hcount, hread⟩ := bind_eq_some.mp hread
  obtain ⟨_, _, hguard, hread⟩ := bind_eq_some.mp hread
  obtain ⟨hused, rfl⟩ := guard_eq_some.mp hguard
  obtain ⟨remaining, _, hremaining, hread⟩ := bind_eq_some.mp hread
  obtain ⟨-, rfl⟩ := remaining_eq_some.mp hremaining
  obtain ⟨_, _, hguard, hread⟩ := bind_eq_some.mp hread
  obtain ⟨-, rfl⟩ := guard_eq_some.mp hguard
  obtain ⟨refs, last, hrefs, hread⟩ := bind_eq_some.mp hread
  obtain ⟨rfl, rfl⟩ := pure_eq_some.mp hread
  obtain ⟨rfl, hsignatureLength⟩ := readSized_ok hsignature
  obtain ⟨rfl, hpubkeyLength⟩ := readSized_ok hpubkey
  have hlength := times_length hrefs
  refine ⟨?_, ⟨hsignatureLength, hpubkeyLength⟩, by rwa [hlength]⟩
  rw [reads_u32 hcount, reads_times reads_readInputRef _ hrefs]
  simp [WitnessSignerGroup.bytesWith, countPrefixed, hlength]

theorem readAdditionalSigners_ok {count used : Nat} {input rest : List UInt8}
    {groups : List WitnessSignerGroup} (hused : used ≤ maxWitnessInputRefs)
    (hread : readAdditionalSigners count used input = some (groups, rest)) :
    input = groups.flatMap (WitnessSignerGroup.bytesWith WitnessInputRef.canonicalBytes) ++ rest ∧
      groups.length = count ∧ (∀ group ∈ groups, group.Framed) ∧
      used + (groups.map fun group => group.inputRefs.length).sum ≤ maxWitnessInputRefs := by
  induction count generalizing used input groups with
  | zero =>
      obtain ⟨rfl, rfl⟩ := pure_eq_some.mp hread
      simpa using hused
  | succ count ih =>
      obtain ⟨group, middle, hgroup, hread⟩ := bind_eq_some.mp hread
      obtain ⟨groups, last, hgroups, hread⟩ := bind_eq_some.mp hread
      obtain ⟨rfl, rfl⟩ := pure_eq_some.mp hread
      obtain ⟨rfl, hframed, hused⟩ := readSignerGroup_ok hgroup
      obtain ⟨rfl, hlength, hrest, htotal⟩ := ih hused hgroups
      refine ⟨by simp, by simp [hlength], List.forall_mem_cons.mpr ⟨hframed, hrest⟩, ?_⟩
      rw [List.map_cons, List.sum_cons]
      omega

theorem fromBytes_framed {bytes : List UInt8} {witness : TxWitness}
    (hparse : fromBytes bytes = some witness) :
    bytes = witness.canonicalBytes ∧ witness.Framed := by
  obtain ⟨⟨parsed, rest⟩, hread, rfl⟩ := Option.map_eq_some_iff.mp hparse
  obtain ⟨primary, afterPrimary, hprimary, hread⟩ := bind_eq_some.mp hread
  obtain ⟨groupCount, afterCount, hcount, hread⟩ := bind_eq_some.mp hread
  obtain ⟨remaining, _, hremaining, hread⟩ := bind_eq_some.mp hread
  obtain ⟨-, rfl⟩ := remaining_eq_some.mp hremaining
  obtain ⟨_, _, hguard, hread⟩ := bind_eq_some.mp hread
  obtain ⟨-, rfl⟩ := guard_eq_some.mp hguard
  obtain ⟨groups, afterGroups, hgroups, hread⟩ := bind_eq_some.mp hread
  obtain ⟨remaining, _, hremaining, hread⟩ := bind_eq_some.mp hread
  obtain ⟨rfl, rfl⟩ := remaining_eq_some.mp hremaining
  obtain ⟨_, _, hguard, hread⟩ := bind_eq_some.mp hread
  obtain ⟨hnil, rfl⟩ := guard_eq_some.mp hguard
  obtain ⟨rfl, rfl⟩ := pure_eq_some.mp hread
  obtain ⟨rfl, hframed, hused⟩ := readSignerGroup_ok hprimary
  rw [Nat.zero_add] at hused
  obtain ⟨rfl, hlength, hrest, htotal⟩ := readAdditionalSigners_ok hused hgroups
  have hempty := List.length_eq_zero_iff.mp hnil
  refine ⟨?_, hframed, ?_, hrest, htotal⟩
  · rw [reads_u32 hcount]
    simp [canonicalBytes, TxWitness.bytesWith, TxWitness.primary, countPrefixed, hlength, hempty]
  · simpa [hlength] using groupCount.toNat_lt

theorem fromBytes_sound {bytes : List UInt8} {witness : TxWitness}
    (hparse : fromBytes bytes = some witness) :
    bytes = witness.canonicalBytes ∧ witness.Sized fun _ => True := by
  obtain ⟨hbytes, hframed⟩ := fromBytes_framed hparse
  exact ⟨hbytes, hframed.sized⟩

end TxWitness

/-! The witness parser accepts the canonical bytes of every well-formed witness. -/

/-- Falcon material of the one accepted size, for at least one input. -/
structure WitnessSignerGroup.WellFormed (group : WitnessSignerGroup) : Prop where
  signature : group.signature.length = falcon512SignatureBytes
  pubkey : group.pubkey.length = falcon512PublicKeyBytes
  inputRefs : group.inputRefs ≠ []

structure TxWitness.WellFormed (witness : TxWitness) : Prop where
  primary : witness.primary.WellFormed
  additionalSigners : ∀ group ∈ witness.additionalSigners, group.WellFormed
  totalInputRefs : witness.totalInputRefs ≤ maxWitnessInputRefs

theorem WitnessInputRef.length_canonicalBytes (ref : WitnessInputRef) :
    ref.canonicalBytes.length = TxWitness.witnessInputRefBytes := by
  simp [canonicalBytes, TxWitness.witnessInputRefBytes]

theorem WitnessSignerGroup.WellFormed.framed {group : WitnessSignerGroup}
    (hgroup : group.WellFormed) : group.Framed :=
  ⟨hgroup.signature, hgroup.pubkey⟩

theorem WitnessSignerGroup.Framed.least_le {group : WitnessSignerGroup} (hgroup : group.Framed) :
    TxWitness.minAdditionalSignerBytes ≤
      (group.bytesWith WitnessInputRef.canonicalBytes).length := by
  simp only [bytesWith, lengthPrefixed, countPrefixed, List.length_append, length_le32,
    hgroup.signature, hgroup.pubkey, TxWitness.minAdditionalSignerBytes]
  omega

namespace TxWitness

open Decoder

theorem readSized_lengthPrefixed {length : Nat} {bytes : List UInt8} (rest : List UInt8)
    (hlength : bytes.length = length) (hfits : length < 2 ^ 32) :
    readSized length (lengthPrefixed bytes ++ rest) = some (bytes, rest) := by
  subst hlength
  obtain ⟨read, hread, hcount⟩ := u32_count (bytes ++ rest) hfits
  rw [readSized, lengthPrefixed, List.append_assoc, bind_of_some hread,
    bind_of_some (guard_of _ hcount), hcount]
  exact take_eq_some.mpr ⟨rfl, rfl⟩

theorem writes_readInputRef :
    Writes (fun _ => True) readInputRef WitnessInputRef.canonicalBytes := by
  intro ref rest _
  rw [readInputRef, WitnessInputRef.canonicalBytes, List.append_assoc, List.append_assoc,
    bind_of_some (writes_u32 _ trivial), bind_of_some (writes_array _ trivial),
    bind_of_some (writes_array _ trivial)]
  rfl

theorem readSignerGroup_bytes {used : Nat} {group : WitnessSignerGroup} (rest : List UInt8)
    (hgroup : group.Framed) (hused : used + group.inputRefs.length ≤ maxWitnessInputRefs) :
    readSignerGroup used (group.bytesWith WitnessInputRef.canonicalBytes ++ rest) =
      some (group, rest) := by
  have hmax : maxWitnessInputRefs < 2 ^ 32 := by decide
  obtain ⟨read, hread, hcount⟩ :=
    u32_count (group.inputRefs.flatMap WitnessInputRef.canonicalBytes ++ rest)
      (show group.inputRefs.length < 2 ^ 32 by omega)
  have hheld : group.inputRefs.length ≤
      (group.inputRefs.flatMap WitnessInputRef.canonicalBytes ++ rest).length /
        witnessInputRefBytes := by
    have hbytes := @length_flatMap_ge _ WitnessInputRef.canonicalBytes witnessInputRefBytes
      group.inputRefs fun ref _ => ref.length_canonicalBytes.ge
    rw [Nat.le_div_iff_mul_le (by decide), List.length_append]
    omega
  rw [readSignerGroup, WitnessSignerGroup.bytesWith, countPrefixed]
  simp only [List.append_assoc]
  rw [bind_of_some (readSized_lengthPrefixed _ hgroup.signature (by decide)),
    bind_of_some (readSized_lengthPrefixed _ hgroup.pubkey (by decide)),
    bind_of_some hread, hcount, bind_of_some (guard_of _ hused),
    bind_of_some (remaining_eq_some.mpr ⟨rfl, rfl⟩), bind_of_some (guard_of _ hheld),
    bind_of_some (writes_times writes_readInputRef rest fun _ _ => trivial)]
  rfl

theorem readAdditionalSigners_bytes {used : Nat} {groups : List WitnessSignerGroup}
    (rest : List UInt8) (hgroups : ∀ group ∈ groups, group.Framed)
    (hused : used + (groups.map fun group => group.inputRefs.length).sum ≤
      maxWitnessInputRefs) :
    readAdditionalSigners groups.length used
        (groups.flatMap (WitnessSignerGroup.bytesWith WitnessInputRef.canonicalBytes) ++ rest) =
      some (groups, rest) := by
  induction groups generalizing used with
  | nil => rfl
  | cons group groups ih =>
      obtain ⟨hgroup, hgroups⟩ := List.forall_mem_cons.mp hgroups
      rw [List.map_cons, List.sum_cons, ← Nat.add_assoc] at hused
      rw [List.length_cons, List.flatMap_cons, List.append_assoc, readAdditionalSigners,
        bind_of_some (readSignerGroup_bytes _ hgroup (by omega)),
        bind_of_some (ih hgroups hused)]
      rfl

theorem Framed.fromBytes_canonicalBytes {witness : TxWitness} (hwitness : witness.Framed) :
    fromBytes witness.canonicalBytes = some witness := by
  have htotal : witness.primary.inputRefs.length +
      (witness.additionalSigners.map fun group => group.inputRefs.length).sum ≤
        maxWitnessInputRefs := hwitness.totalInputRefs
  obtain ⟨read, hread, hcount⟩ := u32_count (witness.additionalSigners.flatMap
    (WitnessSignerGroup.bytesWith WitnessInputRef.canonicalBytes) ++ []) hwitness.additional
  have hheld : witness.additionalSigners.length ≤ (witness.additionalSigners.flatMap
      (WitnessSignerGroup.bytesWith WitnessInputRef.canonicalBytes) ++ []).length /
        max minAdditionalSignerBytes 1 := by
    have hbytes := length_flatMap_ge fun group hgroup =>
      (hwitness.additionalSigners group hgroup).least_le
    rw [Nat.le_div_iff_mul_le (by decide), List.append_nil]
    exact hbytes
  have hparse : TxWitness.read (witness.canonicalBytes ++ []) = some (witness, []) := by
    rw [TxWitness.read, canonicalBytes, bytesWith, countPrefixed]
    simp only [List.append_assoc]
    rw [bind_of_some (readSignerGroup_bytes _ hwitness.primary (by omega)),
      bind_of_some hread, hcount, bind_of_some (remaining_eq_some.mpr ⟨rfl, rfl⟩),
      bind_of_some (guard_of _ hheld),
      bind_of_some (readAdditionalSigners_bytes _ hwitness.additionalSigners htotal),
      bind_of_some (remaining_eq_some.mpr ⟨rfl, rfl⟩), bind_of_some (guard_of _ List.length_nil)]
    rfl
  rw [fromBytes, ← List.append_nil witness.canonicalBytes, hparse]
  rfl

theorem WellFormed.framed {witness : TxWitness} (hwitness : witness.WellFormed) :
    witness.Framed := by
  have hcount := @Transaction.length_le_sum _ witness.additionalSigners
    (fun group => group.inputRefs.length) 1 Nat.one_pos fun group hgroup =>
      List.length_pos_iff.mpr (hwitness.additionalSigners group hgroup).inputRefs
  have htotal := hwitness.totalInputRefs
  have hmax : maxWitnessInputRefs < 2 ^ 32 := by decide
  rw [TxWitness.totalInputRefs] at htotal
  exact ⟨hwitness.primary.framed, by omega,
    fun group hgroup => (hwitness.additionalSigners group hgroup).framed, hwitness.totalInputRefs⟩

theorem fromBytes_canonicalBytes {witness : TxWitness} (hwitness : witness.WellFormed) :
    fromBytes witness.canonicalBytes = some witness :=
  hwitness.framed.fromBytes_canonicalBytes

theorem canonicalBytes_ne (witness : TxWitness) : witness.canonicalBytes ≠ [] := by
  intro hnone
  have hlength := congrArg List.length hnone
  simp [canonicalBytes, bytesWith, WitnessSignerGroup.bytesWith, lengthPrefixed] at hlength

theorem Framed.witnessPayload_canonicalBytes {witness : TxWitness} (hwitness : witness.Framed)
    (tx : Transaction) :
    ({ tx with witness := witness.canonicalBytes } : Transaction).witnessPayload =
      some witness := by
  rw [Transaction.witnessPayload, if_neg (by simpa using witness.canonicalBytes_ne)]
  exact hwitness.fromBytes_canonicalBytes

end TxWitness

end Atho
