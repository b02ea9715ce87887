import Atho.Core.TransactionCodec
import Atho.Storage.AcceptedBlock

/-! The header of an accepted block determines its transactions. -/

namespace Atho

open PairTree

/-! What is hashed for the two trees. -/

/-- The leaves of a tree and everything that is hashed above them. -/
def treeInputs (crypto : Crypto) (leaves : List (List UInt8)) : List (List UInt8) :=
  leaves ++ climbInputs concatDigests crypto.sha3_384 leaves.length
    (leaves.map crypto.sha3_384)

def Transaction.witnessLeaf (tx : Transaction) : List UInt8 :=
  tx.baseBytes ++ tx.witnessCommitmentSuffix

def Block.commitmentInputs (crypto : Crypto) (block : Block) : List (List UInt8) :=
  treeInputs crypto (block.transactions.map Transaction.baseBytes) ++
    treeInputs crypto (block.transactions.map Transaction.witnessLeaf)

theorem root_eq_of_treeRoot_eq {crypto : Crypto} {left right : List (Bytes 48)}
    (hleft : left ≠ []) (hright : right ≠ [])
    (heq : treeRoot crypto left = treeRoot crypto right) :
    root concatDigests crypto.sha3_384 left = root concatDigests crypto.sha3_384 right := by
  have hsome : ∀ {layer : List (Bytes 48)}, layer ≠ [] →
      ∃ top, root concatDigests crypto.sha3_384 layer = some top := by
    intro layer hne
    obtain ⟨top, htop⟩ := List.length_eq_one_iff.mp (length_climb le_rfl hne)
    exact ⟨top, by rw [root, htop]; rfl⟩
  obtain ⟨top, htop⟩ := hsome hleft
  obtain ⟨top', htop'⟩ := hsome hright
  simp only [treeRoot, htop, htop', Option.getD_some] at heq
  rw [htop, htop', heq]

section

variable {crypto : Crypto} {inputs : Set (List UInt8)}
  (hhash : Set.InjOn crypto.sha3_384 inputs)
include hhash

theorem leaves_eq_of_treeRoot_eq {left right : List (List UInt8)} (hne : left ≠ [])
    (hlength : left.length = right.length)
    (hleft : ∀ input ∈ treeInputs crypto left, input ∈ inputs)
    (hright : ∀ input ∈ treeInputs crypto right, input ∈ inputs)
    (heq : treeRoot crypto (left.map crypto.sha3_384) =
      treeRoot crypto (right.map crypto.sha3_384)) : left = right := by
  simp only [treeInputs, List.mem_append] at hleft hright
  have hne' : right ≠ [] := by
    rw [← List.length_pos_iff] at hne ⊢
    omega
  have htop := climb_eq_of_root_eq (by simpa using hne) (by simpa using hne')
    (root_eq_of_treeRoot_eq (by simpa using hne) (by simpa using hne') heq)
  rw [List.length_map, List.length_map, ← hlength] at htop
  rw [← hlength] at hright
  have hlayer := layer_eq_of_climb_eq concatDigests_injective hhash (by simpa using hlength)
    (fun input hmem => hleft input (.inr hmem)) (fun input hmem => hright input (.inr hmem)) htop
  exact eq_of_map_eq hhash (fun input hmem => hleft input (.inl hmem))
    (fun input hmem => hright input (.inl hmem)) hlayer

end

/-! What the validator has checked of the transactions. -/

theorem refsMatch_of_validateBody {crypto : Crypto} {network : Network} {height : UInt64}
    {witnessRoot : Bytes 48} {state state' : BodyState}
    {transactions : List (Transaction × PreparedTransactionValidation)}
    (hbody : validateBody crypto network height witnessRoot state transactions = .ok state') :
    ∀ pair ∈ transactions, witnessCommitRefsMatch crypto witnessRoot pair.2 = true := by
  induction transactions generalizing state with
  | nil => simp
  | cons pair rest ih =>
      obtain ⟨tx, prepared⟩ := pair
      simp only [validateBody, validateBodyTransaction, bind_eq_ok, rejectWhen_eq_ok] at hbody
      obtain ⟨next, ⟨_, _, _, _, _, hrefs, _⟩, hrest⟩ := hbody
      exact List.forall_mem_cons.mpr ⟨by simpa using hrefs, ih hrest⟩

/-- The witness of a transaction parses, and its references carry the part that
belongs to the block. -/
def Witnessed (crypto : Crypto) (blockWitnessRoot : Bytes 48) (tx : Transaction) : Prop :=
  ∃ witness, tx.witnessPayload = some witness ∧ witness.Sized fun ref =>
    ref.witnessCommitRef =
      deriveWitnessCommitRef crypto (tx.txid crypto) blockWitnessRoot ref.inputIndex

theorem Prepared.witnessed {crypto : Crypto} {tx : Transaction} {network : Network}
    {height : UInt64} {schedule : List ScheduledActivation}
    {prepared : PreparedTransactionValidation} {blockWitnessRoot : Bytes 48}
    (hprepared : Prepared crypto tx network height schedule prepared)
    (hrefs : witnessCommitRefsMatch crypto blockWitnessRoot prepared = true) :
    Witnessed crypto blockWitnessRoot tx := by
  obtain ⟨witness, hpayload, hcount, -, hgroups, -⟩ := hprepared.witness
  have hsized : witness.Sized fun _ => True := by
    unfold Transaction.witnessPayload at hpayload
    split at hpayload
    · cases hpayload
    · exact (TxWitness.fromBytes_sound hpayload).2
  have hgroups : prepared.signerGroups = witness.primary :: witness.additionalSigners := by
    rw [hgroups, TxWitness.signerGroups]
    simp only [TxWitness.signerGroupCount] at hcount
    split at hcount <;> simp_all
  simp only [witnessCommitRefsMatch, hgroups, hprepared.txid, List.all_eq_true,
    decide_eq_true_eq, List.forall_mem_cons] at hrefs
  refine ⟨witness, hpayload, ?_, hsized.additional, fun group hgroup => ?_⟩
  · exact { hsized.primary with refs := hrefs.1 }
  · exact { hsized.additionalSigners group hgroup with refs := hrefs.2 group hgroup }

/-! One leaf determines its transaction. -/

theorem Transaction.suffix_of_payload {tx : Transaction} {witness : TxWitness}
    (hpayload : tx.witnessPayload = some witness) :
    tx.witness = witness.canonicalBytes ∧ tx.witnessCommitmentSuffix =
      1 :: (witness.commitmentBytes ++ (le64 tx.txPowNonce ++ [tx.txPowBits])) := by
  have hparsed := hpayload
  unfold Transaction.witnessPayload at hparsed
  split at hparsed
  · cases hparsed
  · next hne =>
      refine ⟨(TxWitness.fromBytes_sound hparsed).1, ?_⟩
      simp [Transaction.witnessCommitmentSuffix, Transaction.bare, hne, hpayload]

theorem Witnessed.eq_of_witnessLeaf {crypto : Crypto} {blockWitnessRoot : Bytes 48}
    {left right : Transaction} (hleft : Witnessed crypto blockWitnessRoot left)
    (hright : Witnessed crypto blockWitnessRoot right) (hsized : left.Sized)
    (hsized' : right.Sized) (heq : left.witnessLeaf = right.witnessLeaf) : left = right := by
  obtain ⟨hbase, hsuffix⟩ := Transaction.eq_of_baseBytes hsized hsized' heq
  have htxid : right.txid crypto = left.txid crypto := by
    rw [hbase]
    rfl
  obtain ⟨witness, hpayload, hwitness⟩ := hleft
  obtain ⟨witness', hpayload', hwitness'⟩ := hright
  obtain ⟨hbytes, hcommitted⟩ := Transaction.suffix_of_payload hpayload
  obtain ⟨hbytes', hcommitted'⟩ := Transaction.suffix_of_payload hpayload'
  rw [htxid] at hwitness'
  rw [hcommitted, hcommitted', List.cons.injEq] at hsuffix
  obtain ⟨rfl, hpow⟩ := unambiguous_witness (unambiguous_commitmentBytes _) hwitness hwitness'
    hsuffix.2
  obtain ⟨hnonce, hbits⟩ := unambiguous_le64 trivial trivial hpow
  rw [hbase, hbytes, ← hbytes', hnonce, List.singleton_inj.mp hbits]

theorem Transaction.eq_of_witnessLeaf_bare {left right : Transaction} (hleft : left.bare = true)
    (hright : right.bare = true) (hsized : left.Sized) (hsized' : right.Sized)
    (heq : left.witnessLeaf = right.witnessLeaf) : left = right := by
  obtain ⟨hbase, -⟩ := Transaction.eq_of_baseBytes hsized hsized' heq
  simp only [Transaction.bare, Bool.and_eq_true, List.isEmpty_iff, beq_iff_eq] at hleft hright
  rw [hbase, hleft.1.1.trans hright.1.1.symm, hleft.1.2.trans hright.1.2.symm,
    hleft.2.trans hright.2.symm]

/-! Blocks. -/

namespace Accepted

variable {crypto : Crypto} {now : UInt64} {block : Block} {context : BlockValidationContext}
  {schedule : List ScheduledActivation} (accepted : Accepted crypto now block context schedule)
include accepted

theorem sized : ∀ tx ∈ block.transactions, tx.Sized := by
  intro tx htx
  refine .of_fullSizeBytes ?_
  have hmem := List.single_le_sum
    (l := block.transactions.map fun tx => 4 + tx.fullSizeBytes) (by simp) _
    (List.mem_map_of_mem htx)
  have hsize := accepted.size
  simp only [Block.sizeMetrics, maxBlockRawBytes] at hsize
  omega

theorem baseSizeBytes_ne : ∀ tx ∈ block.transactions, tx.baseSizeBytes ≠ 96 := by
  rw [accepted.transactions]
  refine List.forall_mem_cons.mpr ⟨?_, fun tx htx => ?_⟩
  · simp [Transaction.baseSizeBytes, accepted.coinbaseInputs, accepted.coinbaseOutputs,
      accepted.coinbaseLock]
  · obtain ⟨prepared, -, hprepared⟩ := exists_zip_of_forall₂ accepted.forall_prepared htx
    obtain ⟨input, inputs, hinputs⟩ := List.exists_cons_of_ne_nil hprepared.inputs_ne
    obtain ⟨output, outputs, houtputs⟩ := List.exists_cons_of_ne_nil hprepared.outputs_ne
    have hlock := hprepared.locks output (by simp [houtputs])
    simp only [Transaction.baseSizeBytes, hinputs, houtputs, List.map_cons, List.sum_cons,
      hlock]
    omega

theorem committed {inputs : Set (List UInt8)}
    (hinputs : ∀ input ∈ block.commitmentInputs crypto, input ∈ inputs) :
    Committed concatDigests crypto.sha3_384 inputs
      (block.transactions.map Transaction.baseBytes) := by
  simp only [Block.commitmentInputs, treeInputs, List.mem_append] at hinputs
  have hnodup := accepted.txids
  rw [← accepted.transactions] at hnodup
  refine ⟨by simp [accepted.transactions], fun leaf hleaf => hinputs leaf (.inl (.inl hleaf)),
    fun input hinput => hinputs input (.inl (.inr hinput)), ?_, ?_⟩
  · refine List.Nodup.of_map crypto.sha3_384 ?_
    rw [List.map_map]
    exact hnodup
  · intro leaf hleaf first second heq
    obtain ⟨tx, htx, rfl⟩ := List.mem_map.mp hleaf
    refine accepted.baseSizeBytes_ne tx htx ?_
    rw [← tx.length_baseBytes, heq]
    simp [concatDigests]

theorem witnessed :
    ∀ tx ∈ accepted.rest, Witnessed crypto block.header.witnessRoot tx := by
  intro tx htx
  obtain ⟨prepared, hpair, hprepared⟩ := exists_zip_of_forall₂ accepted.forall_prepared htx
  exact hprepared.witnessed (refsMatch_of_validateBody accepted.body _ hpair)

end Accepted

/-- Accepted blocks with one header, in whatever contexts, have the same
transactions. -/
theorem transactions_eq_of_accepted {crypto : Crypto} {now now' : UInt64} {left right : Block}
    {context context' : BlockValidationContext} {schedule schedule' : List ScheduledActivation}
    (hheader : left.header = right.header)
    (hleft : Accepted crypto now left context schedule)
    (hright : Accepted crypto now' right context' schedule')
    (hhash : Set.InjOn crypto.sha3_384
      {input | input ∈ left.commitmentInputs crypto ∨ input ∈ right.commitmentInputs crypto}) :
    left.transactions = right.transactions := by
  have hbases : left.transactions.map Transaction.baseBytes =
      right.transactions.map Transaction.baseBytes := by
    refine leaves_eq_of_root_eq concatDigests_injective hhash
      (hleft.committed fun _ => .inl) (hright.committed fun _ => .inr) ?_
    rw [List.map_map, List.map_map]
    refine root_eq_of_treeRoot_eq (by simp [hleft.transactions]) (by simp [hright.transactions])
      ?_
    exact hleft.merkle.trans ((congrArg BlockHeader.merkleRoot hheader).trans
      hright.merkle.symm)
  have hleaves : left.transactions.map Transaction.witnessLeaf =
      right.transactions.map Transaction.witnessLeaf := by
    have hlength : left.transactions.length = right.transactions.length := by
      simpa using congrArg List.length hbases
    refine leaves_eq_of_treeRoot_eq hhash (by simp [hleft.transactions])
      (by simpa using hlength)
      (fun input hinput => .inl (List.mem_append_right _ hinput))
      (fun input hinput => .inr (List.mem_append_right _ hinput)) ?_
    rw [List.map_map, List.map_map]
    exact hleft.witness.trans ((congrArg BlockHeader.witnessRoot hheader).trans
      hright.witness.symm)
  have hsized := hleft.sized
  have hsized' := hright.sized
  simp only [hleft.transactions, hright.transactions, List.forall_mem_cons] at hsized hsized'
  rw [hleft.transactions, hright.transactions, List.map_cons, List.map_cons,
    List.cons.injEq] at hleaves
  have hcoinbase := Transaction.eq_of_witnessLeaf_bare hleft.coinbaseBare hright.coinbaseBare
    hsized.1 hsized'.1 hleaves.1
  have hwitnessed := hright.witnessed
  rw [← hheader] at hwitnessed
  have hvalid : ∀ tx, tx ∈ hleft.rest ∨ tx ∈ hright.rest →
      Witnessed crypto left.header.witnessRoot tx ∧ tx.Sized := by
    rintro tx (htx | htx)
    · exact ⟨hleft.witnessed tx htx, hsized.2 tx htx⟩
    · exact ⟨hwitnessed tx htx, hsized'.2 tx htx⟩
  have hinjective : Set.InjOn Transaction.witnessLeaf
      {tx | tx ∈ hleft.rest ∨ tx ∈ hright.rest} := fun first hfirst second hsecond heq =>
    (hvalid first hfirst).1.eq_of_witnessLeaf (hvalid second hsecond).1 (hvalid first hfirst).2
      (hvalid second hsecond).2 heq
  rw [hleft.transactions, hright.transactions, hcoinbase,
    eq_of_map_eq hinjective (fun _ => .inl) (fun _ => .inr) hleaves.2]

end Atho
