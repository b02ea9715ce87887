import Atho.Wallet.SignerGroups

/-! Which payments a wallet builds, and that the mempool accepts what it builds. -/

namespace Atho

/-! Sizes. -/

theorem WitnessSignerGroup.length_canonicalBytes {group : WitnessSignerGroup}
    (hsignature : group.signature.length = falcon512SignatureBytes)
    (hpubkey : group.pubkey.length = falcon512PublicKeyBytes) :
    (group.bytesWith WitnessInputRef.canonicalBytes).length =
      txWitnessFixedBytes + 22 * group.inputIndexes.length := by
  have href : ∀ ref : WitnessInputRef, ref.canonicalBytes.length = 22 :=
    WitnessInputRef.length_canonicalBytes
  simp [bytesWith, lengthPrefixed, countPrefixed, hsignature, hpubkey, List.length_flatMap, href,
    txWitnessFixedBytes, inputIndexes]
  omega

theorem TxWitness.length_canonicalBytes {witness : TxWitness}
    (hgroups : ∀ group ∈ witness.primary :: witness.additionalSigners,
      group.signature.length = falcon512SignatureBytes ∧
        group.pubkey.length = falcon512PublicKeyBytes) :
    witness.canonicalBytes.length =
      txWitnessFixedBytes * (witness.primary :: witness.additionalSigners).length +
        22 * ((witness.primary :: witness.additionalSigners).flatMap
          WitnessSignerGroup.inputIndexes).length + 4 := by
  have hsum : ∀ groups : List WitnessSignerGroup, (∀ group ∈ groups,
      group.signature.length = falcon512SignatureBytes ∧
        group.pubkey.length = falcon512PublicKeyBytes) →
      (groups.flatMap (WitnessSignerGroup.bytesWith WitnessInputRef.canonicalBytes)).length =
        txWitnessFixedBytes * groups.length +
          22 * (groups.flatMap WitnessSignerGroup.inputIndexes).length := by
    intro groups hgroups
    induction groups with
    | nil => rfl
    | cons group groups ih =>
        obtain ⟨⟨hsignature, hpubkey⟩, hgroups⟩ := List.forall_mem_cons.mp hgroups
        have hrest := ih hgroups
        have hfirst := WitnessSignerGroup.length_canonicalBytes hsignature hpubkey
        rw [List.flatMap_cons, List.length_append, hrest, hfirst, List.flatMap_cons,
          List.length_append, List.length_cons]
        ring
  have hall := hsum _ hgroups
  rw [List.flatMap_cons, List.length_append] at hall
  rw [canonicalBytes, bytesWith, countPrefixed, List.length_append, List.length_append,
    length_le32, ← hall]
  omega

/-- Transactions with equal inputs, scripts of equal lengths and equally long witnesses have
the same sizes. -/
structure SameSize (left right : Transaction) : Prop where
  inputs : left.inputs = right.inputs
  outputs : left.outputs.map (fun output => output.lockingScript.length) =
    right.outputs.map fun output => output.lockingScript.length
  witness : left.witness.length = right.witness.length

namespace SameSize

variable {left right : Transaction}

theorem outputBytes (hsame : SameSize left right) :
    (left.outputs.map fun output => 8 + 4 + output.lockingScript.length) =
      right.outputs.map fun output => 8 + 4 + output.lockingScript.length := by
  have hmap := congrArg (List.map (8 + 4 + ·)) hsame.outputs
  simpa only [List.map_map, Function.comp_def] using hmap

theorem fullSizeBytes (hsame : SameSize left right) :
    left.fullSizeBytes = right.fullSizeBytes := by
  rw [Transaction.fullSizeBytes, Transaction.fullSizeBytes, hsame.inputs, hsame.outputBytes,
    hsame.witness]

theorem vsizeBytes (hsame : SameSize left right) : left.vsizeBytes = right.vsizeBytes := by
  rw [Transaction.vsizeBytes, Transaction.vsizeBytes, Transaction.weightBytes,
    Transaction.weightBytes, hsame.fullSizeBytes, Transaction.baseSizeBytes,
    Transaction.baseSizeBytes, hsame.inputs, hsame.outputBytes]

theorem minimumRequiredFeeAtoms (hsame : SameSize left right) (network : Network) :
    minimumRequiredFeeAtoms network left = Atho.minimumRequiredFeeAtoms network right := by
  rw [Atho.minimumRequiredFeeAtoms, Atho.minimumRequiredFeeAtoms, hsame.vsizeBytes]

theorem ensureStandardTransactionSize (hsame : SameSize left right) :
    ensureStandardTransactionSize left = Atho.ensureStandardTransactionSize right := by
  rw [Atho.ensureStandardTransactionSize, Atho.ensureStandardTransactionSize, hsame.vsizeBytes,
    hsame.fullSizeBytes]

end SameSize

/-! Placeholders. -/

section

variable {crypto : WalletCrypto} {wallet : Wallet} {utxos : List WalletSpendUtxo}
  {version : UInt16} {recipientDigest : Bytes 32} {recipientAtoms : UInt64}
  {changeOutput : Option (UInt64 × List UInt8)} {lockTime : UInt32}

theorem buildPlaceholder_eq_ok {tx : Transaction} :
    wallet.buildPlaceholderSpendTransactionFromParts crypto utxos version recipientDigest
        recipientAtoms changeOutput lockTime = .ok tx ↔
      ∃ (groups : _) (witness : TxWitness), wallet.signerInputGroups crypto utxos = .ok groups ∧
        groups.map Wallet.placeholderGroup =
          witness.primary :: witness.additionalSigners ∧
        tx = { buildSpendTransactionFromParts utxos version recipientDigest recipientAtoms
          changeOutput lockTime with witness := witness.canonicalBytes } := by
  simp only [Wallet.buildPlaceholderSpendTransactionFromParts, Wallet.placeholderWitnessForGroups,
    bind_eq_ok, okOr_eq_ok, pure_eq_ok, TxWitness.ofGroups_eq_some]
  constructor
  · rintro ⟨groups, hgroups, _, ⟨witness, hwitness, rfl⟩, rfl⟩
    exact ⟨groups, witness, hgroups, hwitness, rfl⟩
  · rintro ⟨groups, witness, hgroups, hwitness, rfl⟩
    exact ⟨groups, hgroups, _, ⟨witness, hwitness, rfl⟩, rfl⟩

theorem length_placeholderWitness {groups : List WalletSignerInputGroup} {witness : TxWitness}
    (hwitness : groups.map Wallet.placeholderGroup =
      witness.primary :: witness.additionalSigners) :
    witness.canonicalBytes.length = txWitnessFixedBytes * groups.length +
      22 * (groups.flatMap WalletSignerInputGroup.inputIndexes).length + 4 := by
  have hlength := @TxWitness.length_canonicalBytes witness (by
    rw [← hwitness]
    simp [Wallet.placeholderGroup])
  have hindexes : ∀ group, (Wallet.placeholderGroup group).inputIndexes = group.inputIndexes := by
    intro group
    simp [WitnessSignerGroup.inputIndexes, Wallet.placeholderGroup, Function.comp_def]
  rw [hlength, ← hwitness, List.length_map, List.flatMap_map]
  simp only [hindexes]

theorem length_signedWitness {tx : Transaction} {groups : List WalletSignerInputGroup}
    {witness : TxWitness} (hsigned : List.Forall₂ (SignedGroup crypto wallet tx) groups
      (witness.primary :: witness.additionalSigners)) :
    witness.canonicalBytes.length = txWitnessFixedBytes * groups.length +
      22 * (groups.flatMap WalletSignerInputGroup.inputIndexes).length + 4 := by
  have hlength := @TxWitness.length_canonicalBytes witness (by
    intro group hgroup
    obtain ⟨input, -, hsigned⟩ := exists_of_mem_forall₂ hsigned hgroup
    exact ⟨crypto.length_signature hsigned.signed,
      hsigned.pubkey ▸ crypto.length_publicKey _⟩)
  rw [hlength, hsigned.length_eq, flatMap_inputIndexes_signed hsigned]

theorem SignedSpend.sameSize {tx placeholder : Transaction}
    {placeholderOutput : Option (UInt64 × List UInt8)} {groups : List WalletSignerInputGroup}
    {witness : TxWitness}
    (hsigned : SignedSpend crypto wallet utxos (buildSpendTransactionFromParts utxos version
      recipientDigest recipientAtoms changeOutput lockTime) tx groups witness)
    (hplaceholder : wallet.buildPlaceholderSpendTransactionFromParts crypto utxos version
      recipientDigest recipientAtoms placeholderOutput lockTime = .ok placeholder)
    (hchange : changeOutput.map (fun output => output.2.length) =
      placeholderOutput.map fun output => output.2.length) :
    SameSize tx placeholder := by
  obtain ⟨groups', staged, hgroups, hstaged, rfl⟩ := buildPlaceholder_eq_ok.mp hplaceholder
  obtain rfl : groups' = groups := Except.ok.inj (hgroups.symm.trans hsigned.grouped)
  refine ⟨?_, ?_, ?_⟩
  · rw [hsigned.transaction]
    rfl
  · rw [hsigned.transaction]
    rcases changeOutput with _ | ⟨_, _⟩ <;> rcases placeholderOutput with _ | ⟨_, _⟩ <;>
      simp_all [buildSpendTransactionFromParts]
  · rw [hsigned.transaction]
    change witness.canonicalBytes.length = staged.canonicalBytes.length
    rw [length_signedWitness hsigned.signed, length_placeholderWitness hstaged]

end

/-! Proof of work. -/

theorem findTransactionPowNonce_good {crypto : Crypto} {preimage : Bytes 32} {bits : UInt8}
    {remaining : Nat} {start nonce : UInt64}
    (hfound : findTransactionPowNonce crypto preimage bits remaining start = some nonce) :
    bits.toNat ≤ leadingZeroBits (transactionPowHash crypto preimage nonce).toList := by
  induction remaining generalizing start with
  | zero => cases hfound
  | succ remaining ih =>
      rw [findTransactionPowNonce] at hfound
      split at hfound
      · next hgood =>
          cases hfound
          exact hgood
      · exact ih hfound

theorem solveTransactionPow_eq_some {crypto : Crypto} {network : Network} {tx solved : Transaction}
    {fee start : UInt64} (hsolved : solveTransactionPow crypto network tx fee start = some solved) :
    (∃ nonce, solved = { tx with
      txPowBits := requiredTxPowBits network tx fee, txPowNonce := nonce }) ∧
      transactionPowIsValidForBits crypto network solved solved.txPowBits = true := by
  rw [solveTransactionPow] at hsolved
  dsimp only at hsolved
  split at hsolved
  · next hzero =>
      cases hsolved
      exact ⟨⟨0, rfl⟩, if_pos hzero⟩
  · next hbits =>
      obtain ⟨nonce, hnonce, rfl⟩ := Option.map_eq_some_iff.mp hsolved
      refine ⟨⟨nonce, rfl⟩, ?_⟩
      rw [transactionPowIsValidForBits, if_neg hbits, if_neg (not_not.mpr rfl)]
      exact decide_eq_true (findTransactionPowNonce_good hnonce)

/-! What a built payment consists of. -/

theorem recipientAndChangeAmounts_ok {total amount fee recipient change : UInt64}
    {includeFee : Bool}
    (hamounts : recipientAndChangeAmounts total amount fee includeFee dustRelayValueAtoms =
      .ok (recipient, change)) :
    dustRelayValueAtoms ≤ recipient ∧ (change = 0 ∨ dustRelayValueAtoms ≤ change) := by
  have hchange : ∀ raw : UInt64, (if raw < dustRelayValueAtoms then 0 else raw) = 0 ∨
      dustRelayValueAtoms ≤ if raw < dustRelayValueAtoms then 0 else raw := by
    intro raw
    split
    · exact .inl rfl
    · next hlarge => exact .inr (UInt64.not_lt.mp hlarge)
  cases includeFee with
  | true =>
      simp only [recipientAndChangeAmounts, if_pos, bind_eq_ok, rejectWhen_eq_ok, okOr_eq_ok,
        pure_eq_ok, Prod.mk.injEq, decide_eq_false_iff_not, UInt64.not_lt] at hamounts
      obtain ⟨-, -, _, -, -, hdust, raw, -, rfl, rfl⟩ := hamounts
      exact ⟨hdust, hchange raw⟩
  | false =>
      simp only [recipientAndChangeAmounts, Bool.false_eq_true, if_false, bind_eq_ok,
        rejectWhen_eq_ok, okOr_eq_ok, pure_eq_ok, Prod.mk.injEq, decide_eq_false_iff_not,
        UInt64.not_lt] at hamounts
      obtain ⟨-, hdust, raw, -, rfl, rfl⟩ := hamounts
      exact ⟨hdust, hchange raw⟩

/-- A payment with its amounts, its placeholder and its signed transaction. -/
structure BuiltPayment (crypto : WalletCrypto) (wallet : Wallet) (request : WalletSpendRequest)
    (startNonce totalInputAtoms recipientAtoms changeAtoms : UInt64)
    (changeOutput : Option (UInt64 × List UInt8)) (placeholder tx : Transaction)
    (built : WalletBuiltSpend) : Prop where
  recipient : dustRelayValueAtoms ≤ recipientAtoms
  change : changeAtoms = 0 ∨ dustRelayValueAtoms ≤ changeAtoms
  output : Wallet.changeOutputFor request changeAtoms = .ok changeOutput
  prepared : wallet.buildPlaceholderSpendTransactionFromParts crypto request.selectedUtxos
    request.transactionVersion request.recipientDigest recipientAtoms
    (if 0 < changeAtoms then some (changeAtoms, List.replicate 32 0) else none)
    request.lockTime = .ok placeholder
  preparedSize : ensureStandardTransactionSize placeholder = .ok ()
  signed : wallet.buildSignedSpendTransactionFromParts crypto request.selectedUtxos
    request.transactionVersion request.recipientDigest recipientAtoms changeOutput
    request.lockTime = .ok tx
  size : ensureStandardTransactionSize tx = .ok ()
  fee : ∃ outputAtoms, tx.checkedOutputValueAtoms = some outputAtoms ∧
    totalInputAtoms.toNat = outputAtoms.toNat + built.feeAtoms.toNat
  minimum : minimumRequiredFeeAtoms wallet.network placeholder ≤ built.feeAtoms
  solved : solveTransactionPow crypto.toCrypto wallet.network tx built.feeAtoms startNonce =
    some built.transaction

section

variable {crypto : WalletCrypto} {wallet : Wallet} {request : WalletSpendRequest}
  {startNonce totalInputAtoms : UInt64} {built : WalletBuiltSpend}

theorem completeSpend_ok {actualFee recipientAtoms changeAtoms : UInt64}
    (hcomplete : wallet.completeSpend crypto request startNonce totalInputAtoms actualFee
      recipientAtoms changeAtoms = .ok (some built)) :
    ∃ changeOutput tx, Wallet.changeOutputFor request changeAtoms = .ok changeOutput ∧
      wallet.buildSignedSpendTransactionFromParts crypto request.selectedUtxos
        request.transactionVersion request.recipientDigest recipientAtoms changeOutput
        request.lockTime = .ok tx ∧
      ensureStandardTransactionSize tx = .ok () ∧
      (∃ outputAtoms, tx.checkedOutputValueAtoms = some outputAtoms ∧
        totalInputAtoms.toNat = outputAtoms.toNat + built.feeAtoms.toNat) ∧
      actualFee ≤ built.feeAtoms ∧
      solveTransactionPow crypto.toCrypto wallet.network tx built.feeAtoms startNonce =
        some built.transaction := by
  simp only [Wallet.completeSpend, bind_eq_ok, okOr_eq_ok, rejectWhen_eq_ok, pure_eq_ok,
    Option.map_eq_some_iff, decide_eq_false_iff_not, UInt64.not_lt] at hcomplete
  obtain ⟨changeOutput, hchange, tx, hsigned, _, hsize, outputAtoms, hout, finalFee, hfee, -,
    hminimum, -, -, solved, hsolved, rfl⟩ := hcomplete
  exact ⟨changeOutput, tx, hchange, hsigned, hsize,
    ⟨outputAtoms, hout, UInt64.checkedSub_eq_some.mp hfee⟩, hminimum, hsolved⟩

theorem feeRounds_ok {rounds : Nat} {fee : UInt64}
    (hrounds : wallet.feeRounds crypto request startNonce totalInputAtoms rounds fee =
      .ok (some built)) :
    ∃ recipientAtoms changeAtoms changeOutput placeholder tx, BuiltPayment crypto wallet request
      startNonce totalInputAtoms recipientAtoms changeAtoms changeOutput placeholder tx built := by
  induction rounds generalizing fee with
  | zero => cases hrounds
  | succ rounds ih =>
      simp only [Wallet.feeRounds, bind_eq_ok] at hrounds
      obtain ⟨⟨recipientAtoms, changeAtoms⟩, hamounts, placeholder, hplaceholder, _, hsize,
        hrounds⟩ := hrounds
      split at hrounds
      · obtain ⟨hrecipient, hchange⟩ := recipientAndChangeAmounts_ok hamounts
        obtain ⟨changeOutput, tx, houtput, hsigned, hstandard, hfee, hminimum, hsolved⟩ :=
          completeSpend_ok hrounds
        exact ⟨recipientAtoms, changeAtoms, changeOutput, placeholder, tx, hrecipient, hchange,
          houtput, hplaceholder, hsize, hsigned, hstandard, hfee, hminimum, hsolved⟩
      · exact ih hrounds

end

theorem changeOutputFor_eq_ok {request : WalletSpendRequest} {changeAtoms : UInt64}
    {changeOutput : Option (UInt64 × List UInt8)}
    (houtput : Wallet.changeOutputFor request changeAtoms = .ok changeOutput) :
    (¬0 < changeAtoms ∧ changeOutput = none) ∨
      (0 < changeAtoms ∧ ∃ digest : Bytes 32, changeOutput = some (changeAtoms, digest.toList)) := by
  rw [Wallet.changeOutputFor] at houtput
  split at houtput
  · next hpositive =>
      simp only [bind_eq_ok, okOr_eq_ok, pure_eq_ok] at houtput
      obtain ⟨address, -, rfl⟩ := houtput
      exact .inr ⟨hpositive, address.paymentDigest, rfl⟩
  · next hnone =>
      cases houtput
      exact .inl ⟨hnone, rfl⟩

theorem length_le_fullSizeBytes (tx : Transaction) : 56 * tx.inputs.length ≤ tx.fullSizeBytes := by
  have hsum : ∀ inputs : List TxInput, 56 * inputs.length ≤
      (inputs.map fun input => 48 + 4 + 4 + input.unlockingScript.length).sum := by
    intro inputs
    induction inputs with
    | nil => simp
    | cons input inputs ih =>
        simp only [List.length_cons, List.map_cons, List.sum_cons]
        omega
  have hinputs := hsum tx.inputs
  rw [Transaction.fullSizeBytes]
  omega

theorem ensureStandardTransactionSize_ok {tx : Transaction}
    (hsize : ensureStandardTransactionSize tx = .ok ()) :
    tx.fullSizeBytes ≤ maxTransactionRawBytes ∧ tx.vsizeBytes ≤ maxTransactionVbytes := by
  simpa [ensureStandardTransactionSize] using hsize

section

variable {crypto : WalletCrypto} {wallet : Wallet} {request : WalletSpendRequest}
  {recipientAtoms changeAtoms : UInt64} {changeOutput : Option (UInt64 × List UInt8)}
  {placeholder tx : Transaction}

theorem length_le_of_placeholder
    (hplaceholder : wallet.buildPlaceholderSpendTransactionFromParts crypto request.selectedUtxos
      request.transactionVersion request.recipientDigest recipientAtoms changeOutput
      request.lockTime = .ok placeholder)
    (hsize : ensureStandardTransactionSize placeholder = .ok ()) :
    request.selectedUtxos.length ≤ maxWitnessInputRefs := by
  obtain ⟨groups, witness, -, -, hplaceholder⟩ := buildPlaceholder_eq_ok.mp hplaceholder
  have hraw := (ensureStandardTransactionSize_ok hsize).1
  have hinputs := length_le_fullSizeBytes placeholder
  have hlength : placeholder.inputs.length = request.selectedUtxos.length := by
    rw [hplaceholder]
    exact List.length_map _
  rw [hlength] at hinputs
  simp only [maxTransactionRawBytes, maxWitnessInputRefs, txWitnessFixedBytes,
    falcon512SignatureBytes, falcon512PublicKeyBytes] at *
  omega

theorem sameSize_of_signed
    (hplaceholder : wallet.buildPlaceholderSpendTransactionFromParts crypto request.selectedUtxos
      request.transactionVersion request.recipientDigest recipientAtoms
      (if 0 < changeAtoms then some (changeAtoms, List.replicate 32 0) else none)
      request.lockTime = .ok placeholder)
    (hsize : ensureStandardTransactionSize placeholder = .ok ())
    (houtput : Wallet.changeOutputFor request changeAtoms = .ok changeOutput)
    (hsigned : wallet.buildSignedSpendTransactionFromParts crypto request.selectedUtxos
      request.transactionVersion request.recipientDigest recipientAtoms changeOutput
      request.lockTime = .ok tx) : SameSize tx placeholder := by
  obtain ⟨groups, witness, hspend⟩ :=
    signedSpend_of_ok (length_le_of_placeholder hplaceholder hsize) hsigned
  refine hspend.sameSize hplaceholder ?_
  rcases changeOutputFor_eq_ok houtput with ⟨hnone, rfl⟩ | ⟨hpositive, digest, rfl⟩
  · rw [if_neg hnone]
  · rw [if_pos hpositive]
    simp

theorem sameSize_of_solved {network : Network} {fee start : UInt64} {solved : Transaction}
    (hsolved : solveTransactionPow crypto.toCrypto network tx fee start = some solved) :
    SameSize solved tx := by
  obtain ⟨⟨nonce, rfl⟩, -⟩ := solveTransactionPow_eq_some hsolved
  exact ⟨rfl, rfl, rfl⟩

end

namespace BuiltPayment

variable {crypto : WalletCrypto} {wallet : Wallet} {request : WalletSpendRequest}
  {startNonce totalInputAtoms recipientAtoms changeAtoms : UInt64}
  {changeOutput : Option (UInt64 × List UInt8)} {placeholder tx : Transaction}
  {built : WalletBuiltSpend}

/-- The transaction of the request before it is signed. -/
def base (request : WalletSpendRequest) (recipientAtoms : UInt64)
    (changeOutput : Option (UInt64 × List UInt8)) : Transaction :=
  buildSpendTransactionFromParts request.selectedUtxos request.transactionVersion
    request.recipientDigest recipientAtoms changeOutput request.lockTime

variable (hpayment : BuiltPayment crypto wallet request startNonce totalInputAtoms recipientAtoms
  changeAtoms changeOutput placeholder tx built)

include hpayment

theorem length_le : request.selectedUtxos.length ≤ maxWitnessInputRefs :=
  length_le_of_placeholder hpayment.prepared hpayment.preparedSize

theorem signedSpend : ∃ groups witness, SignedSpend crypto wallet request.selectedUtxos
    (base request recipientAtoms changeOutput) tx groups witness :=
  signedSpend_of_ok hpayment.length_le hpayment.signed

theorem sameSize : SameSize tx placeholder :=
  sameSize_of_signed hpayment.prepared hpayment.preparedSize hpayment.output hpayment.signed

theorem outputs : ∀ output ∈ (base request recipientAtoms changeOutput).outputs,
    dustRelayValueAtoms ≤ output.valueAtoms ∧ output.lockingScript.length = 32 := by
  have hrecipient := hpayment.recipient
  rcases changeOutputFor_eq_ok hpayment.output with ⟨-, rfl⟩ | ⟨hpositive, digest, rfl⟩
  · simpa [base, buildSpendTransactionFromParts] using hrecipient
  · have hchange : dustRelayValueAtoms ≤ changeAtoms := by
      rcases hpayment.change with rfl | hdust
      · exact absurd hpositive (by decide)
      · exact hdust
    simpa [base, buildSpendTransactionFromParts] using ⟨hrecipient, hchange⟩

theorem transaction_eq {groups : List WalletSignerInputGroup} {witness : TxWitness}
    (hsigned : SignedSpend crypto wallet request.selectedUtxos
      (base request recipientAtoms changeOutput) tx groups witness) :
    ∃ nonce, built.transaction = { base request recipientAtoms changeOutput with
      witness := witness.canonicalBytes
      txPowBits := requiredTxPowBits wallet.network tx built.feeAtoms
      txPowNonce := nonce } := by
  obtain ⟨⟨nonce, hsolved⟩, -⟩ := solveTransactionPow_eq_some hpayment.solved
  exact ⟨nonce, by rw [hsolved, hsigned.transaction]⟩

theorem presentable {groups : List WalletSignerInputGroup} {witness : TxWitness} {height : UInt64}
    (hsigned : SignedSpend crypto wallet request.selectedUtxos
      (base request recipientAtoms changeOutput) tx groups witness)
    (hne : request.selectedUtxos ≠ [])
    (hdistinct : (request.selectedUtxos.map WalletSpendUtxo.key).Nodup)
    (hversion : isSupportedTransactionVersionWithSchedule request.transactionVersion height
      scheduledActivations = true) :
    Presentable crypto.toCrypto built.transaction built.feeAtoms wallet.network height
      scheduledActivations witness := by
  have hlength := hpayment.length_le
  have hgrouped := groupedInputs_of_ok (hlength.trans (by decide)) hsigned.grouped
  have hwellFormed := hgrouped.wellFormed hlength hsigned.signed
  obtain ⟨nonce, htransaction⟩ := hpayment.transaction_eq hsigned
  have hsame := sameSize_of_solved hpayment.solved
  obtain ⟨hraw, hvbytes⟩ := ensureStandardTransactionSize_ok hpayment.size
  have hgroups : witness.signerGroups = witness.primary :: witness.additionalSigners := by
    refine if_neg fun hempty => ?_
    have hsignature : witness.signature.length = falcon512SignatureBytes :=
      hwellFormed.primary.signature
    simp only [TxWitness.isEmpty, Bool.and_eq_true, List.isEmpty_iff] at hempty
    rw [hempty.1.1.1] at hsignature
    cases hsignature
  have hinput : ∀ group ∈ witness.signerGroups, ∃ input ∈ groups,
      SignedGroup crypto wallet (base request recipientAtoms changeOutput) input group := by
    rw [hgroups]
    exact fun group hgroup => exists_of_mem_forall₂ hsigned.signed hgroup
  constructor
  case inputs_ne =>
    rw [htransaction]
    simpa [base, buildSpendTransactionFromParts] using hne
  case inputs_nodup =>
    rw [htransaction]
    change ((request.selectedUtxos.map WalletSpendUtxo.input).map TxInput.key).Nodup
    rw [List.map_map]
    exact hdistinct
  case version => rw [htransaction]; exact hversion
  case outputs_ne =>
    rw [htransaction]
    exact List.cons_ne_nil _ _
  case outputs_le =>
    rw [htransaction]
    rcases changeOutputFor_eq_ok hpayment.output with ⟨-, rfl⟩ | ⟨-, digest, rfl⟩ <;>
      simp [base, buildSpendTransactionFromParts, maximumStandardOutputs, maxStandardOutputs]
  case raw => rwa [hsame.fullSizeBytes]
  case vbytes => rwa [hsame.vsizeBytes]
  case values =>
    rw [htransaction]
    exact fun output houtput => (hpayment.outputs output houtput).1
  case locks =>
    rw [htransaction]
    exact fun output houtput => (hpayment.outputs output houtput).2
  case fee =>
    rw [hsame.minimumRequiredFeeAtoms, hpayment.sameSize.minimumRequiredFeeAtoms]
    exact hpayment.minimum
  case payload =>
    rw [htransaction]
    exact hwellFormed.framed.witnessPayload_canonicalBytes tx
  case groups =>
    intro group hgroup
    obtain ⟨input, hmem, hsigned⟩ := hinput group hgroup
    have hformed := hsigned.wellFormed (hgrouped.nonempty input hmem)
    refine ⟨?_, ?_, hformed.inputRefs, ?_, ?_⟩
    · exact List.ne_nil_of_length_pos (by rw [hformed.signature]; decide)
    · exact List.ne_nil_of_length_pos (by rw [hformed.pubkey]; decide)
    · rw [hsigned.inputIndexes]
      exact hgrouped.ascending input hmem
    · rw [htransaction]
      exact hsigned.short
  case ordered =>
    rw [hgroups, firstIndexes_signed hgrouped.nonempty hsigned.signed]
    exact List.pairwise_map.mpr hgrouped.ordered
  case covers =>
    rw [hgroups, coveredPositions_eq, ← flatMap_inputIndexes_signed hsigned.signed, htransaction]
    simpa [base, buildSpendTransactionFromParts] using hgrouped.covers

theorem verifies {groups : List WalletSignerInputGroup} {witness : TxWitness}
    (hsigned : SignedSpend crypto wallet request.selectedUtxos
      (base request recipientAtoms changeOutput) tx groups witness) :
    verifySignerGroups crypto.toCrypto built.transaction wallet.network
      (witness.primary :: witness.additionalSigners) = .ok () := by
  have hgrouped := groupedInputs_of_ok (hpayment.length_le.trans (by decide)) hsigned.grouped
  obtain ⟨nonce, htransaction⟩ := hpayment.transaction_eq hsigned
  refine verifySignerGroups_of fun group hgroup => ?_
  obtain ⟨input, hinput, hsigned⟩ := exists_of_mem_forall₂ hsigned.signed hgroup
  have hformed := hsigned.wellFormed (hgrouped.nonempty input hinput)
  refine ⟨hformed.pubkey, hformed.signature, ?_⟩
  have hbound : ∀ index ∈ input.inputIndexes,
      index.toNat < built.transaction.inputs.length := by
    intro index hindex
    have hmem : index.toNat ∈ (groups.flatMap WalletSignerInputGroup.inputIndexes).map
        UInt32.toNat :=
      List.mem_map_of_mem (List.mem_flatMap.mpr ⟨input, hinput, hindex⟩)
    rw [hgrouped.covers.mem_iff, List.mem_range] at hmem
    rw [htransaction]
    simpa [base, buildSpendTransactionFromParts] using hmem
  rw [hsigned.inputIndexes, signerGroupDigest_eq (hgrouped.ascending input hinput) hbound,
    hsigned.pubkey, htransaction]
  exact crypto.verify_sign hsigned.signed

end BuiltPayment

/-- What the wallet relies on when it spends an output: it is there as stated, on the wallet's
network, and mature. -/
structure SpendableOutput (lookup : UtxoKey → Option UtxoEntry) (network : Network)
    (height : UInt64) (utxo : WalletSpendUtxo) (entry : UtxoEntry) : Prop where
  found : lookup utxo.key = some entry
  value : entry.valueAtoms = utxo.valueAtoms
  lock : entry.lockingScript = utxo.lockingScript
  network : entry.network = network
  mature : entry.isSpendableAt height = true

namespace BuiltPayment

variable {crypto : WalletCrypto} {wallet : Wallet} {request : WalletSpendRequest}
  {startNonce totalInputAtoms recipientAtoms changeAtoms : UInt64}
  {changeOutput : Option (UInt64 × List UInt8)} {placeholder tx : Transaction}
  {built : WalletBuiltSpend} {height : UInt64} {lookup : UtxoKey → Option UtxoEntry}

theorem validates (hpayment : BuiltPayment crypto wallet request startNonce totalInputAtoms
      recipientAtoms changeAtoms changeOutput placeholder tx built)
    (hne : request.selectedUtxos ≠ [])
    (hdistinct : (request.selectedUtxos.map WalletSpendUtxo.key).Nodup)
    (hsum : UInt64.checkedSum 0 (request.selectedUtxos.map WalletSpendUtxo.valueAtoms) =
      some totalInputAtoms)
    (hlookup : ∀ utxo ∈ request.selectedUtxos, ∃ entry,
      SpendableOutput lookup wallet.network height utxo entry)
    (hversion : isSupportedTransactionVersionWithSchedule request.transactionVersion height
      scheduledActivations = true) :
    validateTransactionWithContext crypto.toCrypto built.transaction built.feeAtoms
      wallet.network height lookup = .ok built.feeAtoms := by
  obtain ⟨groups, witness, hsigned⟩ := hpayment.signedSpend
  have hpresent := hpayment.presentable hsigned hne hdistinct hversion
  have hgrouped := groupedInputs_of_ok (hpayment.length_le.trans (by decide)) hsigned.grouped
  obtain ⟨nonce, htransaction⟩ := hpayment.transaction_eq hsigned
  have hinputs : built.transaction.inputs =
      request.selectedUtxos.map WalletSpendUtxo.input := by
    rw [htransaction]
    rfl
  obtain ⟨entries, hentries⟩ := exists_forall₂ hlookup
  have hvalues : entries.map UtxoEntry.valueAtoms =
      request.selectedUtxos.map WalletSpendUtxo.valueAtoms :=
    (map_eq_of_forall₂ hentries fun _ _ hspendable => hspendable.value.symm).symm
  obtain ⟨outputAtoms, hout, hfee⟩ := hpayment.fee
  have hgroups : witness.signerGroups = witness.primary :: witness.additionalSigners :=
    if_neg fun hempty => hpresent.signerGroups_ne (if_pos hempty)
  obtain ⟨⟨_, hsolved⟩, hvalid⟩ := solveTransactionPow_eq_some hpayment.solved
  have hfound : List.Forall₂ (fun input entry => lookup input.key = some entry)
      built.transaction.inputs entries := by
    rw [hinputs, List.forall₂_map_left_iff]
    exact hentries.imp fun _ _ hspendable => hspendable.found
  refine hpresent.validate hfound ?_ (hvalues ▸ hsum) ?_ hfee ?_ hvalid ?_
  · intro group hgroup position hposition input entry hinput hentry
    obtain ⟨ref, href, rfl⟩ := List.mem_map.mp hposition
    obtain ⟨owner, howner, hgroupSigned⟩ :=
      exists_of_mem_forall₂ hsigned.signed (hgroups ▸ hgroup)
    rw [hinputs, List.getElem?_map, Option.map_eq_some_iff] at hinput
    obtain ⟨utxo, hutxo, rfl⟩ := hinput
    obtain ⟨found, hspendable⟩ := hlookup utxo (List.mem_of_getElem? hutxo)
    obtain rfl : found = entry := Option.some.inj (hspendable.found.symm.trans hentry)
    have hindex : ref.inputIndex ∈ owner.inputIndexes := by
      rw [← hgroupSigned.inputIndexes]
      exact List.mem_map_of_mem href
    refine ⟨?_, hspendable.lock.symm, hspendable.network, hspendable.mature⟩
    rw [hspendable.lock, hgrouped.locks owner howner _ hindex utxo hutxo,
      hgrouped.derived owner howner, hgroupSigned.pubkey]
    rfl
  · rw [hsolved]; exact hout
  · rw [hsolved]; rfl
  · rw [hgroups]
    exact hpayment.verifies hsigned

end BuiltPayment

end Atho
