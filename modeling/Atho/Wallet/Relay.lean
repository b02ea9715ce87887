import Atho.Wallet.Affordable

/-! The mempool accepts the payments that wallets build. -/

namespace Atho

theorem exists_builtPayment {crypto : WalletCrypto} {wallet : Wallet}
    {request : WalletSpendRequest} {startNonce : UInt64} {built : WalletBuiltSpend}
    (hbuilt : wallet.buildSignedPaymentTransaction crypto request startNonce = .ok (some built)) :
    request.selectedUtxos ≠ [] ∧ ∃ totalInputAtoms,
      UInt64.checkedSum 0 (request.selectedUtxos.map WalletSpendUtxo.valueAtoms) =
        some totalInputAtoms ∧
      ∃ recipientAtoms changeAtoms changeOutput placeholder tx, BuiltPayment crypto wallet request
        startNonce totalInputAtoms recipientAtoms changeAtoms changeOutput placeholder tx built := by
  simp only [Wallet.buildSignedPaymentTransaction, bind_eq_ok, rejectWhen_eq_ok,
    okOr_eq_ok] at hbuilt
  obtain ⟨-, hne, -, -, -, -, totalInputAtoms, hsum, hrounds⟩ := hbuilt
  exact ⟨List.isEmpty_eq_false_iff.mp hne, totalInputAtoms, hsum, feeRounds_ok hrounds⟩

theorem length_inputs_built {crypto : WalletCrypto} {wallet : Wallet}
    {request : WalletSpendRequest} {startNonce : UInt64} {built : WalletBuiltSpend}
    (hbuilt : wallet.buildSignedPaymentTransaction crypto request startNonce = .ok (some built)) :
    built.transaction.inputs.length = request.selectedUtxos.length := by
  obtain ⟨-, _, -, _, _, _, _, _, hpayment⟩ := exists_builtPayment hbuilt
  obtain ⟨groups, witness, hsigned⟩ := hpayment.signedSpend
  obtain ⟨nonce, htransaction⟩ := hpayment.transaction_eq hsigned
  rw [htransaction]
  exact List.length_map _

/-- The mempool accepts what the wallet builds, for the fee it states, unless the payment has
more inputs than relay policy allows. -/
theorem built_payment_accepted_iff (crypto : WalletCrypto) (wallet : Wallet)
    (request : WalletSpendRequest) (startNonce : UInt64) (built : WalletBuiltSpend)
    (height : UInt64) (lookup : UtxoKey → Option UtxoEntry)
    (hdistinct : (request.selectedUtxos.map WalletSpendUtxo.key).Nodup)
    (hbuilt : wallet.buildSignedPaymentTransaction crypto request startNonce = .ok (some built))
    (hlookup : ∀ utxo ∈ request.selectedUtxos, ∃ entry,
      SpendableOutput lookup wallet.network height utxo entry)
    (hversion : isSupportedTransactionVersionWithSchedule request.transactionVersion height
      scheduledActivations = true) :
    validateTransactionWithContextForMempool crypto.toCrypto built.transaction built.feeAtoms
        wallet.network height lookup = .ok built.feeAtoms ↔
      request.selectedUtxos.length ≤ maxStandardInputs := by
  have hcount := length_inputs_built hbuilt
  obtain ⟨hne, totalInputAtoms, hsum, _, _, _, _, _, hpayment⟩ := exists_builtPayment hbuilt
  have hvalid := hpayment.validates hne hdistinct hsum hlookup hversion
  obtain ⟨groups, witness, hsigned⟩ := hpayment.signedSpend
  obtain ⟨nonce, htransaction⟩ := hpayment.transaction_eq hsigned
  have hdust : (built.transaction.outputs.any fun output => 0 < output.valueAtoms &&
      output.valueAtoms < minimumOutputAmountAtoms wallet.network built.transaction) = false := by
    rw [List.any_eq_false, htransaction]
    intro output houtput hdust
    rw [Bool.and_eq_true] at hdust
    exact UInt64.not_lt.mpr (hpayment.outputs output houtput).1 (of_decide_eq_true hdust.2)
  simp only [validateTransactionWithContextForMempool, validateTransactionStandardPolicy,
    bind_eq_ok, rejectWhen_eq_ok, hdust, hvalid, and_true, exists_const, hcount,
    decide_eq_false_iff_not, not_lt]

theorem payingWallet_network : payingWallet.network = .testnet := by
  simp [payingWallet, Wallet.fromSeed]

/-- The output that the example spends. -/
def payingEntry (valueAtoms : UInt64) : UtxoEntry :=
  ⟨.testnet, .zero 48, 0, valueAtoms, payingLock.toList, 1, false⟩

theorem example_payment_accepted :
    ∃ built, payingWallet.buildSignedPaymentTransaction sealingSha3 (exampleRequest 5000) 5444 =
        .ok (some built) ∧
      validateTransactionWithContextForMempool sealingSha3.toCrypto built.transaction
        built.feeAtoms payingWallet.network 5
        (fun key => if key = ⟨.zero 48, 0⟩ then some (payingEntry 5000) else none) =
          .ok built.feeAtoms := by
  have hrun : (payingWallet.buildSignedPaymentTransaction sealingSha3 (exampleRequest 5000)
      5444).toOption.join.isSome = true := by
    decide +kernel
  obtain ⟨built, hbuilt⟩ := Option.isSome_iff_exists.mp hrun
  have hresult := toOption_eq_some.mp (Option.join_eq_some_iff.mp hbuilt)
  refine ⟨built, hresult, (built_payment_accepted_iff sealingSha3 payingWallet
    (exampleRequest 5000) 5444 built 5 _ (by decide) hresult ?_ (by decide)).mpr (by decide)⟩
  intro utxo hutxo
  obtain rfl := List.mem_singleton.mp hutxo
  exact ⟨payingEntry 5000, rfl, rfl, rfl, payingWallet_network.symm, by decide⟩

/-! Too many inputs. -/

theorem Wallet.ownerOf_derived {crypto : WalletCrypto} {wallet : Wallet} {kind : AddressKind}
    {index : Nat} (hgap : index < wallet.restoreGapLimit) (hindex : index < 2 ^ 32) :
    (wallet.ownerOf crypto
      (wallet.deriveAddress crypto ⟨0, kind, UInt32.ofNat index⟩).paymentDigest.toList).isSome =
        true := by
  have hfound : (wallet.discoveredAddressForPaymentDigest crypto (wallet.deriveAddress crypto
      ⟨0, kind, UInt32.ofNat index⟩).paymentDigest.toList).isSome = true := by
    rw [discoveredAddressForPaymentDigest, if_neg (by simp)]
    refine List.findSome?_isSome_iff.mpr ⟨index, List.mem_range.mpr (by omega), ?_⟩
    refine List.findSome?_isSome_iff.mpr ⟨kind, by cases kind <;> simp, ?_⟩
    rw [if_pos rfl]
    rfl
  rw [ownerOf, Option.isSome_or, hfound, Bool.or_true]

theorem sum_inputBytes {utxos : List WalletSpendUtxo}
    (hlocks : ∀ utxo ∈ utxos, utxo.lockingScript.length = 32) :
    ((utxos.map WalletSpendUtxo.input).map fun input =>
      48 + 4 + 4 + input.unlockingScript.length).sum = 88 * utxos.length := by
  induction utxos with
  | nil => rfl
  | cons utxo utxos ih =>
      obtain ⟨hlock, hlocks⟩ := List.forall_mem_cons.mp hlocks
      rw [List.map_cons, List.map_cons, List.sum_cons, ih hlocks, List.length_cons,
        WalletSpendUtxo.input, hlock]
      omega

/-- The lock of the wallet's first address, for any hash functions. -/
def firstLock (crypto : WalletCrypto) : Bytes 32 :=
  (payingWallet.deriveAddress crypto ⟨0, .receive, UInt32.ofNat 0⟩).paymentDigest

theorem firstLock_owned (crypto : WalletCrypto) :
    (payingWallet.ownerOf crypto (firstLock crypto).toList).isSome = true := by
  have hgap : payingWallet.restoreGapLimit = 1000 := by
    simp [payingWallet, Wallet.fromSeed, defaultRestoreGapLimit]
  rw [firstLock]
  exact Wallet.ownerOf_derived (by rw [hgap]; decide) (by decide)

/-- Pay 100000 atoms from 1025 outputs of 1000 atoms. -/
def manyInputsRequest (crypto : WalletCrypto) : WalletSpendRequest where
  selectedUtxos := (List.range 1025).map fun index =>
    ⟨.zero 48, UInt32.ofNat index, 1000, (firstLock crypto).toList⟩
  recipientDigest := .ofNat 32 7
  amountAtoms := 100000
  includeFeeInTotal := false
  transactionVersion := 1
  lockTime := 0
  changeAddress := some (payingWallet.deriveAddress crypto ⟨0, .change, 0⟩)

section

variable (crypto : WalletCrypto)

theorem length_manyInputsRequest : (manyInputsRequest crypto).selectedUtxos.length = 1025 := by
  simp [manyInputsRequest]

theorem manyInputsRequest_locks : ∀ utxo ∈ (manyInputsRequest crypto).selectedUtxos,
    utxo.lockingScript = (firstLock crypto).toList := by
  intro utxo hutxo
  simp only [manyInputsRequest, List.mem_map] at hutxo
  obtain ⟨index, -, rfl⟩ := hutxo
  rfl

theorem manyInputsRequest_owned : ∀ utxo ∈ (manyInputsRequest crypto).selectedUtxos,
    utxo.lockingScript.length = 32 ∧
      (payingWallet.ownerOf crypto utxo.lockingScript).isSome = true := by
  intro utxo hutxo
  rw [manyInputsRequest_locks crypto utxo hutxo]
  exact ⟨Bytes.length_toList _, firstLock_owned crypto⟩

theorem manyInputsRequest_plain : ∃ bare full, payingWallet.PlainRequest crypto
    (manyInputsRequest crypto) 1025000 bare full := by
  obtain ⟨groups, hgroups⟩ := exists_signerInputGroups (manyInputsRequest_owned crypto)
  have hcount := length_manyInputsRequest crypto
  have hgrouped := groupedInputs_of_ok (by rw [hcount]; decide) hgroups
  have hone : groups.length ≤ [(firstLock crypto).toList].length :=
    length_groups_le (by simpa using manyInputsRequest_locks crypto) hgroups
  rw [List.length_singleton] at hone
  have hlength := hgrouped.length_inputIndexes
  rw [hcount] at hlength
  obtain ⟨witness, hwitness⟩ : ∃ witness : TxWitness, groups.map Wallet.placeholderGroup =
      witness.primary :: witness.additionalSigners := by
    cases groups with
    | nil => simp at hlength
    | cons group groups =>
        exact ⟨⟨_, _, _, _⟩, rfl⟩
  have hplaceholder : ∀ change, ∃ tx, payingWallet.paymentPlaceholder crypto
      (manyInputsRequest crypto) change = .ok tx := fun change =>
    ⟨_, paymentPlaceholder_eq_ok.mpr ⟨groups, witness, hgroups, hwitness, rfl⟩⟩
  obtain ⟨bare, hbare⟩ := hplaceholder 0
  obtain ⟨full, hfull⟩ := hplaceholder dustRelayValueAtoms
  have hsum : UInt64.checkedSum 0 (List.replicate 1025 1000) = some 1025000 := by
    decide +kernel
  refine ⟨bare, full, rfl, ?_, manyInputsRequest_owned crypto,
    ⟨_, rfl, Wallet.deriveAddress_network _ _ _⟩, ?_, ?_, hbare, hfull, ?_⟩
  · exact List.ne_nil_of_length_pos (by rw [hcount]; decide)
  · change dustRelayValueAtoms ≤ 100000
    decide
  · rw [← hsum, manyInputsRequest, List.map_map, Function.comp_def, List.map_const',
      List.length_range]
  · obtain ⟨_, _, hsame, hstaged, rfl⟩ := paymentPlaceholder_eq_ok.mp hfull
    obtain rfl := Except.ok.inj (hsame.symm.trans hgroups)
    have hbytes := length_placeholderWitness hstaged
    rw [hlength] at hbytes
    have hinputs := sum_inputBytes fun utxo hutxo => (manyInputsRequest_owned crypto utxo hutxo).1
    rw [hcount] at hinputs
    rw [if_pos (by decide)]
    simp only [ensureStandardTransactionSize, rejectWhen_eq_ok, Bool.or_eq_false_iff,
      decide_eq_false_iff_not, not_lt, Transaction.vsizeBytes, Transaction.weightBytes,
      Transaction.fullSizeBytes, Transaction.baseSizeBytes, BuiltPayment.base,
      buildSpendTransactionFromParts, hinputs, hbytes, Option.toList, List.map_cons, List.map_nil,
      List.sum_cons, List.sum_nil, Bytes.length_toList, List.length_replicate,
      maxTransactionRawBytes, maxTransactionVbytes, txPowNonceBytes, txPowBitsBytes,
      txWitnessFixedBytes, falcon512SignatureBytes, falcon512PublicKeyBytes]
    omega

theorem exists_manyInputsPayment
    (hsign : ∀ path message, ∃ signature, crypto.sign
      (payingWallet.keypairForPath crypto path).secretKey message = .ok signature)
    (startNonce : UInt64)
    (hsolve : ∀ tx feeAtoms, (solveTransactionPow crypto.toCrypto payingWallet.network tx feeAtoms
      startNonce).isSome = true) :
    ∃ built, payingWallet.buildSignedPaymentTransaction crypto (manyInputsRequest crypto)
      startNonce = .ok (some built) := by
  obtain ⟨bare, full, hplain⟩ := manyInputsRequest_plain crypto
  obtain ⟨hfull, -⟩ := hplain.fees
  have hbound : (minimumRequiredFeeAtoms payingWallet.network bare).toNat ≤ 250000 := by
    have hvbytes := (ensureStandardTransactionSize_ok hplain.fits_withoutChange).2
    rw [maxTransactionVbytes] at hvbytes
    rw [toNat_minimumRequiredFeeAtoms (by omega)]
    exact hvbytes
  have htotal : (1025000 : UInt64).toNat = 1025000 := rfl
  have hamount : (manyInputsRequest crypto).amountAtoms.toNat = 100000 := rfl
  obtain ⟨spare, hspare⟩ : ∃ spare, (1025000 : UInt64).toNat =
      (manyInputsRequest crypto).amountAtoms.toNat +
        (minimumRequiredFeeAtoms payingWallet.network bare).toNat + spare :=
    ⟨925000 - (minimumRequiredFeeAtoms payingWallet.network bare).toNat, by omega⟩
  rw [hplain.buildSignedPaymentTransaction_eq hspare, if_neg (by omega), if_neg (by omega),
    if_neg (by omega)]
  set changeAtoms := 1025000 - (manyInputsRequest crypto).amountAtoms -
    minimumRequiredFeeAtoms payingWallet.network full with hchange
  have hvalue : changeAtoms.toNat = spare - 44 := by
    rw [hchange, toNat_sub_sub (by omega)]
    omega
  have hpositive : 0 < changeAtoms := by
    rw [UInt64.lt_iff_toNat_lt, hvalue, UInt64.toNat_zero]
    omega
  obtain ⟨tx, htx, hsame⟩ := sameSize_of_change (by decide) hpositive hplain.withChange
  obtain ⟨groups, hgroups⟩ := exists_signerInputGroups (manyInputsRequest_owned crypto)
  obtain ⟨address, haddress, -⟩ := hplain.change
  have houtput : Wallet.changeOutputFor (manyInputsRequest crypto) changeAtoms =
      .ok (some (changeAtoms, address.paymentDigest.toList)) := by
    rw [Wallet.changeOutputFor, if_pos hpositive, haddress]
    rfl
  obtain ⟨signed, hsigned⟩ := exists_buildSigned hplain.inputs
    (length_le_of_placeholder hplain.withChange hplain.fits) hgroups hsign
  have hsum : (1025000 : UInt64).toNat = (manyInputsRequest crypto).amountAtoms.toNat +
      changeAtoms.toNat + (minimumRequiredFeeAtoms payingWallet.network full).toNat := by
    rw [hvalue]
    omega
  have hcomplete := (completeSpend_iff htx
    (hsame.ensureStandardTransactionSize.trans hplain.fits) (hsame.minimumRequiredFeeAtoms _)
    hsum (UInt64.le_refl _) fun _ => rfl).mpr ⟨_, signed, houtput, hsigned, hsolve signed _⟩
  exact hcomplete.imp fun _ hbuilt => hbuilt.1

theorem manyInputsPayment_refused {startNonce : UInt64} {built : WalletBuiltSpend}
    (hbuilt : payingWallet.buildSignedPaymentTransaction crypto (manyInputsRequest crypto)
      startNonce = .ok (some built)) (height : UInt64) (lookup : UtxoKey → Option UtxoEntry) :
    validateTransactionWithContextForMempool crypto.toCrypto built.transaction built.feeAtoms
      payingWallet.network height lookup = .error .transactionTooLarge := by
  have hcount : built.transaction.inputs.length = 1025 :=
    (length_inputs_built hbuilt).trans (length_manyInputsRequest crypto)
  rw [validateTransactionWithContextForMempool, validateTransactionStandardPolicy, hcount]
  rfl

/-- The outputs that the payment spends. -/
def manyOutputs (key : UtxoKey) : Option UtxoEntry :=
  if key.txid = .zero 48 ∧ key.outputIndex < 1025 then
    some ⟨.testnet, key.txid, key.outputIndex, 1000, (firstLock crypto).toList, 1, false⟩
  else none

theorem manyInputsRequest_keys :
    ((manyInputsRequest crypto).selectedUtxos.map WalletSpendUtxo.key).Nodup := by
  rw [manyInputsRequest, List.map_map]
  refine List.Nodup.map_on ?_ List.nodup_range
  intro left hleft right hright heq
  have hindex := congrArg (fun key : UtxoKey => key.outputIndex.toNat) heq
  simp only [Function.comp_apply, WalletSpendUtxo.key, UInt32.toNat_ofNat'] at hindex
  rw [List.mem_range] at hleft hright
  omega

theorem manyInputsRequest_found : ∀ utxo ∈ (manyInputsRequest crypto).selectedUtxos, ∃ entry,
    SpendableOutput (manyOutputs crypto) payingWallet.network 5 utxo entry := by
  intro utxo hutxo
  simp only [manyInputsRequest, List.mem_map, List.mem_range] at hutxo
  obtain ⟨index, hindex, rfl⟩ := hutxo
  have hsmall : UInt32.ofNat index < 1025 := by
    rw [UInt32.lt_iff_toNat_lt, UInt32.toNat_ofNat']
    change _ < 1025
    omega
  refine ⟨_, if_pos ⟨rfl, hsmall⟩, rfl, rfl, payingWallet_network.symm, ?_⟩
  change decide (normalTxValidAfterConfirmations ≤ (if (5 : UInt64) < 1 then 0 else 5 - 1 + 1)) = true
  decide

end

/-- A hash that reads its input from the end, so that the nonce zero is always good. -/
def backwardsHash (bytes : List UInt8) : Bytes 32 :=
  ⟨(bytes.reverse ++ List.replicate 32 0).take 32, by simp⟩

theorem le_leadingZeroBitsFrom {count : Nat} {bytes : List UInt8} (hcount : count ≤ 255) :
    count ≤ leadingZeroBitsFrom count bytes := by
  induction bytes generalizing count with
  | nil => exact Nat.le_refl _
  | cons byte bytes ih =>
      rw [leadingZeroBitsFrom]
      split
      · exact le_trans (by omega) (ih (Nat.min_le_right _ _))
      · dsimp only
        omega

theorem backwardsHash_zeroes (bytes : List UInt8) :
    64 ≤ leadingZeroBits (backwardsHash (bytes ++ be64 0)).toList := by
  have hzeroes : (be64 0).reverse = [0, 0, 0, 0, 0, 0, 0, 0] := by decide
  change 64 ≤ leadingZeroBits (((bytes ++ be64 0).reverse ++ List.replicate 32 0).take 32)
  rw [List.reverse_append, hzeroes]
  exact le_leadingZeroBitsFrom (by decide)

theorem backwardsHash_solves (crypto : Crypto) (hhash : crypto.sha3_256 = backwardsHash)
    (tx : Transaction) (feeAtoms : UInt64) :
    (solveTransactionPow crypto .testnet tx feeAtoms 0).isSome = true := by
  have hbits : (requiredTxPowBits .testnet tx feeAtoms).toNat ≤ 12 := by
    rw [requiredTxPowBits]
    split
    · decide
    · rw [if_pos rfl]
      decide
  rw [solveTransactionPow]
  dsimp only
  split
  · rfl
  · rw [Option.isSome_map, show (2 : Nat) ^ 64 = (2 ^ 64 - 1) + 1 by decide,
      findTransactionPowNonce, if_pos]
    · rfl
    · rw [transactionPowHash, hhash]
      exact (hbits.trans (by decide)).trans (backwardsHash_zeroes _)

theorem sealingCrypto_sign {sha3_256 : List UInt8 → Bytes 32} {sha3_384 : List UInt8 → Bytes 48}
    (seed message : Bytes 48) : (sealingCrypto sha3_256 sha3_384).sign
      ((sealingCrypto sha3_256 sha3_384).generateFromSeed seed).secretKey message =
        .ok (sealedSignature seed.toList message) :=
  if_pos seed.length_toList

theorem many_inputs_payment_refused :
    ∃ built, let crypto := sealingCrypto backwardsHash Sha3.digest384
      ((manyInputsRequest crypto).selectedUtxos.map WalletSpendUtxo.key).Nodup ∧
      (∀ utxo ∈ (manyInputsRequest crypto).selectedUtxos, ∃ entry,
        SpendableOutput (manyOutputs crypto) payingWallet.network 5 utxo entry) ∧
      payingWallet.buildSignedPaymentTransaction crypto (manyInputsRequest crypto) 0 =
        .ok (some built) ∧
      validateTransactionWithContextForMempool crypto.toCrypto built.transaction built.feeAtoms
        payingWallet.network 5 (manyOutputs crypto) = .error .transactionTooLarge := by
  have hsign : ∀ path message, ∃ signature,
      (sealingCrypto backwardsHash Sha3.digest384).sign (payingWallet.keypairForPath
        (sealingCrypto backwardsHash Sha3.digest384) path).secretKey message = .ok signature :=
    fun path message => ⟨_, sealingCrypto_sign _ message⟩
  set crypto := sealingCrypto backwardsHash Sha3.digest384
  obtain ⟨built, hbuilt⟩ := exists_manyInputsPayment crypto hsign 0
    (by rw [payingWallet_network]; exact backwardsHash_solves _ rfl)
  refine ⟨built, ?_, ?_, hbuilt, manyInputsPayment_refused crypto hbuilt 5 _⟩
  · exact manyInputsRequest_keys crypto
  · exact manyInputsRequest_found crypto

end Atho
