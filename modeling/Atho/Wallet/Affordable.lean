import Atho.Wallet.Payment

/-! For which amounts the search for a fee comes to an end. -/

namespace Atho

/-! Sizes and fees. -/

theorem vsizeBytes_pos (tx : Transaction) : 0 < tx.vsizeBytes := by
  rw [Transaction.vsizeBytes, Transaction.weightBytes, Transaction.baseSizeBytes]
  omega

theorem toNat_minimumRequiredFeeAtoms {network : Network} {tx : Transaction}
    (hsize : tx.vsizeBytes < 2 ^ 64) :
    (minimumRequiredFeeAtoms network tx).toNat = tx.vsizeBytes := by
  have hpos := vsizeBytes_pos tx
  have hrate : max tx.vsizeBytes 1 * minRelayFeeRateAtomsPerVbyte.toNat = tx.vsizeBytes := by
    rw [max_eq_left hpos]
    exact Nat.mul_one _
  have hfee : (UInt64.ofNat tx.vsizeBytes).toNat = tx.vsizeBytes :=
    UInt64.toNat_ofNat_of_lt' hsize
  have hmax : max minTxFeeAtoms (UInt64.ofNat tx.vsizeBytes) = UInt64.ofNat tx.vsizeBytes := by
    refine if_pos ?_
    rw [UInt64.le_iff_toNat_le, hfee]
    exact hpos
  rw [minimumRequiredFeeAtoms, hrate, min_eq_left (by omega), hmax, hfee]

theorem toOption_eq_some {ε α : Type} {step : Except ε α} {value : α} :
    step.toOption = some value ↔ step = .ok value := by
  cases step with
  | error err => exact iff_of_false nofun nofun
  | ok found => exact ⟨fun hfound => congrArg _ (Option.some.inj hfound), fun hfound =>
      congrArg _ (Except.ok.inj hfound)⟩

namespace Wallet

variable (crypto : WalletCrypto) (wallet : Wallet) (request : WalletSpendRequest)

/-- The payment with placeholders for keys and signatures, with or without a change output. -/
def paymentPlaceholder (changeAtoms : UInt64) : Except WalletSpendBuildError Transaction :=
  wallet.buildPlaceholderSpendTransactionFromParts crypto request.selectedUtxos
    request.transactionVersion request.recipientDigest request.amountAtoms
    (if 0 < changeAtoms then some (changeAtoms, List.replicate 32 0) else none) request.lockTime

/-- The payment with this change can be signed, and the search for its proof of work ends. -/
def Completes (startNonce feeAtoms changeAtoms : UInt64) : Prop :=
  ∃ changeOutput tx, changeOutputFor request changeAtoms = .ok changeOutput ∧
    wallet.buildSignedSpendTransactionFromParts crypto request.selectedUtxos
      request.transactionVersion request.recipientDigest request.amountAtoms changeOutput
      request.lockTime = .ok tx ∧
    (solveTransactionPow crypto.toCrypto wallet.network tx feeAtoms startNonce).isSome = true

/-- The payment with this change, signed. -/
def signedPayment (changeAtoms : UInt64) : Except WalletSpendBuildError Transaction := do
  let changeOutput ← changeOutputFor request changeAtoms
  wallet.buildSignedSpendTransactionFromParts crypto request.selectedUtxos
    request.transactionVersion request.recipientDigest request.amountAtoms changeOutput
    request.lockTime

instance (startNonce feeAtoms changeAtoms : UInt64) :
    Decidable (wallet.Completes crypto request startNonce feeAtoms changeAtoms) :=
  decidable_of_iff (((wallet.signedPayment crypto request changeAtoms).toOption.bind fun tx =>
      solveTransactionPow crypto.toCrypto wallet.network tx feeAtoms startNonce).isSome = true) (by
    rw [Option.isSome_iff_exists]
    constructor
    · rintro ⟨solved, hsolved⟩
      obtain ⟨tx, htx, hsolved⟩ := Option.bind_eq_some_iff.mp hsolved
      obtain ⟨changeOutput, houtput, hsigned⟩ := bind_eq_ok.mp (toOption_eq_some.mp htx)
      exact ⟨changeOutput, tx, houtput, hsigned, by rw [hsolved]; rfl⟩
    · rintro ⟨changeOutput, tx, houtput, hsigned, hsome⟩
      obtain ⟨solved, hsolved⟩ := Option.isSome_iff_exists.mp hsome
      refine ⟨solved, Option.bind_eq_some_iff.mpr ⟨tx, toOption_eq_some.mpr ?_, hsolved⟩⟩
      exact bind_eq_ok.mpr ⟨changeOutput, houtput, hsigned⟩)

/-- A request to pay an amount with the fee on top, from inputs the wallet owns, with somewhere
for the change to go. -/
structure PlainRequest (totalInputAtoms : UInt64) (bare full : Transaction) : Prop where
  feeOnTop : request.includeFeeInTotal = false
  inputs : request.selectedUtxos ≠ []
  owned : ∀ utxo ∈ request.selectedUtxos, utxo.lockingScript.length = 32 ∧
    (wallet.ownerOf crypto utxo.lockingScript).isSome = true
  change : ∃ address, request.changeAddress = some address ∧ address.network = wallet.network
  amount : dustRelayValueAtoms ≤ request.amountAtoms
  total : UInt64.checkedSum 0 (request.selectedUtxos.map WalletSpendUtxo.valueAtoms) =
    some totalInputAtoms
  withoutChange : wallet.paymentPlaceholder crypto request 0 = .ok bare
  withChange : wallet.paymentPlaceholder crypto request dustRelayValueAtoms = .ok full
  fits : ensureStandardTransactionSize full = .ok ()

end Wallet

section

variable {crypto : WalletCrypto} {wallet : Wallet} {request : WalletSpendRequest}
  {startNonce totalInputAtoms : UInt64} {bare full : Transaction}

theorem paymentPlaceholder_eq_ok {changeAtoms : UInt64} {tx : Transaction} :
    wallet.paymentPlaceholder crypto request changeAtoms = .ok tx ↔
      ∃ (groups : _) (witness : TxWitness),
        wallet.signerInputGroups crypto request.selectedUtxos = .ok groups ∧
        groups.map Wallet.placeholderGroup =
          witness.primary :: witness.additionalSigners ∧
        tx = { BuiltPayment.base request request.amountAtoms
          (if 0 < changeAtoms then some (changeAtoms, List.replicate 32 0) else none) with
            witness := witness.canonicalBytes } :=
  buildPlaceholder_eq_ok

theorem sameSize_of_change {change change' : UInt64} {tx : Transaction}
    (hchange : 0 < change) (hchange' : 0 < change')
    (hplaceholder : wallet.paymentPlaceholder crypto request change = .ok tx) :
    ∃ tx', wallet.paymentPlaceholder crypto request change' = .ok tx' ∧ SameSize tx' tx := by
  obtain ⟨groups, witness, hgroups, hwitness, rfl⟩ := paymentPlaceholder_eq_ok.mp hplaceholder
  refine ⟨_, paymentPlaceholder_eq_ok.mpr ⟨groups, witness, hgroups, hwitness, rfl⟩, ?_⟩
  rw [if_pos hchange, if_pos hchange']
  exact ⟨rfl, rfl, rfl⟩

theorem vsizeBytes_withChange {change : UInt64} (hchange : 0 < change)
    (hwithout : wallet.paymentPlaceholder crypto request 0 = .ok bare)
    (hwith : wallet.paymentPlaceholder crypto request change = .ok full) :
    full.fullSizeBytes = bare.fullSizeBytes + 44 ∧ full.vsizeBytes = bare.vsizeBytes + 44 := by
  obtain ⟨groups, witness, hgroups, hwitness, rfl⟩ := paymentPlaceholder_eq_ok.mp hwithout
  obtain ⟨groups', witness', hgroups', hwitness', rfl⟩ := paymentPlaceholder_eq_ok.mp hwith
  obtain rfl : groups' = groups := Except.ok.inj (hgroups'.symm.trans hgroups)
  have hlength := (length_placeholderWitness hwitness').trans
    (length_placeholderWitness hwitness).symm
  rw [if_pos hchange, if_neg (by decide)]
  simp only [Transaction.vsizeBytes, Transaction.weightBytes, Transaction.fullSizeBytes,
    Transaction.baseSizeBytes, BuiltPayment.base, buildSpendTransactionFromParts, hlength,
    Option.toList, List.map_cons, List.map_nil, List.sum_cons, List.sum_nil, Bytes.length_toList,
    List.length_replicate]
  omega

theorem toNat_sub_sub {total amount fee : UInt64}
    (henough : ¬total.toNat < amount.toNat + fee.toNat) :
    (total - amount - fee).toNat = total.toNat - amount.toNat - fee.toNat := by
  have hamount : amount ≤ total := by
    rw [UInt64.le_iff_toNat_le]
    omega
  have hfirst := UInt64.toNat_sub_of_le _ _ hamount
  rw [UInt64.toNat_sub_of_le, hfirst]
  rw [UInt64.le_iff_toNat_le, hfirst]
  omega

theorem recipientAndChangeAmounts_plain {total amount fee : UInt64}
    (hamount : dustRelayValueAtoms ≤ amount) :
    recipientAndChangeAmounts total amount fee false dustRelayValueAtoms =
      if total.toNat < amount.toNat + fee.toNat then .error .insufficientFunds
      else .ok (amount, if total.toNat < amount.toNat + fee.toNat + 100 then 0
        else total - amount - fee) := by
  have hdust : decide (amount < dustRelayValueAtoms) = false :=
    decide_eq_false (UInt64.not_lt.mpr hamount)
  rw [recipientAndChangeAmounts, if_neg Bool.false_ne_true, hdust]
  split
  · next hshort =>
      have hnone : ((total.checkedSub amount).bind fun value => value.checkedSub fee) = none := by
        rw [Option.eq_none_iff_forall_ne_some]
        intro raw hraw
        obtain ⟨value, hvalue, hraw⟩ := Option.bind_eq_some_iff.mp hraw
        rw [UInt64.checkedSub_eq_some] at hvalue hraw
        omega
      rw [hnone]
      rfl
  · next henough =>
      have hraw : ((total.checkedSub amount).bind fun value => value.checkedSub fee) =
          some (total - amount - fee) := by
        have hrest := toNat_sub_sub henough
        have hfirst : (total - amount).toNat = total.toNat - amount.toNat :=
          UInt64.toNat_sub_of_le _ _ (UInt64.le_iff_toNat_le.mpr (by omega))
        exact Option.bind_eq_some_iff.mpr ⟨total - amount,
          UInt64.checkedSub_eq_some.mpr (by omega), UInt64.checkedSub_eq_some.mpr (by omega)⟩
      have hlt : total - amount - fee < dustRelayValueAtoms ↔
          total.toNat < amount.toNat + fee.toNat + 100 := by
        rw [UInt64.lt_iff_toNat_lt, toNat_sub_sub henough]
        change _ < 100 ↔ _
        omega
      rw [hraw]
      simp only [okOr, bind, Except.bind, rejectWhen, pure, Except.pure, hlt]
      rfl

namespace Wallet.PlainRequest

variable (hplain : wallet.PlainRequest crypto request totalInputAtoms bare full)

include hplain

theorem sizes : full.fullSizeBytes = bare.fullSizeBytes + 44 ∧
    full.vsizeBytes = bare.vsizeBytes + 44 :=
  vsizeBytes_withChange (by decide) hplain.withoutChange hplain.withChange

theorem fits_withoutChange : ensureStandardTransactionSize bare = .ok () := by
  obtain ⟨hraw, hvbytes⟩ := ensureStandardTransactionSize_ok hplain.fits
  obtain ⟨hfull, hvsize⟩ := hplain.sizes
  simp only [ensureStandardTransactionSize, rejectWhen_eq_ok, Bool.or_eq_false_iff,
    decide_eq_false_iff_not, not_lt]
  omega

theorem fees : (minimumRequiredFeeAtoms wallet.network full).toNat =
      (minimumRequiredFeeAtoms wallet.network bare).toNat + 44 ∧
    101 ≤ (minimumRequiredFeeAtoms wallet.network bare).toNat := by
  obtain ⟨hraw, hvbytes⟩ := ensureStandardTransactionSize_ok hplain.fits
  obtain ⟨-, hvsize⟩ := hplain.sizes
  rw [maxTransactionVbytes] at hvbytes
  rw [toNat_minimumRequiredFeeAtoms (by omega), toNat_minimumRequiredFeeAtoms (by omega)]
  refine ⟨hvsize, ?_⟩
  obtain ⟨groups, witness, -, -, rfl⟩ := paymentPlaceholder_eq_ok.mp hplain.withoutChange
  obtain ⟨utxo, utxos, hutxos⟩ := List.exists_cons_of_ne_nil hplain.inputs
  simp only [Transaction.vsizeBytes, Transaction.weightBytes, Transaction.fullSizeBytes,
    Transaction.baseSizeBytes, BuiltPayment.base, buildSpendTransactionFromParts, hutxos,
    List.map_cons, List.sum_cons, Bytes.length_toList]
  omega

theorem feeRounds_succ (rounds : Nat) (fee : UInt64) :
    wallet.feeRounds crypto request startNonce totalInputAtoms (rounds + 1) fee =
      if totalInputAtoms.toNat < request.amountAtoms.toNat + fee.toNat then
        .error .insufficientFunds
      else if totalInputAtoms.toNat < request.amountAtoms.toNat + fee.toNat + 100 then
        if minimumRequiredFeeAtoms wallet.network bare = fee then
          wallet.completeSpend crypto request startNonce totalInputAtoms
            (minimumRequiredFeeAtoms wallet.network bare) request.amountAtoms 0
        else wallet.feeRounds crypto request startNonce totalInputAtoms rounds
          (minimumRequiredFeeAtoms wallet.network bare)
      else if minimumRequiredFeeAtoms wallet.network full = fee then
        wallet.completeSpend crypto request startNonce totalInputAtoms
          (minimumRequiredFeeAtoms wallet.network full) request.amountAtoms
          (totalInputAtoms - request.amountAtoms - fee)
      else wallet.feeRounds crypto request startNonce totalInputAtoms rounds
        (minimumRequiredFeeAtoms wallet.network full) := by
  rw [feeRounds, hplain.feeOnTop, recipientAndChangeAmounts_plain hplain.amount]
  split
  · rfl
  · next henough =>
      split
      · next hsmall =>
          have hbare := hplain.withoutChange
          rw [paymentPlaceholder] at hbare
          simp only [hbare, bind, Except.bind, hplain.fits_withoutChange]
      · next hlarge =>
          have hpositive : 0 < totalInputAtoms - request.amountAtoms - fee := by
            rw [UInt64.lt_iff_toNat_lt, toNat_sub_sub henough]
            change 0 < _
            omega
          obtain ⟨tx, htx, hsame⟩ := sameSize_of_change (by decide) hpositive hplain.withChange
          rw [paymentPlaceholder] at htx
          simp only [htx, bind, Except.bind, hsame.ensureStandardTransactionSize, hplain.fits,
            hsame.minimumRequiredFeeAtoms]

/-- What becomes of the request, by what is left of its inputs behind the amount and the fee
without change: too little for a change output, enough to be left to the fee, not enough for
change above dust, or enough. -/
theorem buildSignedPaymentTransaction_eq {spare : Nat}
    (hspare : totalInputAtoms.toNat = request.amountAtoms.toNat +
      (minimumRequiredFeeAtoms wallet.network bare).toNat + spare) :
    wallet.buildSignedPaymentTransaction crypto request startNonce =
      if spare < 44 then .error .insufficientFunds
      else if spare < 100 then
        wallet.completeSpend crypto request startNonce totalInputAtoms
          (minimumRequiredFeeAtoms wallet.network bare) request.amountAtoms 0
      else if spare < 144 then .error .feeLoopDidNotConverge
      else wallet.completeSpend crypto request startNonce totalInputAtoms
        (minimumRequiredFeeAtoms wallet.network full) request.amountAtoms
        (totalInputAtoms - request.amountAtoms -
          minimumRequiredFeeAtoms wallet.network full) := by
  obtain ⟨hfull, hbare⟩ := hplain.fees
  have hone : (minTxFeeAtoms).toNat = 1 := rfl
  have hne : minimumRequiredFeeAtoms wallet.network full ≠ minTxFeeAtoms := by
    intro heq
    rw [heq] at hfull
    omega
  have hdiffer : minimumRequiredFeeAtoms wallet.network bare ≠
      minimumRequiredFeeAtoms wallet.network full := by
    intro heq
    rw [heq] at hfull
    omega
  -- The first round assumes a fee that leaves change and learns the fee with change.
  have hfirst : wallet.buildSignedPaymentTransaction crypto request startNonce =
      wallet.feeRounds crypto request startNonce totalInputAtoms 3
        (minimumRequiredFeeAtoms wallet.network full) := by
    have hstart : wallet.buildSignedPaymentTransaction crypto request startNonce =
        wallet.feeRounds crypto request startNonce totalInputAtoms 4 minTxFeeAtoms := by
      obtain ⟨address, haddress, hnetwork⟩ := hplain.change
      have hamount : decide (request.amountAtoms < dustRelayValueAtoms) = false :=
        decide_eq_false (UInt64.not_lt.mpr hplain.amount)
      have hinputs : request.selectedUtxos.isEmpty = false :=
        List.isEmpty_eq_false_iff.mpr hplain.inputs
      simp [buildSignedPaymentTransaction, hinputs, haddress, hnetwork, hamount, hplain.total,
        rejectWhen, okOr, bind, Except.bind]
    rw [hstart, hplain.feeRounds_succ, if_neg (by omega), if_neg (by omega), if_neg hne]
  rw [hfirst, hplain.feeRounds_succ]
  by_cases hshort : spare < 44
  · rw [if_pos (by omega), if_pos hshort]
  rw [if_neg (by omega), if_neg hshort]
  by_cases hchange : 144 ≤ spare
  · rw [if_neg (by omega), if_pos rfl, if_neg (by omega), if_neg (by omega)]
  -- Change would be dust, so the fee without change is tried next.
  rw [if_pos (by omega), if_neg hdiffer, hplain.feeRounds_succ, if_neg (by omega)]
  by_cases hdust : spare < 100
  · rw [if_pos (by omega), if_pos rfl, if_pos hdust]
  · rw [if_neg (by omega), if_neg hdiffer.symm, hplain.feeRounds_succ, if_neg (by omega),
      if_pos (by omega), if_neg hdiffer, if_neg hdust, if_pos (by omega)]
    rfl

end Wallet.PlainRequest

/-! Completion. -/

theorem checkedOutputValueAtoms_eq {changeAtoms : UInt64}
    {changeOutput : Option (UInt64 × List UInt8)} {tx : Transaction}
    (hlength : request.selectedUtxos.length ≤ maxWitnessInputRefs)
    (hsum : request.amountAtoms.toNat + changeAtoms.toNat < 2 ^ 64)
    (houtput : Wallet.changeOutputFor request changeAtoms = .ok changeOutput)
    (hsigned : wallet.buildSignedSpendTransactionFromParts crypto request.selectedUtxos
      request.transactionVersion request.recipientDigest request.amountAtoms changeOutput
      request.lockTime = .ok tx) :
    ∃ outputAtoms, tx.checkedOutputValueAtoms = some outputAtoms ∧
      outputAtoms.toNat = request.amountAtoms.toNat + changeAtoms.toNat := by
  obtain ⟨groups, witness, hspend⟩ := signedSpend_of_ok hlength hsigned
  rw [Transaction.checkedOutputValueAtoms, hspend.transaction]
  have hfirst : (0 : UInt64).checkedAdd request.amountAtoms = some request.amountAtoms := by
    rw [UInt64.checkedAdd_eq_some]
    simp
  rcases changeOutputFor_eq_ok houtput with ⟨hnone, rfl⟩ | ⟨-, digest, rfl⟩
  · refine ⟨request.amountAtoms, by simp [buildSpendTransactionFromParts, UInt64.checkedSum, hfirst], ?_⟩
    rw [UInt64.lt_iff_toNat_lt] at hnone
    simp only [UInt64.toNat_zero] at hnone
    omega
  · have hsecond : request.amountAtoms.checkedAdd changeAtoms =
        some (request.amountAtoms + changeAtoms) := by
      rw [UInt64.checkedAdd_eq_some, UInt64.toNat_add, Nat.mod_eq_of_lt hsum]
    refine ⟨request.amountAtoms + changeAtoms, ?_, ?_⟩
    · simp [buildSpendTransactionFromParts, UInt64.checkedSum, hfirst, hsecond]
    · rw [UInt64.toNat_add, Nat.mod_eq_of_lt hsum]

theorem completeSpend_iff {changeAtoms feeAtoms actualFee : UInt64} {placeholder : Transaction}
    (hplaceholder : wallet.paymentPlaceholder crypto request changeAtoms = .ok placeholder)
    (hsize : ensureStandardTransactionSize placeholder = .ok ())
    (hactual : minimumRequiredFeeAtoms wallet.network placeholder = actualFee)
    (htotal : totalInputAtoms.toNat =
      request.amountAtoms.toNat + changeAtoms.toNat + feeAtoms.toNat)
    (hminimum : actualFee ≤ feeAtoms) (hexact : 0 < changeAtoms → feeAtoms = actualFee) :
    (∃ built, wallet.completeSpend crypto request startNonce totalInputAtoms actualFee
        request.amountAtoms changeAtoms = .ok (some built) ∧
      minimumRequiredFeeAtoms wallet.network built.transaction ≤ built.feeAtoms) ↔
    wallet.Completes crypto request startNonce feeAtoms changeAtoms := by
  have hlength := length_le_of_placeholder hplaceholder hsize
  have hbound := totalInputAtoms.toNat_lt
  have hsum : request.amountAtoms.toNat + changeAtoms.toNat < 2 ^ 64 := by omega
  constructor
  · rintro ⟨built, hcomplete, -⟩
    obtain ⟨changeOutput, tx, houtput, hsigned, -, ⟨outputAtoms, hout, hfee⟩, -, hsolved⟩ :=
      completeSpend_ok hcomplete
    obtain ⟨_, hvalue, hworth⟩ := checkedOutputValueAtoms_eq hlength hsum houtput hsigned
    obtain rfl := Option.some.inj (hout.symm.trans hvalue)
    obtain rfl : built.feeAtoms = feeAtoms := UInt64.toNat_inj.mp (by omega)
    exact ⟨changeOutput, tx, houtput, hsigned, by rw [hsolved]; rfl⟩
  · rintro ⟨changeOutput, tx, houtput, hsigned, hsome⟩
    obtain ⟨solved, hsolved⟩ := Option.isSome_iff_exists.mp hsome
    obtain ⟨outputAtoms, hvalue, hworth⟩ :=
      checkedOutputValueAtoms_eq hlength hsum houtput hsigned
    have hsame := sameSize_of_signed hplaceholder hsize houtput hsigned
    refine ⟨⟨solved, feeAtoms, 0 < changeAtoms⟩, ?_, ?_⟩
    · simp only [Wallet.completeSpend, bind_eq_ok, okOr_eq_ok, rejectWhen_eq_ok, pure_eq_ok]
      refine ⟨changeOutput, houtput, tx, hsigned, (), hsame.ensureStandardTransactionSize.trans
        hsize, outputAtoms, hvalue, feeAtoms, UInt64.checkedSub_eq_some.mpr (by omega), (), ?_,
        (), ?_, by rw [hsolved]; rfl⟩
      · exact decide_eq_false (UInt64.not_lt.mpr hminimum)
      · by_cases hpositive : 0 < changeAtoms
        · simp [hexact hpositive]
        · simp [hpositive]
    · rw [(sameSize_of_solved hsolved).minimumRequiredFeeAtoms, hsame.minimumRequiredFeeAtoms,
        hactual]
      exact hminimum

/-- A request that can pay the amount and the fee without change is served exactly when what is
left is too little to be change but pays for a change output, or is change above dust that does,
and then the payment can be signed and solved. -/
theorem affordable_payment_built_iff (crypto : WalletCrypto) (wallet : Wallet)
    (request : WalletSpendRequest) (startNonce totalInputAtoms : UInt64)
    (bare full : Transaction) (spare : Nat)
    (hplain : wallet.PlainRequest crypto request totalInputAtoms bare full)
    (hspare : totalInputAtoms.toNat = request.amountAtoms.toNat +
      (minimumRequiredFeeAtoms wallet.network bare).toNat + spare) :
    (∃ built, wallet.buildSignedPaymentTransaction crypto request startNonce =
        .ok (some built) ∧
      minimumRequiredFeeAtoms wallet.network built.transaction ≤ built.feeAtoms) ↔
    (44 ≤ spare ∧ spare < 100 ∧ wallet.Completes crypto request startNonce
        (totalInputAtoms - request.amountAtoms) 0) ∨
      (144 ≤ spare ∧ wallet.Completes crypto request startNonce
        (minimumRequiredFeeAtoms wallet.network full) (UInt64.ofNat (spare - 44))) := by
  obtain ⟨hfull, -⟩ := hplain.fees
  have hbound := totalInputAtoms.toNat_lt
  rw [hplain.buildSignedPaymentTransaction_eq hspare]
  split
  · simp
    omega
  next hpays =>
  split
  · next hdust =>
      have hrest : (totalInputAtoms - request.amountAtoms).toNat =
          (minimumRequiredFeeAtoms wallet.network bare).toNat + spare := by
        rw [UInt64.toNat_sub_of_le _ _ (UInt64.le_iff_toNat_le.mpr (by omega))]
        omega
      have htotal : totalInputAtoms.toNat = request.amountAtoms.toNat + (0 : UInt64).toNat +
          (totalInputAtoms - request.amountAtoms).toNat := by
        rw [hrest, UInt64.toNat_zero]
        omega
      have hminimum : minimumRequiredFeeAtoms wallet.network bare ≤
          totalInputAtoms - request.amountAtoms := by
        rw [UInt64.le_iff_toNat_le, hrest]
        omega
      rw [completeSpend_iff hplain.withoutChange hplain.fits_withoutChange rfl htotal hminimum
        fun hpositive => absurd hpositive (by decide)]
      constructor
      · exact fun hcompletes => .inl ⟨by omega, hdust, hcompletes⟩
      · rintro (⟨-, -, hcompletes⟩ | ⟨hlarge, -⟩)
        · exact hcompletes
        · omega
  next hdust =>
  split
  · simp
    omega
  · next hlarge =>
      have hchange : (totalInputAtoms - request.amountAtoms -
          minimumRequiredFeeAtoms wallet.network full).toNat = spare - 44 := by
        rw [toNat_sub_sub (by omega)]
        omega
      have hofNat : UInt64.ofNat (spare - 44) = totalInputAtoms - request.amountAtoms -
          minimumRequiredFeeAtoms wallet.network full := by
        rw [← hchange, UInt64.ofNat_toNat]
      rw [hofNat]
      have hpositive : 0 < totalInputAtoms - request.amountAtoms -
          minimumRequiredFeeAtoms wallet.network full := by
        rw [UInt64.lt_iff_toNat_lt, hchange, UInt64.toNat_zero]
        omega
      obtain ⟨tx, htx, hsame⟩ := sameSize_of_change (by decide) hpositive hplain.withChange
      rw [completeSpend_iff htx (hsame.ensureStandardTransactionSize.trans hplain.fits)
        (hsame.minimumRequiredFeeAtoms _) (by rw [hchange]; omega) (UInt64.le_refl _)
        fun _ => rfl]
      constructor
      · exact fun hcompletes => .inr ⟨by omega, hcompletes⟩
      · rintro (⟨-, hsmall, -⟩ | ⟨-, hcompletes⟩)
        · omega
        · exact hcompletes

end

/-! An example. -/

/-- The signature of a scheme whose secret keys stand at the front of their public keys. -/
def sealedSignature (secretKey : List UInt8) (message : Bytes 48) : List UInt8 :=
  secretKey ++ message.toList ++ List.replicate 570 0

/-- Hash functions with that scheme. -/
def sealingCrypto (sha3_256 : List UInt8 → Bytes 32) (sha3_384 : List UInt8 → Bytes 48) :
    WalletCrypto where
  sha3_256 := sha3_256
  sha3_384 := sha3_384
  falconVerify domain publicKey message signature := some (decide
    (domain = .transaction ∧ signature = sealedSignature (publicKey.take 48) message))
  generateFromSeed seed := ⟨seed.toList ++ List.replicate 849 0, seed.toList⟩
  sign secretKey message :=
    if secretKey.length = 48 then .ok (sealedSignature secretKey message)
    else .error "invalid secret key"
  length_publicKey seed := by rw [List.length_append, seed.length_toList, List.length_replicate]; rfl
  length_signature := by
    intro secretKey message signature hsign
    split at hsign
    · next hlength =>
        cases hsign
        rw [sealedSignature, List.length_append, List.length_append, hlength,
          message.length_toList, List.length_replicate]
        rfl
    · cases hsign
  verify_sign := by
    intro seed message signature hsign
    rw [if_pos seed.length_toList] at hsign
    cases hsign
    rw [List.take_left' seed.length_toList]
    exact congrArg some (decide_eq_true ⟨rfl, rfl⟩)

def sealingSha3 : WalletCrypto := sealingCrypto Sha3.digest256 Sha3.digest384

def payingWallet : Wallet := .fromSeed (.zero 32) .testnet

/-- The lock of the wallet's first address. -/
def payingLock : Bytes 32 :=
  .ofNat 32 0x105c94ac1bc98eedc33f6948f7b1ee4c407ea61f09e0881befc2796d4c3e6bda

theorem payingLock_owned :
    (payingWallet.ownerOf sealingSha3 payingLock.toList).isSome = true := by
  decide +kernel

/-- Pay 1000 atoms from one output. -/
def exampleRequest (valueAtoms : UInt64) : WalletSpendRequest where
  selectedUtxos := [⟨.zero 48, 0, valueAtoms, payingLock.toList⟩]
  recipientDigest := .ofNat 32 7
  amountAtoms := 1000
  includeFeeInTotal := false
  transactionVersion := 1
  lockTime := 0
  changeAddress := some (payingWallet.deriveAddress sealingSha3 ⟨0, .change, 0⟩)

theorem exampleRequest_plain {valueAtoms : UInt64} {bare full : Transaction}
    (hbare : payingWallet.paymentPlaceholder sealingSha3 (exampleRequest valueAtoms) 0 = .ok bare)
    (hfull : payingWallet.paymentPlaceholder sealingSha3 (exampleRequest valueAtoms)
      dustRelayValueAtoms = .ok full)
    (hfits : ensureStandardTransactionSize full = .ok ()) :
    payingWallet.PlainRequest sealingSha3 (exampleRequest valueAtoms) valueAtoms bare full where
  feeOnTop := rfl
  inputs := List.cons_ne_nil _ _
  owned := by
    intro utxo hutxo
    obtain rfl := List.mem_singleton.mp hutxo
    exact ⟨payingLock.length_toList, payingLock_owned⟩
  change := ⟨_, rfl, Wallet.deriveAddress_network _ _ _⟩
  amount := by
    change dustRelayValueAtoms ≤ 1000
    decide
  total := by
    have hadd : (0 : UInt64).checkedAdd valueAtoms = some valueAtoms := by
      rw [UInt64.checkedAdd_eq_some]
      simp
    simp [exampleRequest, UInt64.checkedSum, hadd]
  withoutChange := hbare
  withChange := hfull
  fits := hfits

theorem exampleRequest_placeholders {valueAtoms : UInt64}
    (hrun : (payingWallet.paymentPlaceholder sealingSha3 (exampleRequest valueAtoms) 0).toOption.map
      (minimumRequiredFeeAtoms payingWallet.network) = some 550)
    (hfits : ((payingWallet.paymentPlaceholder sealingSha3 (exampleRequest valueAtoms)
      dustRelayValueAtoms).toOption.map ensureStandardTransactionSize) = some (.ok ())) :
    ∃ bare full, payingWallet.PlainRequest sealingSha3 (exampleRequest valueAtoms) valueAtoms
      bare full ∧ (minimumRequiredFeeAtoms payingWallet.network bare).toNat = 550 := by
  obtain ⟨bare, hbare, hfee⟩ := Option.map_eq_some_iff.mp hrun
  obtain ⟨full, hfull, hsize⟩ := Option.map_eq_some_iff.mp hfits
  refine ⟨bare, full, exampleRequest_plain (toOption_eq_some.mp hbare)
    (toOption_eq_some.mp hfull) hsize, ?_⟩
  exact congrArg UInt64.toNat hfee

theorem example_payment_built :
    ∃ built, payingWallet.buildSignedPaymentTransaction sealingSha3 (exampleRequest 5000) 5444 =
        .ok (some built) ∧
      minimumRequiredFeeAtoms payingWallet.network built.transaction ≤ built.feeAtoms := by
  obtain ⟨bare, full, hplain, hfee⟩ := @exampleRequest_placeholders 5000 (by decide +kernel)
    (by decide +kernel)
  have hfull : minimumRequiredFeeAtoms payingWallet.network full = 594 :=
    UInt64.toNat_inj.mp (hplain.fees.1.trans (by rw [hfee]; decide))
  refine (affordable_payment_built_iff sealingSha3 payingWallet (exampleRequest 5000) 5444 5000
    bare full 3450 hplain (by rw [hfee]; decide)).mpr (.inr ⟨by decide, ?_⟩)
  rw [hfull]
  decide +kernel

/-- With 120 atoms left, a change output is above dust without its cost and dust with it; with
10 left, the second round has already given up. -/
theorem affordable_payments_refused :
    (∃ bare full, payingWallet.PlainRequest sealingSha3 (exampleRequest 1670) 1670 bare full ∧
      1000 + (minimumRequiredFeeAtoms payingWallet.network bare).toNat ≤ 1670 ∧
      payingWallet.buildSignedPaymentTransaction sealingSha3 (exampleRequest 1670) 0 =
        .error .feeLoopDidNotConverge) ∧
    ∃ bare full, payingWallet.PlainRequest sealingSha3 (exampleRequest 1560) 1560 bare full ∧
      1000 + (minimumRequiredFeeAtoms payingWallet.network bare).toNat ≤ 1560 ∧
      payingWallet.buildSignedPaymentTransaction sealingSha3 (exampleRequest 1560) 0 =
        .error .insufficientFunds := by
  obtain ⟨bare, full, hplain, hfee⟩ := @exampleRequest_placeholders 1670 (by decide +kernel)
    (by decide +kernel)
  obtain ⟨bare', full', hplain', hfee'⟩ := @exampleRequest_placeholders 1560 (by decide +kernel)
    (by decide +kernel)
  refine ⟨⟨bare, full, hplain, by rw [hfee]; decide, ?_⟩,
    bare', full', hplain', by rw [hfee']; decide, ?_⟩
  · rw [@Wallet.PlainRequest.buildSignedPaymentTransaction_eq _ _ _ _ _ _ _ hplain 120
      (by rw [hfee]; decide)]
    rfl
  · rw [@Wallet.PlainRequest.buildSignedPaymentTransaction_eq _ _ _ _ _ _ _ hplain' 10
      (by rw [hfee']; decide)]
    rfl

end Atho
