import Atho.Core.TransactionCodec
import Atho.Storage.Acceptance
import Atho.Wallet.Spend

/-! The groups a wallet signs for divide the inputs by owner, and the witness made from them
is one that the checks accept. -/

namespace Atho

/-! Owners. -/

namespace Wallet

variable {crypto : WalletCrypto} {wallet : Wallet}

theorem ownerOf_eq_some {script : List UInt8} {address : WalletAddress}
    (howner : wallet.ownerOf crypto script = some address) :
    address.paymentDigest.toList = script ∧
      address = wallet.deriveAddress crypto address.path := by
  rw [ownerOf, Option.or_eq_some_iff] at howner
  rcases howner with hknown | ⟨-, hfound⟩
  · refine ⟨by simpa using List.find?_some hknown, ?_⟩
    have hmem := List.mem_of_find?_eq_some hknown
    rw [List.mem_reverse] at hmem
    obtain ⟨record, -, rfl⟩ := List.mem_map.mp hmem
    rfl
  · rw [discoveredAddressForPaymentDigest] at hfound
    split at hfound
    · cases hfound
    · obtain ⟨index, -, hindex⟩ := List.exists_of_findSome?_eq_some hfound
      obtain ⟨kind, -, hkind⟩ := List.exists_of_findSome?_eq_some hindex
      rw [Option.ite_none_right_eq_some] at hkind
      obtain ⟨hdigest, hsome⟩ := hkind
      cases hsome
      exact ⟨hdigest, rfl⟩

end Wallet

/-! Grouping. -/

/-- The groups divide the inputs among the wallet's addresses, in the order of their first
inputs. -/
structure GroupedInputs (crypto : WalletCrypto) (wallet : Wallet) (utxos : List WalletSpendUtxo)
    (groups : List WalletSignerInputGroup) : Prop where
  covers : ((groups.flatMap WalletSignerInputGroup.inputIndexes).map UInt32.toNat).Perm
    (List.range utxos.length)
  nonempty : ∀ group ∈ groups, group.inputIndexes ≠ []
  ascending : ∀ group ∈ groups, group.inputIndexes.Pairwise (· < ·)
  ordered : groups.Pairwise fun left right => left.firstIndex < right.firstIndex
  derived : ∀ group ∈ groups, group.address = wallet.deriveAddress crypto group.address.path
  locks : ∀ group ∈ groups, ∀ index ∈ group.inputIndexes, ∀ utxo,
    utxos[index.toNat]? = some utxo →
      utxo.lockingScript = group.address.paymentDigest.toList

theorem WalletSignerInputGroup.firstIndex_mem {group : WalletSignerInputGroup}
    (hne : group.inputIndexes ≠ []) : group.firstIndex ∈ group.inputIndexes := by
  obtain ⟨first, rest, hindexes⟩ := List.exists_cons_of_ne_nil hne
  simp [firstIndex, hindexes]

theorem nodup_map_of_mem {α β : Type} {pick : α → β} {list : α → List β} {items : List α}
    (hnodup : (items.flatMap list).Nodup) (hpick : ∀ item ∈ items, pick item ∈ list item) :
    (items.map pick).Nodup := by
  refine List.pairwise_map.mpr ((List.nodup_flatMap.mp hnodup).2.imp_of_mem ?_)
  intro left right hleft hright hapart heq
  exact hapart (hpick left hleft) (heq ▸ hpick right hright)

instance : Std.Total fun left right : WalletSignerInputGroup =>
    left.firstIndex ≤ right.firstIndex :=
  ⟨fun _ _ => UInt32.le_total _ _⟩

instance : IsTrans WalletSignerInputGroup fun left right => left.firstIndex ≤ right.firstIndex :=
  ⟨fun _ _ _ => UInt32.le_trans⟩

theorem toNat_ofNat_positions {positions : List Nat} {count : Nat}
    (hbound : ∀ position ∈ positions, position < count) (hcount : count ≤ 2 ^ 32) :
    (positions.map UInt32.ofNat).map UInt32.toNat = positions := by
  rw [List.map_map]
  refine (List.map_congr_left fun position hposition => ?_).trans (List.map_id _)
  exact UInt32.toNat_ofNat_of_lt' (lt_of_lt_of_le (hbound position hposition) hcount)

/-- What one group holds, whatever the order of the groups: the inputs locked to its address. -/
structure OwnInputs (crypto : WalletCrypto) (wallet : Wallet) (scripts : List (List UInt8))
    (group : WalletSignerInputGroup) : Prop where
  owner : wallet.ownerOf crypto group.address.paymentDigest.toList = some group.address
  inputIndexes : group.inputIndexes.map UInt32.toNat =
    positionsOf scripts group.address.paymentDigest.toList
  nonempty : group.inputIndexes ≠ []

theorem groupedInputs_of_ok {crypto : WalletCrypto} {wallet : Wallet}
    {utxos : List WalletSpendUtxo} {groups : List WalletSignerInputGroup}
    (hlength : utxos.length ≤ 2 ^ 32)
    (hgroups : wallet.signerInputGroups crypto utxos = .ok groups) :
    GroupedInputs crypto wallet utxos groups := by
  simp only [Wallet.signerInputGroups, bind_eq_ok, rejectWhen_eq_ok, pure_eq_ok, mapM_eq_ok,
    okOr_eq_ok] at hgroups
  obtain ⟨-, -, raw, hraw, rfl⟩ := hgroups
  set scripts := utxos.map WalletSpendUtxo.lockingScript with hscripts
  have hround : ∀ script, ((positionsOf scripts script).map UInt32.ofNat).map UInt32.toNat =
      positionsOf scripts script := by
    intro script
    refine toNat_ofNat_positions (fun position hposition => ?_) hlength
    have hfound := (List.getElem?_eq_some_iff.mp (mem_positionsOf.mp hposition)).1
    rwa [List.length_map] at hfound
  have hown : ∀ group ∈ raw, OwnInputs crypto wallet scripts group := by
    intro group hgroup
    obtain ⟨⟨script, positions⟩, hmem, address, howner, rfl⟩ :=
      exists_of_mem_forall₂ hraw hgroup
    obtain ⟨hne, rfl⟩ := mem_toList_groupPositions.mp hmem
    obtain ⟨rfl, -⟩ := Wallet.ownerOf_eq_some howner
    exact ⟨howner, hround _, by simpa using hne⟩
  have hcovers : ((raw.flatMap WalletSignerInputGroup.inputIndexes).map UInt32.toNat).Perm
      (List.range utxos.length) := by
    have hsame : (groupPositions scripts).toList.flatMap Prod.snd =
        raw.flatMap fun group => group.inputIndexes.map UInt32.toNat := by
      refine flatMap_eq_of_forall₂ hraw ?_
      rintro ⟨script, positions⟩ hmem _ ⟨address, -, rfl⟩
      obtain ⟨-, rfl⟩ := mem_toList_groupPositions.mp hmem
      exact (hround script).symm
    have hperm := groupPositions_perm scripts
    rwa [hsame, List.length_map, ← List.map_flatMap] at hperm
  have hsorted := List.perm_insertionSort
    (fun left right : WalletSignerInputGroup => left.firstIndex ≤ right.firstIndex) raw
  have hfirsts : (raw.map WalletSignerInputGroup.firstIndex).Nodup := by
    have hnodup := hcovers.nodup_iff.mpr List.nodup_range
    exact nodup_map_of_mem hnodup.of_map fun group hgroup =>
      WalletSignerInputGroup.firstIndex_mem (hown group hgroup).nonempty
  have hown : ∀ group ∈ raw.insertionSort fun left right => left.firstIndex ≤ right.firstIndex,
      OwnInputs crypto wallet scripts group := fun group hgroup =>
    hown group (hsorted.mem_iff.mp hgroup)
  refine ⟨?_, fun group hgroup => (hown group hgroup).nonempty, ?_, ?_, ?_, ?_⟩
  · exact ((hsorted.flatMap_right _).map _).trans hcovers
  · intro group hgroup
    have hpositions := pairwise_positionsOf scripts group.address.paymentDigest.toList
    rw [← (hown group hgroup).inputIndexes, List.pairwise_map] at hpositions
    exact hpositions.imp UInt32.lt_iff_toNat_lt.mpr
  · refine (pairwise_insertionSort_of_nodup hfirsts).imp fun hordered => ?_
    exact UInt32.lt_of_le_of_ne hordered.1 hordered.2
  · intro group hgroup
    exact (Wallet.ownerOf_eq_some (hown group hgroup).owner).2
  · intro group hgroup index hindex utxo hutxo
    have hposition : index.toNat ∈ positionsOf scripts group.address.paymentDigest.toList := by
      rw [← (hown group hgroup).inputIndexes]
      exact List.mem_map_of_mem hindex
    rw [mem_positionsOf, hscripts, List.getElem?_map, hutxo] at hposition
    exact Option.some.inj hposition

theorem exists_signerInputGroups {crypto : WalletCrypto} {wallet : Wallet}
    {utxos : List WalletSpendUtxo}
    (howned : ∀ utxo ∈ utxos, utxo.lockingScript.length = 32 ∧
      (wallet.ownerOf crypto utxo.lockingScript).isSome = true) :
    ∃ groups, wallet.signerInputGroups crypto utxos = .ok groups := by
  have hcanonical : (utxos.any fun utxo =>
      (paymentDigestFromLockingScript utxo.lockingScript).isNone) = false := by
    refine List.any_eq_false.mpr fun utxo hutxo => ?_
    simp [paymentDigestFromLockingScript, (howned utxo hutxo).1]
  obtain ⟨raw, hraw⟩ := @exists_mapM_ok _ WalletSpendBuildError _
    (fun (group : List UInt8 × List Nat) => do
      let address ← okOr (wallet.ownerOf crypto group.1)
        WalletSpendBuildError.inputOwnershipMismatch
      pure (⟨address, group.2.map UInt32.ofNat⟩ : WalletSignerInputGroup))
    (groupPositions (utxos.map WalletSpendUtxo.lockingScript)).toList (by
      rintro ⟨script, positions⟩ hgroup
      obtain ⟨hne, rfl⟩ := mem_toList_groupPositions.mp hgroup
      obtain ⟨position, hposition⟩ := List.exists_mem_of_ne_nil _ hne
      rw [mem_positionsOf, List.getElem?_map, Option.map_eq_some_iff] at hposition
      obtain ⟨utxo, hutxo, rfl⟩ := hposition
      obtain ⟨address, haddress⟩ := Option.isSome_iff_exists.mp
        (howned utxo (List.mem_of_getElem? hutxo)).2
      exact ⟨_, by rw [haddress]; rfl⟩)
  refine ⟨raw.insertionSort fun left right => left.firstIndex ≤ right.firstIndex, ?_⟩
  rw [Wallet.signerInputGroups, hcanonical, bind_eq_ok]
  refine ⟨(), rfl, ?_⟩
  rw [bind_eq_ok]
  exact ⟨raw, hraw, rfl⟩

theorem length_groups_le {crypto : WalletCrypto} {wallet : Wallet} {utxos : List WalletSpendUtxo}
    {groups : List WalletSignerInputGroup} {locks : List (List UInt8)}
    (hlocks : ∀ utxo ∈ utxos, utxo.lockingScript ∈ locks)
    (hgroups : wallet.signerInputGroups crypto utxos = .ok groups) :
    groups.length ≤ locks.length := by
  simp only [Wallet.signerInputGroups, bind_eq_ok, rejectWhen_eq_ok, pure_eq_ok, mapM_eq_ok,
    okOr_eq_ok] at hgroups
  obtain ⟨-, -, raw, hraw, rfl⟩ := hgroups
  have hnodup : ((groupPositions (utxos.map WalletSpendUtxo.lockingScript)).toList.map
      Prod.fst).Nodup := by
    refine List.pairwise_map.mpr (Std.TreeMap.distinct_keys_toList.imp fun hne heq => hne ?_)
    exact Std.LawfulEqOrd.compare_eq_iff_eq.mpr heq
  have hsubset : ((groupPositions (utxos.map WalletSpendUtxo.lockingScript)).toList.map
      Prod.fst) ⊆ locks := by
    intro script hscript
    obtain ⟨⟨_, positions⟩, hgroup, rfl⟩ := List.mem_map.mp hscript
    obtain ⟨hne, rfl⟩ := mem_toList_groupPositions.mp hgroup
    obtain ⟨position, hposition⟩ := List.exists_mem_of_ne_nil _ hne
    rw [mem_positionsOf, List.getElem?_map, Option.map_eq_some_iff] at hposition
    obtain ⟨utxo, hutxo, rfl⟩ := hposition
    exact hlocks utxo (List.mem_of_getElem? hutxo)
  rw [List.length_insertionSort, ← hraw.length_eq]
  simpa using (hnodup.subperm hsubset).length_le

/-! Witnesses. -/

theorem TxWitness.ofGroups_eq_some {groups : List WitnessSignerGroup} {witness : TxWitness} :
    ofGroups groups = some witness ↔ groups = witness.primary :: witness.additionalSigners := by
  cases groups with
  | nil => simp [ofGroups]
  | cons primary rest =>
      simp only [ofGroups, Option.some.injEq, List.cons.injEq, TxWitness.primary]
      constructor
      · rintro rfl
        exact ⟨rfl, rfl⟩
      · rintro ⟨rfl, rfl⟩
        rfl

theorem TxWitness.totalInputRefs_eq (witness : TxWitness) :
    witness.totalInputRefs = ((witness.primary :: witness.additionalSigners).flatMap
      WitnessSignerGroup.inputIndexes).length := by
  simp [totalInputRefs, WitnessSignerGroup.inputIndexes, TxWitness.primary, List.length_flatMap]

/-- A group as the wallet signs it; what its references commit to is left open. -/
structure SignedGroup (crypto : WalletCrypto) (wallet : Wallet) (tx : Transaction)
    (input : WalletSignerInputGroup) (group : WitnessSignerGroup) : Prop where
  pubkey : group.pubkey = (wallet.keypairForPath crypto input.address.path).publicKey
  signed : crypto.sign (wallet.keypairForPath crypto input.address.path).secretKey
    (transactionSigningDigestForInputIndexes crypto.toCrypto wallet.network tx
      input.inputIndexes) = .ok group.signature
  inputIndexes : group.inputIndexes = input.inputIndexes
  short : ∀ ref ∈ group.inputRefs, ref.sigRefShort = deriveSigRefShort crypto.toCrypto
    (tx.txid crypto.toCrypto) group.signature ref.inputIndex

namespace SignedGroup

variable {crypto : WalletCrypto} {wallet : Wallet} {tx : Transaction}
  {input : WalletSignerInputGroup} {group : WitnessSignerGroup}

theorem of_signGroup (hsign : wallet.signGroup crypto tx input = .ok group) :
    SignedGroup crypto wallet tx input group := by
  rw [Wallet.signGroup] at hsign
  rcases hsigned : crypto.sign (wallet.keypairForPath crypto input.address.path).secretKey
    (transactionSigningDigestForInputIndexes crypto.toCrypto wallet.network tx
      input.inputIndexes) with message | signature
  · rw [hsigned] at hsign
    cases hsign
  · rw [hsigned] at hsign
    cases hsign
    refine ⟨rfl, hsigned, ?_, ?_⟩
    · simp [WitnessSignerGroup.inputIndexes, Function.comp_def]
    · simp only [List.forall_mem_map, implies_true]

theorem wellFormed (hsigned : SignedGroup crypto wallet tx input group)
    (hne : input.inputIndexes ≠ []) : group.WellFormed where
  signature := crypto.length_signature hsigned.signed
  pubkey := by
    rw [hsigned.pubkey]
    exact crypto.length_publicKey _
  inputRefs hnone := hne (by rw [← hsigned.inputIndexes, WitnessSignerGroup.inputIndexes, hnone,
    List.map_nil])

theorem rebind (hsigned : SignedGroup crypto wallet tx input group)
    (commit : WitnessInputRef → Bytes 16) :
    SignedGroup crypto wallet tx input { group with
      inputRefs := group.inputRefs.map fun ref => { ref with witnessCommitRef := commit ref } } where
  pubkey := hsigned.pubkey
  signed := hsigned.signed
  inputIndexes := by
    rw [← hsigned.inputIndexes]
    simp [WitnessSignerGroup.inputIndexes, Function.comp_def]
  short := by
    simpa only [List.forall_mem_map] using hsigned.short

theorem firstIndex_eq (hsigned : SignedGroup crypto wallet tx input group) :
    group.firstIndex = input.firstIndex := by
  rw [WitnessSignerGroup.firstIndex, WalletSignerInputGroup.firstIndex, ← hsigned.inputIndexes,
    WitnessSignerGroup.inputIndexes, List.head?_map]

end SignedGroup

section

variable {crypto : WalletCrypto} {wallet : Wallet} {tx : Transaction}
  {utxos : List WalletSpendUtxo} {groups : List WalletSignerInputGroup}
  {signed : List WitnessSignerGroup}

theorem GroupedInputs.insertionSort_signed (hgrouped : GroupedInputs crypto wallet utxos groups)
    (hsigned : List.Forall₂ (SignedGroup crypto wallet tx) groups signed) :
    (signed.insertionSort fun left right => left.firstIndex ≤ right.firstIndex) = signed := by
  have hordered := List.pairwise_map.mpr hgrouped.ordered
  rw [map_eq_of_forall₂ hsigned fun _ _ hgroup => hgroup.firstIndex_eq.symm] at hordered
  exact ((List.pairwise_map.mp hordered).imp UInt32.le_of_lt).insertionSort_eq

theorem flatMap_inputIndexes_signed
    (hsigned : List.Forall₂ (SignedGroup crypto wallet tx) groups signed) :
    groups.flatMap WalletSignerInputGroup.inputIndexes =
      signed.flatMap WitnessSignerGroup.inputIndexes :=
  flatMap_eq_of_forall₂ hsigned fun _ _ _ hgroup => hgroup.inputIndexes.symm

theorem coveredPositions_eq (signed : List WitnessSignerGroup) :
    coveredPositions signed =
      (signed.flatMap WitnessSignerGroup.inputIndexes).map UInt32.toNat := by
  simp [coveredPositions, inputPositions, WitnessSignerGroup.inputIndexes, List.map_flatMap,
    Function.comp_def]

theorem firstIndexes_signed (hne : ∀ group ∈ groups, group.inputIndexes ≠ [])
    (hsigned : List.Forall₂ (SignedGroup crypto wallet tx) groups signed) :
    firstIndexes signed = groups.map WalletSignerInputGroup.firstIndex := by
  induction hsigned with
  | nil => rfl
  | @cons input group groups signed hhead htail ih =>
      obtain ⟨hfirst, hrest⟩ := List.forall_mem_cons.mp hne
      obtain ⟨first, rest, hindexes⟩ := List.exists_cons_of_ne_nil hfirst
      have hown : group.inputIndexes.head? = some input.firstIndex := by
        rw [hhead.inputIndexes, WalletSignerInputGroup.firstIndex, hindexes]
        rfl
      rw [firstIndexes, List.filterMap_cons, hown, List.map_cons]
      exact congrArg _ (ih hrest)

theorem GroupedInputs.length_inputIndexes (hgrouped : GroupedInputs crypto wallet utxos groups) :
    (groups.flatMap WalletSignerInputGroup.inputIndexes).length = utxos.length := by
  have hlength := hgrouped.covers.length_eq
  rwa [List.length_map, List.length_range] at hlength

theorem GroupedInputs.wellFormed (hgrouped : GroupedInputs crypto wallet utxos groups)
    (hlength : utxos.length ≤ maxWitnessInputRefs) {witness : TxWitness}
    (hsigned : List.Forall₂ (SignedGroup crypto wallet tx) groups
      (witness.primary :: witness.additionalSigners)) : witness.WellFormed := by
  have hgroups : ∀ group ∈ witness.primary :: witness.additionalSigners, group.WellFormed := by
    intro group hgroup
    obtain ⟨input, hinput, hsigned⟩ := exists_of_mem_forall₂ hsigned hgroup
    exact hsigned.wellFormed (hgrouped.nonempty input hinput)
  obtain ⟨hprimary, hadditional⟩ := List.forall_mem_cons.mp hgroups
  refine ⟨hprimary, hadditional, ?_⟩
  rw [TxWitness.totalInputRefs_eq, ← flatMap_inputIndexes_signed hsigned,
    hgrouped.length_inputIndexes]
  exact hlength

theorem forall₂_signed_rebind (commit : WitnessInputRef → Bytes 16) {witness : TxWitness}
    (hsigned : List.Forall₂ (SignedGroup crypto wallet tx) groups
      (witness.primary :: witness.additionalSigners)) :
    List.Forall₂ (SignedGroup crypto wallet tx) groups
      ((witness.mapInputRefs fun ref => { ref with witnessCommitRef := commit ref }).primary ::
        (witness.mapInputRefs fun ref =>
          { ref with witnessCommitRef := commit ref }).additionalSigners) := by
  have hmap := List.forall₂_map_right_iff.mpr (hsigned.imp fun _ _ hgroup => hgroup.rebind commit)
  exact hmap

end

/-- What the wallet builds is the transaction of the request with a witness of signed groups. -/
structure SignedSpend (crypto : WalletCrypto) (wallet : Wallet) (utxos : List WalletSpendUtxo)
    (base tx : Transaction) (groups : List WalletSignerInputGroup) (witness : TxWitness) : Prop where
  grouped : wallet.signerInputGroups crypto utxos = .ok groups
  transaction : tx = { base with witness := witness.canonicalBytes }
  payload : tx.witnessPayload = some witness
  signed : List.Forall₂ (SignedGroup crypto wallet base) groups
    (witness.primary :: witness.additionalSigners)

section

variable {crypto : WalletCrypto} {wallet : Wallet} {utxos : List WalletSpendUtxo}
  {version : UInt16} {recipientDigest : Bytes 32} {recipientAtoms : UInt64}
  {changeOutput : Option (UInt64 × List UInt8)} {lockTime : UInt32} {tx : Transaction}

theorem signedSpend_of_ok (hlength : utxos.length ≤ maxWitnessInputRefs)
    (hbuild : wallet.buildSignedSpendTransactionFromParts crypto utxos version recipientDigest
      recipientAtoms changeOutput lockTime = .ok tx) :
    ∃ groups witness, SignedSpend crypto wallet utxos
      (buildSpendTransactionFromParts utxos version recipientDigest recipientAtoms changeOutput
        lockTime) tx groups witness := by
  have hcount : utxos.length ≤ 2 ^ 32 := hlength.trans (by decide)
  simp only [Wallet.buildSignedSpendTransactionFromParts, bind_eq_ok, okOr_eq_ok,
    mapM_eq_ok] at hbuild
  obtain ⟨groups, hgroups, signed, hsigned, staged, hstaged, hbind⟩ := hbuild
  have hgrouped := groupedInputs_of_ok hcount hgroups
  have hsigned := hsigned.imp fun _ _ => SignedGroup.of_signGroup
  rw [hgrouped.insertionSort_signed hsigned, TxWitness.ofGroups_eq_some] at hstaged
  subst hstaged
  simp only [Wallet.bindWitness, bind_eq_ok, okOr_eq_ok, pure_eq_ok,
    (hgrouped.wellFormed hlength hsigned).framed.witnessPayload_canonicalBytes,
    Option.some.injEq] at hbind
  obtain ⟨_, rfl, rfl⟩ := hbind
  have hrebound := fun commit => forall₂_signed_rebind commit hsigned
  exact ⟨groups, _, hgroups, rfl,
    (hgrouped.wellFormed hlength (hrebound _)).framed.witnessPayload_canonicalBytes _, hrebound _⟩

theorem exists_buildSigned {groups : List WalletSignerInputGroup} (hne : utxos ≠ [])
    (hlength : utxos.length ≤ maxWitnessInputRefs)
    (hgroups : wallet.signerInputGroups crypto utxos = .ok groups)
    (hsign : ∀ path message, ∃ signature,
      crypto.sign (wallet.keypairForPath crypto path).secretKey message = .ok signature) :
    ∃ tx, wallet.buildSignedSpendTransactionFromParts crypto utxos version recipientDigest
      recipientAtoms changeOutput lockTime = .ok tx := by
  have hgrouped := groupedInputs_of_ok (hlength.trans (by decide)) hgroups
  have hgroup : ∀ tx, ∀ group ∈ groups, ∃ signed, wallet.signGroup crypto tx group = .ok signed := by
    intro tx group hgroup
    obtain ⟨signature, hsignature⟩ := hsign group.address.path
      (transactionSigningDigestForInputIndexes crypto.toCrypto wallet.network tx
        group.inputIndexes)
    rw [Wallet.signGroup, hsignature]
    exact ⟨_, rfl⟩
  obtain ⟨signed, hsigned⟩ := exists_mapM_ok (hgroup (buildSpendTransactionFromParts utxos
    version recipientDigest recipientAtoms changeOutput lockTime))
  have hrelated := (mapM_eq_ok.mp hsigned).imp fun _ _ => SignedGroup.of_signGroup
  obtain ⟨primary, rest, rfl⟩ : ∃ primary rest, signed = primary :: rest := by
    refine List.exists_cons_of_ne_nil fun hnone => hne (List.length_eq_zero_iff.mp ?_)
    rw [← hgrouped.length_inputIndexes, flatMap_inputIndexes_signed hrelated, hnone]
    rfl
  set staged : TxWitness := ⟨primary.signature, primary.pubkey, primary.inputRefs, rest⟩
  have hwellFormed : staged.WellFormed := hgrouped.wellFormed hlength hrelated
  obtain ⟨tx, hbind⟩ : ∃ tx, Wallet.bindWitness crypto { buildSpendTransactionFromParts utxos
      version recipientDigest recipientAtoms changeOutput lockTime with
        witness := staged.canonicalBytes } = .ok tx := by
    simp only [Wallet.bindWitness, bind_eq_ok, okOr_eq_ok, pure_eq_ok]
    exact ⟨_, staged, hwellFormed.framed.witnessPayload_canonicalBytes _, rfl⟩
  refine ⟨tx, ?_⟩
  simp only [Wallet.buildSignedSpendTransactionFromParts, bind_eq_ok, okOr_eq_ok]
  refine ⟨groups, hgroups, primary :: rest, hsigned, staged, ?_, hbind⟩
  rw [hgrouped.insertionSort_signed hrelated]
  rfl

end

end Atho
