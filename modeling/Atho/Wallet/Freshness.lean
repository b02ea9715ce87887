import Atho.Wallet.Datafile

/-! Every address that a wallet hands out is a new one, across restarts. -/

namespace Atho

def pathAt (kind : AddressKind) (index : Nat) : DerivationPath :=
  ⟨0, kind, UInt32.ofNat index⟩

/-- The paths of so many consecutive indexes. -/
def pathsFrom (kind : AddressKind) (start count : Nat) : List DerivationPath :=
  (List.range' start count).map (pathAt kind)

def HdWallet.nextIndex (wallet : HdWallet) : AddressKind → UInt32
  | .receive => wallet.nextReceiveIndex
  | .change => wallet.nextChangeIndex

def Keypool.queue (pool : Keypool) : AddressKind → List DerivationPath
  | .receive => pool.receive
  | .change => pool.change

theorem pathAt_injOn {kind : AddressKind} {left right : Nat} (hleft : left < 2 ^ 32)
    (hright : right < 2 ^ 32) (heq : pathAt kind left = pathAt kind right) : left = right := by
  have hindex : (UInt32.ofNat left).toNat = (UInt32.ofNat right).toNat :=
    congrArg (fun path : DerivationPath => path.index.toNat) heq
  rwa [UInt32.toNat_ofNat', UInt32.toNat_ofNat', Nat.mod_eq_of_lt hleft,
    Nat.mod_eq_of_lt hright] at hindex

theorem pathsFrom_succ (kind : AddressKind) (start count : Nat) :
    pathsFrom kind start (count + 1) = pathAt kind start :: pathsFrom kind (start + 1) count := by
  rw [pathsFrom, List.range'_succ, List.map_cons, pathsFrom]

theorem pathsFrom_append (kind : AddressKind) (start first second : Nat) :
    pathsFrom kind start first ++ pathsFrom kind (start + first) second =
      pathsFrom kind start (first + second) := by
  rw [pathsFrom, pathsFrom, pathsFrom, ← List.map_append, List.range'_append_1]

@[simp] theorem length_pathsFrom (kind : AddressKind) (start count : Nat) :
    (pathsFrom kind start count).length = count := by
  simp [pathsFrom]

theorem saturatingSucc_ofNat {index : Nat} (hbound : index + 1 < 2 ^ 32) :
    saturatingSucc (UInt32.ofNat index) = UInt32.ofNat (index + 1) := by
  rw [saturatingSucc, UInt32.toNat_ofNat', Nat.mod_eq_of_lt (by omega), Nat.min_eq_left (by omega)]

section

variable {kind : AddressKind} {wallet : HdWallet} {index : Nat}

theorem HdWallet.nextPath_fst (hnext : wallet.nextIndex kind = UInt32.ofNat index) :
    (wallet.nextPath kind).1 = pathAt kind index := by
  cases kind <;> exact congrArg (DerivationPath.mk 0 _) hnext

theorem HdWallet.nextPath_nextIndex (hnext : wallet.nextIndex kind = UInt32.ofNat index)
    (hbound : index + 1 < 2 ^ 32) :
    (wallet.nextPath kind).2.nextIndex kind = UInt32.ofNat (index + 1) := by
  rw [← saturatingSucc_ofNat hbound, ← hnext]
  cases kind <;> rfl

theorem HdWallet.nextPath_nextIndex_of_ne {other : AddressKind} (hne : other ≠ kind) :
    (wallet.nextPath kind).2.nextIndex other = wallet.nextIndex other := by
  cases kind <;> cases other <;> first | rfl | exact absurd rfl hne

theorem reserve_queue {count : Nat} {queue : List DerivationPath}
    (hnext : wallet.nextIndex kind = UInt32.ofNat index) (hbound : index + count < 2 ^ 32) :
    (reserve kind count queue wallet).1 = queue ++ pathsFrom kind index count ∧
      (reserve kind count queue wallet).2.nextIndex kind = UInt32.ofNat (index + count) := by
  induction count generalizing queue wallet index with
  | zero => exact ⟨by simp [reserve, pathsFrom], hnext⟩
  | succ count ih =>
      have hrest := @ih (wallet.nextPath kind).2 (index + 1) (queue ++ [(wallet.nextPath kind).1])
        (HdWallet.nextPath_nextIndex hnext (by omega)) (by omega)
      rw [reserve, hrest.1, hrest.2, HdWallet.nextPath_fst hnext, List.append_assoc]
      have hcons : [pathAt kind index] = pathsFrom kind index 1 := rfl
      rw [hcons, pathsFrom_append]
      exact ⟨by rw [Nat.add_comm 1], by rw [Nat.add_right_comm, Nat.add_assoc]⟩

theorem reserve_nextIndex_of_ne {other : AddressKind} (hne : other ≠ kind) (count : Nat)
    (queue : List DerivationPath) :
    (reserve kind count queue wallet).2.nextIndex other = wallet.nextIndex other := by
  induction count generalizing queue wallet with
  | zero => rfl
  | succ count ih =>
      rw [reserve, ih]
      exact HdWallet.nextPath_nextIndex_of_ne hne

end

namespace Wallet

/-- So many addresses of the kind have been handed out: the queue holds the following ones, up
to the next index. -/
structure Stocked (wallet : Wallet) (kind : AddressKind) (taken : Nat) : Prop where
  queue : wallet.keypool.queue kind = pathsFrom kind taken keypoolTargetSize
  next : wallet.hdWallet.nextIndex kind = UInt32.ofNat (taken + keypoolTargetSize)

theorem refillKeypool_queue (wallet : Wallet) (kind : AddressKind) :
    ∃ hdWallet : HdWallet, hdWallet.nextIndex kind = wallet.hdWallet.nextIndex kind ∧
      wallet.refillKeypool.keypool.queue kind =
        (reserve kind (keypoolTargetSize - (wallet.keypool.queue kind).length)
          (wallet.keypool.queue kind) hdWallet).1 ∧
      wallet.refillKeypool.hdWallet.nextIndex kind =
        (reserve kind (keypoolTargetSize - (wallet.keypool.queue kind).length)
          (wallet.keypool.queue kind) hdWallet).2.nextIndex kind := by
  have hkinds : AddressKind.receive ≠ .change := nofun
  cases kind with
  | receive => exact ⟨wallet.hdWallet, rfl, rfl, reserve_nextIndex_of_ne hkinds _ _⟩
  | change =>
      exact ⟨(reserve .receive (keypoolTargetSize - wallet.keypool.receive.length)
        wallet.keypool.receive wallet.hdWallet).2, reserve_nextIndex_of_ne hkinds.symm _ _, rfl, rfl⟩

theorem stocked_refillKeypool {wallet : Wallet} {kind : AddressKind} {taken held : Nat}
    (hqueue : wallet.keypool.queue kind = pathsFrom kind taken held)
    (hnext : wallet.hdWallet.nextIndex kind = UInt32.ofNat (taken + held))
    (hheld : held ≤ keypoolTargetSize) (hbound : taken + keypoolTargetSize < 2 ^ 32) :
    wallet.refillKeypool.Stocked kind taken := by
  have hroom : taken + held + (keypoolTargetSize - held) = taken + keypoolTargetSize := by omega
  have hfill : held + (keypoolTargetSize - held) = keypoolTargetSize := by omega
  obtain ⟨hdWallet, hsame, hfilled, hindex⟩ := wallet.refillKeypool_queue kind
  rw [hqueue, length_pathsFrom] at hfilled hindex
  obtain ⟨hreserved, hreservedNext⟩ := @reserve_queue kind hdWallet (taken + held)
    (keypoolTargetSize - held) (pathsFrom kind taken held) (hsame.trans hnext) (by omega)
  refine ⟨?_, ?_⟩
  · rw [hfilled, hreserved, pathsFrom_append, hfill]
  · rw [hindex, hreservedNext, hroom]

theorem Stocked.full {wallet : Wallet} {received changed : Nat}
    (hreceive : wallet.Stocked .receive received) (hchange : wallet.Stocked .change changed) :
    wallet.keypool.Full where
  receive := (congrArg List.length hreceive.queue).trans (length_pathsFrom ..)
  change := (congrArg List.length hchange.queue).trans (length_pathsFrom ..)

/-! The steps. -/

theorem stocked_fresh {wallet : Wallet} {seed : Bytes 32} (hpool : wallet.keypool = {})
    (hindex : wallet.hdWallet = .new seed) (kind : AddressKind) :
    wallet.refillKeypool.Stocked kind 0 := by
  refine @stocked_refillKeypool wallet kind 0 0 ?_ ?_ (Nat.zero_le _) (by decide)
  · rw [hpool]
    cases kind <;> rfl
  · rw [hindex]
    cases kind <;> rfl

section

variable {wallet : Wallet} {kind : AddressKind} {taken : Nat}

theorem Stocked.take_fst (hstocked : wallet.Stocked kind taken) :
    (wallet.keypool.take kind).1 = some (pathAt kind taken) := by
  have hqueue : (wallet.keypool.queue kind).head? = some (pathAt kind taken) := by
    rw [hstocked.queue]
    rfl
  cases kind <;> exact hqueue

theorem Stocked.checkout_fst (hstocked : wallet.Stocked kind taken) (label : Option String) :
    (wallet.checkout kind label).1 = pathAt kind taken := by
  simp only [Wallet.checkout, hstocked.take_fst]

theorem Stocked.checkout_snd (hstocked : wallet.Stocked kind taken) (label : Option String) :
    (wallet.checkout kind label).2 =
      { refillKeypool
          { wallet with
            keypool := (wallet.keypool.take kind).2
            addressBook := wallet.addressBook ++ [⟨wallet.network, pathAt kind taken, label⟩] } with
        snapshot := wallet.snapshot.record kind } := by
  simp only [Wallet.checkout, hstocked.take_fst]

theorem Stocked.checkout (hstocked : wallet.Stocked kind taken) (label : Option String)
    (hbound : taken + 1 + keypoolTargetSize < 2 ^ 32) :
    (wallet.checkout kind label).2.Stocked kind (taken + 1) := by
  have htail : (wallet.keypool.take kind).2.queue kind = (wallet.keypool.queue kind).tail := by
    cases kind <;> rfl
  have hrefilled := @stocked_refillKeypool
    { wallet with
      keypool := (wallet.keypool.take kind).2
      addressBook := wallet.addressBook ++ [⟨wallet.network, pathAt kind taken, label⟩] }
    kind (taken + 1) (keypoolTargetSize - 1)
    (htail.trans (congrArg List.tail (hstocked.queue.trans (pathsFrom_succ kind taken 1023))))
    (hstocked.next.trans (congrArg UInt32.ofNat (by simp only [keypoolTargetSize])))
    (Nat.sub_le _ _) hbound
  rw [hstocked.checkout_snd]
  exact ⟨hrefilled.queue, hrefilled.next⟩

theorem Stocked.checkout_of_ne {other : AddressKind} {given : Nat}
    (hstocked : wallet.Stocked kind taken) (hother : wallet.Stocked other given)
    (hne : other ≠ kind) (hbound : given + keypoolTargetSize < 2 ^ 32) (label : Option String) :
    (wallet.checkout kind label).2.Stocked other given := by
  have hkept : (wallet.keypool.take kind).2.queue other = wallet.keypool.queue other := by
    cases kind <;> cases other <;> first | rfl | exact absurd rfl hne
  have hrefilled := @stocked_refillKeypool
    { wallet with
      keypool := (wallet.keypool.take kind).2
      addressBook := wallet.addressBook ++ [⟨wallet.network, pathAt kind taken, label⟩] }
    other given keypoolTargetSize (hkept.trans hother.queue) hother.next (Nat.le_refl _) hbound
  rw [hstocked.checkout_snd]
  exact ⟨hrefilled.queue, hrefilled.next⟩

end

/-! Whole runs. -/

inductive Action where
  | checkout (kind : AddressKind) (label : Option String)
  | restart (network : Network) (mnemonic : Option MnemonicPhrase)

/-- The paths handed out so far and the wallet. -/
abbrev Session := List DerivationPath × Wallet

def act (session : Session) : Action → Session
  | .checkout kind label =>
      (session.1 ++ [(session.2.checkout kind label).1], (session.2.checkout kind label).2)
  | .restart network mnemonic => (session.1, fromState network mnemonic session.2.captureState)

def sessionOf (wallet : Wallet) (actions : List Action) : Session :=
  actions.foldl act ([], wallet)

/-- A wallet as the constructors return it. -/
inductive Fresh (crypto : Crypto) (rootSeed : MnemonicPhrase → String → List UInt8) :
    Wallet → Prop where
  | fromSeed (seed : Bytes 32) (network : Network) : Fresh crypto rootSeed (fromSeed seed network)
  | fromMnemonic (mnemonic : MnemonicPhrase) (passphrase : String) (network : Network) :
      Fresh crypto rootSeed (fromMnemonic crypto rootSeed mnemonic passphrase network)

/-- How many addresses of the kind are taken. -/
def takenCount (kind : AddressKind) (actions : List Action) : Nat :=
  actions.countP fun action => match action with
    | .checkout taken _ => taken = kind
    | .restart _ _ => false

/-- Where a session stands: what has been handed out, recorded and queued. -/
structure Orderly (session : Session) (taken : AddressKind → Nat) : Prop where
  stocked : ∀ kind, session.2.Stocked kind (taken kind)
  returned : ∀ path ∈ session.1, ∃ kind, ∃ index < taken kind, path = pathAt kind index
  nodup : session.1.Nodup
  recorded : session.2.addressBook.map AddressRecord.path = session.1

theorem Fresh.orderly {crypto : Crypto} {rootSeed : MnemonicPhrase → String → List UInt8}
    {wallet : Wallet} (hfresh : Fresh crypto rootSeed wallet) : Orderly ([], wallet) fun _ => 0 := by
  refine ⟨fun kind => ?_, by simp, List.nodup_nil, ?_⟩
  · cases hfresh with
    | fromSeed seed network =>
        dsimp only
        rw [Wallet.fromSeed]
        apply stocked_fresh <;> rfl
    | fromMnemonic mnemonic passphrase network =>
        dsimp only
        rw [Wallet.fromMnemonic]
        apply stocked_fresh <;> rfl
  · cases hfresh with
    | fromSeed seed network => simp [Wallet.fromSeed]
    | fromMnemonic mnemonic passphrase network => simp [Wallet.fromMnemonic]

variable {session : Session} {taken : AddressKind → Nat}

theorem Orderly.checkout (horderly : Orderly session taken) (kind : AddressKind)
    (label : Option String)
    (hbound : ∀ other, Function.update taken kind (taken kind + 1) other + keypoolTargetSize < 2 ^ 32) :
    Orderly (act session (.checkout kind label)) (Function.update taken kind (taken kind + 1)) := by
  have hstocked := horderly.stocked kind
  have hmine := hbound kind
  rw [Function.update_self] at hmine
  refine ⟨fun other => ?_, ?_, ?_, ?_⟩
  · by_cases hother : other = kind
    · subst hother
      rw [Function.update_self]
      exact hstocked.checkout label hmine
    · have hroom := hbound other
      rw [Function.update_of_ne hother] at hroom ⊢
      exact hstocked.checkout_of_ne (horderly.stocked other) hother hroom label
  · intro path hpath
    rcases List.mem_append.mp hpath with hold | hnew
    · obtain ⟨other, index, hindex, rfl⟩ := horderly.returned path hold
      refine ⟨other, index, ?_, rfl⟩
      by_cases hother : other = kind
      · subst hother
        rw [Function.update_self]
        omega
      · rwa [Function.update_of_ne hother]
    · rw [List.mem_singleton.mp hnew, hstocked.checkout_fst]
      exact ⟨kind, taken kind, by rw [Function.update_self]; omega, rfl⟩
  · refine List.nodup_append.mpr ⟨horderly.nodup, List.nodup_singleton _, ?_⟩
    -- Everything handed out before has a lower index or another kind.
    intro path hpath last hlast heq
    rw [List.mem_singleton.mp hlast, hstocked.checkout_fst] at heq
    obtain ⟨other, index, hindex, rfl⟩ := horderly.returned path hpath
    have hkind : other = kind := congrArg DerivationPath.kind heq
    subst hkind
    have hsame := pathAt_injOn (by omega) (by omega) heq
    omega
  · rw [act, hstocked.checkout_snd, hstocked.checkout_fst, ← horderly.recorded]
    simp

theorem Orderly.restart (horderly : Orderly session taken) (network : Network)
    (mnemonic : Option MnemonicPhrase) : Orderly (act session (.restart network mnemonic)) taken := by
  have hfull := (horderly.stocked .receive).full (horderly.stocked .change)
  have hsame : fromState network mnemonic session.2.captureState =
      { session.2 with
        network := network
        mnemonic := mnemonic.or session.2.mnemonic
        restoreGapLimit := session.2.restoreGapLimit % 2 ^ 32 } := by
    rw [fromState]
    exact refillKeypool_eq ⟨hfull.receive, hfull.change⟩
  rw [act, hsame]
  exact ⟨fun kind => ⟨(horderly.stocked kind).queue, (horderly.stocked kind).next⟩,
    horderly.returned, horderly.nodup, horderly.recorded⟩

theorem takenCount_checkout (taken : AddressKind → Nat) (kind other : AddressKind)
    (label : Option String) (actions : List Action) :
    Function.update taken kind (taken kind + 1) other + takenCount other actions =
      taken other + takenCount other (.checkout kind label :: actions) := by
  unfold takenCount
  by_cases hother : other = kind
  · subst hother
    rw [Function.update_self, List.countP_cons_of_pos (by simp)]
    omega
  · rw [Function.update_of_ne hother, List.countP_cons_of_neg (by simpa using Ne.symm hother)]

theorem Orderly.run (horderly : Orderly session taken) (actions : List Action)
    (hbound : ∀ kind, taken kind + takenCount kind actions + keypoolTargetSize < 2 ^ 32) :
    Orderly (actions.foldl act session) fun kind => taken kind + takenCount kind actions := by
  induction actions generalizing session taken with
  | nil => exact horderly
  | cons action actions ih =>
      cases action with
      | checkout kind label =>
          simp only [← takenCount_checkout taken kind] at hbound ⊢
          refine ih (horderly.checkout kind label fun other => ?_) hbound
          exact Nat.lt_of_le_of_lt (Nat.add_le_add_right (Nat.le_add_right _ _) _) (hbound other)
      | restart network mnemonic => exact ih (horderly.restart network mnemonic) hbound

/-- No path is handed out twice, every one is in the address book, and the queues hold exactly
the consecutive indexes up to the next one. -/
theorem addresses_fresh (crypto : Crypto) (rootSeed : MnemonicPhrase → String → List UInt8)
    (wallet : Wallet) (actions : List Action) (hfresh : Fresh crypto rootSeed wallet)
    (hbound : ∀ kind, takenCount kind actions < 2 ^ 32 - keypoolTargetSize) :
    (sessionOf wallet actions).1.Nodup ∧
      (∀ path ∈ (sessionOf wallet actions).1,
        ∃ record ∈ (sessionOf wallet actions).2.addressBook, record.path = path) ∧
      ∀ kind, (sessionOf wallet actions).2.keypool.queue kind =
          pathsFrom kind (takenCount kind actions) keypoolTargetSize ∧
        ((sessionOf wallet actions).2.hdWallet.nextIndex kind).toNat =
          takenCount kind actions + keypoolTargetSize := by
  have horderly : Orderly (sessionOf wallet actions) fun kind => 0 + takenCount kind actions :=
    hfresh.orderly.run actions fun kind => by
      have := hbound kind
      omega
  simp only [Nat.zero_add] at horderly
  refine ⟨horderly.nodup, fun path hpath => ?_, fun kind => ⟨(horderly.stocked kind).queue, ?_⟩⟩
  · rw [← horderly.recorded] at hpath
    exact List.mem_map.mp hpath
  · have := hbound kind
    rw [(horderly.stocked kind).next, UInt32.toNat_ofNat']
    exact Nat.mod_eq_of_lt (by omega)

theorem addresses_fresh_across_restart :
    ∃ session : Session, session = sessionOf (.fromSeed (.zero 32) .testnet)
        [.checkout .receive none, .restart .testnet none, .checkout .receive (some "shop"),
          .checkout .change none] ∧
      session.1.Nodup ∧
      (∀ path ∈ session.1, ∃ record ∈ session.2.addressBook, record.path = path) ∧
      session.2.keypool.queue .receive = pathsFrom .receive 2 keypoolTargetSize := by
  obtain ⟨hnodup, hrecorded, hqueues⟩ := addresses_fresh .hashing (fun _ _ => [])
    (.fromSeed (.zero 32) .testnet) [.checkout .receive none, .restart .testnet none,
      .checkout .receive (some "shop"), .checkout .change none] (.fromSeed _ _)
    (by intro kind; cases kind <;> decide)
  exact ⟨_, rfl, hnodup, hrecorded, (hqueues .receive).1⟩

end Wallet

end Atho
