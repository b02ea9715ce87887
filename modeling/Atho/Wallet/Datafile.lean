import Atho.Library.Serial
import Atho.Wallet.Wallet

/-! The file a wallet is kept in: header, encryption mode and persisted state. -/

namespace Atho

open Decoder

inductive WalletDatafileError where
  | encode
  | invalidHeader
  | unsupportedVersion
  | randomnessFailure
  | invalidPassword
  deriving DecidableEq

inductive WalletEncryptionMode where
  | plaintext
  | passwordAes256Gcm
  deriving DecidableEq

structure PersistedWalletState where
  walletSeed : Bytes 32
  mnemonic : Option MnemonicPhrase
  nextReceiveIndex : UInt32
  nextChangeIndex : UInt32
  restoreGapLimit : UInt32
  snapshot : WalletSnapshot
  addressBook : List AddressRecord
  receiveQueue : List DerivationPath
  changeQueue : List DerivationPath
  deriving DecidableEq

namespace Wallet

/-- The gap limit is cut to 32 bits. -/
def captureState (wallet : Wallet) : PersistedWalletState where
  walletSeed := wallet.hdWallet.seed
  mnemonic := wallet.mnemonic
  nextReceiveIndex := wallet.hdWallet.nextReceiveIndex
  nextChangeIndex := wallet.hdWallet.nextChangeIndex
  restoreGapLimit := UInt32.ofNat wallet.restoreGapLimit
  snapshot := wallet.snapshot
  addressBook := wallet.addressBook
  receiveQueue := wallet.keypool.receive
  changeQueue := wallet.keypool.change

def fromState (network : Network) (mnemonic : Option MnemonicPhrase)
    (state : PersistedWalletState) : Wallet :=
  refillKeypool
    { network := network
      mnemonic := mnemonic.or state.mnemonic
      hdWallet := ⟨state.walletSeed, state.nextReceiveIndex, state.nextChangeIndex⟩
      keypool := ⟨state.receiveQueue, state.changeQueue⟩
      addressBook := state.addressBook
      snapshot := state.snapshot
      restoreGapLimit := state.restoreGapLimit.toNat }

theorem fromState_captureState {wallet : Wallet} (hfull : wallet.keypool.Full) :
    fromState wallet.network none wallet.captureState =
      { wallet with restoreGapLimit := wallet.restoreGapLimit % 2 ^ 32 } := by
  rw [fromState]
  exact refillKeypool_eq ⟨hfull.receive, hfull.change⟩

end Wallet

/-! The file. -/

def datafileMagic : List UInt8 := ascii "ATHODF01"
def datafileVersion : UInt16 := 1
def saltBytes : Nat := 16
def nonceBytes : Nat := 12
def passwordIterations : Nat := 600000
def aadPrefix : List UInt8 := ascii "atho-wallet-datafile"
def defaultPasswordScheme : List UInt8 := ascii "atho-wallet-password-v1"

structure WalletDataFile where
  network : Network
  encryptionMode : WalletEncryptionMode
  salt : Bytes saltBytes
  nonce : Bytes nonceBytes
  ciphertext : List UInt8
  deriving DecidableEq

/-- The position of the network in its enumeration. -/
def Network.discriminant : Network → UInt8
  | .mainnet => 0
  | .testnet => 1
  | .regnet => 2
  | .prunetest => 3

def WalletEncryptionMode.discriminant : WalletEncryptionMode → UInt8
  | .plaintext => 0
  | .passwordAes256Gcm => 1

namespace WalletDataFile

/-- The reader knows three of the four networks. -/
def networkOfByte : UInt8 → Option Network
  | 0 => some .mainnet
  | 1 => some .testnet
  | 2 => some .regnet
  | _ => none

def encryptionModeOfByte : UInt8 → Option WalletEncryptionMode
  | 0 => some .plaintext
  | 1 => some .passwordAes256Gcm
  | _ => none

/-- Everything behind the magic number and the version. -/
def fieldBytes (file : WalletDataFile) : List UInt8 :=
  file.network.discriminant :: file.encryptionMode.discriminant ::
    (file.salt.toList ++ file.nonce.toList ++ lengthPrefixed file.ciphertext)

def toBytes (file : WalletDataFile) : Except WalletDatafileError (List UInt8) := do
  rejectWhen (2 ^ 32 ≤ file.ciphertext.length) .invalidHeader
  pure (datafileMagic ++ le16 datafileVersion ++ file.fieldBytes)

def readFields : Decoder WalletDataFile := do
  let networkByte ← byte
  let network ← lift (networkOfByte networkByte)
  let modeByte ← byte
  let encryptionMode ← lift (encryptionModeOfByte modeByte)
  let salt ← array saltBytes
  let nonce ← array nonceBytes
  let ciphertext ← sized
  pure ⟨network, encryptionMode, salt, nonce, ciphertext⟩

def minLength : Nat := 8 + 2 + 1 + 1 + saltBytes + nonceBytes + 4

/-- Whatever follows the payload is ignored. -/
def fromBytes (bytes : List UInt8) : Except WalletDatafileError WalletDataFile := do
  rejectWhen (bytes.length < minLength || bytes.take 8 ≠ datafileMagic) .invalidHeader
  rejectWhen (leValue ((bytes.drop 8).take 2) ≠ datafileVersion.toNat) .unsupportedVersion
  okOr ((readFields (bytes.drop 10)).map Prod.fst) .invalidHeader

end WalletDataFile

/-! Saving and loading. -/

/-- What the file relies on: serialization, key stretching and authenticated encryption,
each of which gives back what was put in. -/
structure DatafileBackend where
  serialize : PersistedWalletState → Option (List UInt8)
  deserialize : List UInt8 → Option PersistedWalletState
  pbkdf2 : (password : String) → (salt : Bytes saltBytes) → (iterations : Nat) → Bytes 32
  encrypt : (key : Bytes 32) → (nonce : Bytes nonceBytes) → (aad message : List UInt8) →
    Option (List UInt8)
  decrypt : (key : Bytes 32) → (nonce : Bytes nonceBytes) → (aad ciphertext : List UInt8) →
    Option (List UInt8)
  deserialize_serialize : ∀ {state bytes}, serialize state = some bytes →
    deserialize bytes = some state
  decrypt_encrypt : ∀ {key nonce aad message ciphertext},
    encrypt key nonce aad message = some ciphertext →
      decrypt key nonce aad ciphertext = some message

def buildAad : List UInt8 :=
  aadPrefix ++ defaultPasswordScheme ++ le16 datafileVersion

namespace WalletDataFile

variable (backend : DatafileBackend)

def encryptState (password : String) (salt : Bytes saltBytes) (nonce : Bytes nonceBytes)
    (state : PersistedWalletState) (iterations : Nat) :
    Except WalletDatafileError (List UInt8) := do
  let payload ← okOr (backend.serialize state) WalletDatafileError.encode
  okOr (backend.encrypt (backend.pbkdf2 password salt iterations) nonce buildAad payload)
    .invalidPassword

def decryptState (password : String) (salt : Bytes saltBytes) (nonce : Bytes nonceBytes)
    (ciphertext : List UInt8) (iterations : Nat) :
    Except WalletDatafileError PersistedWalletState := do
  let payload ← okOr
    (backend.decrypt (backend.pbkdf2 password salt iterations) nonce buildAad ciphertext)
    WalletDatafileError.invalidPassword
  okOr (backend.deserialize payload) .encode

/-- The file for a wallet; `salt` and `nonce` are what the random source delivers. -/
def capture (iterations : Nat) (salt : Option (Bytes saltBytes))
    (nonce : Option (Bytes nonceBytes)) (wallet : Wallet) (password : String) :
    Except WalletDatafileError WalletDataFile :=
  if password = "" then do
    let payload ← okOr (backend.serialize wallet.captureState) WalletDatafileError.encode
    pure ⟨wallet.network, .plaintext, .zero saltBytes, .zero nonceBytes, payload⟩
  else do
    let salt ← okOr salt WalletDatafileError.randomnessFailure
    let nonce ← okOr nonce WalletDatafileError.randomnessFailure
    let ciphertext ← encryptState backend password salt nonce wallet.captureState iterations
    pure ⟨wallet.network, .passwordAes256Gcm, salt, nonce, ciphertext⟩

/-- The bytes that are written to the file. -/
def saveImpl (iterations : Nat) (salt : Option (Bytes saltBytes))
    (nonce : Option (Bytes nonceBytes)) (wallet : Wallet) (password : String) :
    Except WalletDatafileError (List UInt8) := do
  let file ← capture backend iterations salt nonce wallet password
  file.toBytes

def loadImpl (iterations : Nat) (bytes : List UInt8) (password : String) :
    Except WalletDatafileError Wallet := do
  let file ← fromBytes bytes
  let state ← match file.encryptionMode with
    | .plaintext => okOr (backend.deserialize file.ciphertext) WalletDatafileError.encode
    | .passwordAes256Gcm =>
        decryptState backend password file.salt file.nonce file.ciphertext iterations
  pure (.fromState file.network none state)

def save (salt : Option (Bytes saltBytes)) (nonce : Option (Bytes nonceBytes)) (wallet : Wallet)
    (password : String) : Except WalletDatafileError (List UInt8) :=
  saveImpl backend passwordIterations salt nonce wallet password

def load (bytes : List UInt8) (password : String) : Except WalletDatafileError Wallet :=
  loadImpl backend passwordIterations bytes password

end WalletDataFile

/-! What is written is read, except for one network. -/

namespace WalletDataFile

theorem networkOfByte_discriminant (network : Network) :
    networkOfByte network.discriminant =
      if network = .prunetest then none else some network := by
  cases network <;> rfl

theorem readFields_fieldBytes {file : WalletDataFile} (hlength : file.ciphertext.length < 2 ^ 32) :
    (readFields file.fieldBytes).map Prod.fst =
      if file.network = .prunetest then none else some file := by
  have hmode : encryptionModeOfByte file.encryptionMode.discriminant =
      some file.encryptionMode := by
    cases file.encryptionMode <;> rfl
  rw [readFields, fieldBytes, bind_of_some (byte_eq_some.mpr rfl), networkOfByte_discriminant]
  split
  · rfl
  · have hcipher := @writes_sized file.ciphertext [] hlength
    rw [List.append_nil] at hcipher
    rw [bind_of_some (lift_eq_some.mpr ⟨rfl, rfl⟩), bind_of_some (byte_eq_some.mpr rfl),
      bind_of_some (lift_eq_some.mpr ⟨hmode, rfl⟩), List.append_assoc,
      bind_of_some (writes_array _ trivial), bind_of_some (writes_array _ trivial),
      bind_of_some hcipher]
    rfl

theorem fromBytes_toBytes {file : WalletDataFile} {bytes : List UInt8}
    (hbytes : file.toBytes = .ok bytes) :
    fromBytes bytes =
      if file.network = .prunetest then .error .invalidHeader else .ok file := by
  simp only [toBytes, bind_eq_ok, rejectWhen_eq_ok, pure_eq_ok, decide_eq_false_iff_not,
    not_le] at hbytes
  obtain ⟨-, hlength, rfl⟩ := hbytes
  have hmagic : datafileMagic.length = 8 := by decide
  have hlong : ¬(datafileMagic ++ le16 datafileVersion ++ file.fieldBytes).length < minLength := by
    simp [hmagic, fieldBytes, lengthPrefixed, minLength]
    omega
  have htake : (datafileMagic ++ le16 datafileVersion ++ file.fieldBytes).take 8 =
      datafileMagic := by
    rw [List.append_assoc, List.take_left' hmagic]
  have hversion : leValue (((datafileMagic ++ le16 datafileVersion ++ file.fieldBytes).drop
      8).take 2) = datafileVersion.toNat := by
    rw [List.append_assoc, List.drop_left' hmagic, List.take_left' (length_le16 _)]
    decide
  have hdrop : (datafileMagic ++ le16 datafileVersion ++ file.fieldBytes).drop 10 =
      file.fieldBytes :=
    List.drop_left' (by simp [hmagic])
  rw [fromBytes, hdrop, readFields_fieldBytes hlength]
  simp only [htake, hversion, hlong, rejectWhen, ne_eq, not_true_eq_false, decide_false,
    Bool.or_self, Bool.false_eq_true, if_false]
  split <;> rfl

variable {backend : DatafileBackend} {iterations : Nat} {salt : Option (Bytes saltBytes)}
  {nonce : Option (Bytes nonceBytes)} {wallet : Wallet} {password : String}

theorem decryptState_encryptState {salt : Bytes saltBytes} {nonce : Bytes nonceBytes}
    {state : PersistedWalletState} {ciphertext : List UInt8}
    (hencrypt : encryptState backend password salt nonce state iterations = .ok ciphertext) :
    decryptState backend password salt nonce ciphertext iterations = .ok state := by
  simp only [encryptState, bind_eq_ok, okOr_eq_ok] at hencrypt
  obtain ⟨payload, hserialize, hcipher⟩ := hencrypt
  simp only [decryptState, bind_eq_ok, okOr_eq_ok]
  exact ⟨payload, backend.decrypt_encrypt hcipher, backend.deserialize_serialize hserialize⟩

theorem capture_network {file : WalletDataFile}
    (hcapture : capture backend iterations salt nonce wallet password = .ok file) :
    file.network = wallet.network := by
  simp only [capture, apply_ite (· = Except.ok file), bind_eq_ok, pure_eq_ok] at hcapture
  split at hcapture
  · obtain ⟨_, -, rfl⟩ := hcapture
    rfl
  · obtain ⟨_, -, _, -, _, -, rfl⟩ := hcapture
    rfl

theorem loadImpl_of_capture {file : WalletDataFile} {bytes : List UInt8}
    (hcapture : capture backend iterations salt nonce wallet password = .ok file)
    (hread : fromBytes bytes = .ok file) :
    loadImpl backend iterations bytes password =
      .ok (.fromState wallet.network none wallet.captureState) := by
  simp only [capture, apply_ite (· = Except.ok file), bind_eq_ok, pure_eq_ok,
    okOr_eq_ok] at hcapture
  rw [loadImpl, bind_eq_ok]
  refine ⟨file, hread, ?_⟩
  split at hcapture
  · obtain ⟨payload, hserialize, rfl⟩ := hcapture
    rw [bind_eq_ok]
    exact ⟨_, okOr_eq_ok.mpr (backend.deserialize_serialize hserialize), rfl⟩
  · obtain ⟨salt, -, nonce, -, ciphertext, hencrypt, rfl⟩ := hcapture
    rw [bind_eq_ok]
    exact ⟨_, decryptState_encryptState hencrypt, rfl⟩

theorem loadImpl_saveImpl {bytes : List UInt8} (hfull : wallet.keypool.Full)
    (hsave : saveImpl backend iterations salt nonce wallet password = .ok bytes) :
    loadImpl backend iterations bytes password =
      if wallet.network = .prunetest then .error .invalidHeader
      else .ok { wallet with restoreGapLimit := wallet.restoreGapLimit % 2 ^ 32 } := by
  obtain ⟨file, hcapture, hbytes⟩ := bind_eq_ok.mp hsave
  have hread := fromBytes_toBytes hbytes
  rw [capture_network hcapture] at hread
  split at hread
  · next hprune => rw [if_pos hprune, loadImpl, hread]; rfl
  · next hother =>
      rw [if_neg hother, loadImpl_of_capture hcapture hread, Wallet.fromState_captureState hfull]

/-- A saved wallet comes back unless its network or its gap limit does not fit the file. -/
theorem load_save_iff (backend : DatafileBackend) (crypto : Crypto)
    (rootSeed : MnemonicPhrase → String → List UInt8) (salt : Option (Bytes saltBytes))
    (nonce : Option (Bytes nonceBytes)) (wallet : Wallet) (password : String)
    (bytes : List UInt8) (hmade : Wallet.Made crypto rootSeed wallet)
    (hsave : save backend salt nonce wallet password = .ok bytes) :
    load backend bytes password = .ok wallet ↔
      wallet.network ≠ .prunetest ∧ wallet.restoreGapLimit < 2 ^ 32 := by
  rw [load, loadImpl_saveImpl hmade.full hsave]
  split
  · next hprune => simp [hprune]
  · next hother =>
      constructor
      · intro hback
        have hlimit : wallet.restoreGapLimit % 2 ^ 32 = wallet.restoreGapLimit :=
          congrArg Wallet.restoreGapLimit (Except.ok.inj hback)
        exact ⟨hother, by omega⟩
      · rintro ⟨-, hlimit⟩
        rw [Nat.mod_eq_of_lt hlimit]

/-! A backend of the shape the wallet uses. -/

def derivationPathSerial : Serial DerivationPath :=
  (Serial.u32.pair (Serial.u32.pair Serial.u32)).convert
    (fun path => (path.account, if path.kind = .receive then 0 else 1, path.index))
    (fun (account, kind, index) =>
      if kind = 0 then some ⟨account, .receive, index⟩
      else if kind = 1 then some ⟨account, .change, index⟩
      else none)
    (by rintro ⟨account, _ | _, index⟩ <;> rfl)

def networkSerial : Serial Network :=
  Serial.u32.convert (fun network => network.discriminant.toUInt32)
    (fun tag => [Network.mainnet, .testnet, .regnet, .prunetest][tag.toNat]?)
    (by rintro (_ | _ | _ | _) <;> rfl)

def addressRecordSerial : Serial AddressRecord :=
  (networkSerial.pair (derivationPathSerial.pair Serial.string.option)).convert
    (fun record => (record.network, record.path, record.label))
    (fun (network, path, label) => some ⟨network, path, label⟩) fun _ => rfl

def stateSerial : Serial PersistedWalletState :=
  ((Serial.bytes 32).pair ((Serial.string.list.option).pair (Serial.u32.pair (Serial.u32.pair
    (Serial.u32.pair ((Serial.u32.pair Serial.u32).pair (addressRecordSerial.list.pair
      (derivationPathSerial.list.pair derivationPathSerial.list)))))))).convert
    (fun state => (state.walletSeed, state.mnemonic.map MnemonicPhrase.words,
      state.nextReceiveIndex, state.nextChangeIndex, state.restoreGapLimit,
      (state.snapshot.receiveCount, state.snapshot.changeCount), state.addressBook,
      state.receiveQueue, state.changeQueue))
    (fun (seed, words, receive, change, limit, (received, changed), book, receiveQueue,
        changeQueue) =>
      some ⟨seed, words.map MnemonicPhrase.mk, receive, change, limit, ⟨received, changed⟩,
        book, receiveQueue, changeQueue⟩)
    (by rintro ⟨_, _ | _, _, _, _, _, _, _, _⟩ <;> rfl)

/-- The wallet's own serialization, with a cipher that seals the message with its key and
nonce. -/
def exampleBackend : DatafileBackend where
  serialize := stateSerial.serialize
  deserialize := stateSerial.deserialize
  pbkdf2 password salt _ := .ofNat 32 (leValue (salt.toList ++ password.toByteArray.data.toList))
  encrypt key nonce _ message := some (key.toList ++ nonce.toList ++ message)
  decrypt key nonce _ ciphertext :=
    if ciphertext.take 44 = key.toList ++ nonce.toList then some (ciphertext.drop 44) else none
  deserialize_serialize := Serial.deserialize_serialize
  decrypt_encrypt := by
    rintro key nonce aad message _ ⟨⟩
    have hlength : (key.toList ++ nonce.toList).length = 44 := by
      rw [List.length_append, key.length_toList, nonce.length_toList]
      rfl
    rw [List.take_left' hlength, List.drop_left' hlength, if_pos rfl]

theorem length_stateSerial (state : PersistedWalletState) :
    (stateSerial.encode state).length =
      68 + (Serial.string.list.option.encode (state.mnemonic.map MnemonicPhrase.words)).length +
        (addressRecordSerial.list.encode state.addressBook).length +
        12 * (state.receiveQueue.length + state.changeQueue.length) := by
  have hpath : ∀ path, (derivationPathSerial.encode path).length = 12 := fun _ => rfl
  have hpaths : ∀ paths, (derivationPathSerial.list.encode paths).length =
      8 + 12 * paths.length := by
    intro paths
    simp [Serial.list, List.length_flatMap, hpath]
    omega
  simp [stateSerial, Serial.convert, Serial.pair, hpaths, Serial.u32, Serial.bytes]
  omega

theorem stateSerial_fits (state : PersistedWalletState) :
    stateSerial.fits state =
      (Serial.string.list.option.fits (state.mnemonic.map MnemonicPhrase.words) &&
        addressRecordSerial.list.fits state.addressBook &&
        decide (state.receiveQueue.length < 2 ^ 64) &&
        decide (state.changeQueue.length < 2 ^ 64)) := by
  have hpath : ∀ path, derivationPathSerial.fits path = true := fun _ => rfl
  have hpaths : ∀ paths, derivationPathSerial.list.fits paths =
      decide (paths.length < 2 ^ 64) := by
    intro paths
    simp [Serial.list, hpath]
  simp [stateSerial, Serial.convert, Serial.pair, hpaths, Serial.u32, Serial.bytes,
    Bool.and_assoc]

theorem serialize_captureState {wallet : Wallet} {mnemonic : Option MnemonicPhrase}
    {book : List AddressRecord} (hfull : wallet.keypool.Full)
    (hmnemonic : wallet.mnemonic = mnemonic) (hbook : wallet.addressBook = book)
    (hfits : (Serial.string.list.option.fits (mnemonic.map MnemonicPhrase.words) &&
      addressRecordSerial.list.fits book) = true)
    (hshort : (Serial.string.list.option.encode (mnemonic.map MnemonicPhrase.words)).length +
      (addressRecordSerial.list.encode book).length < 2 ^ 31) :
    ∃ payload, exampleBackend.serialize wallet.captureState = some payload ∧
      payload.length < 2 ^ 32 - 44 := by
  subst hmnemonic hbook
  refine ⟨stateSerial.encode wallet.captureState, if_pos ((stateSerial_fits _).trans ?_), ?_⟩
  · simp only [Wallet.captureState, hfull.receive, hfull.change, hfits]
    decide
  · rw [length_stateSerial]
    simp only [Wallet.captureState, hfull.receive, hfull.change, keypoolTargetSize]
    omega

theorem exists_save {wallet : Wallet} {payload : List UInt8}
    (hserialize : exampleBackend.serialize wallet.captureState = some payload)
    (hlength : payload.length < 2 ^ 32 - 44) (salt : Bytes saltBytes) (nonce : Bytes nonceBytes)
    (password : String) :
    ∃ bytes, save exampleBackend (some salt) (some nonce) wallet password = .ok bytes := by
  have hwritten : ∀ {file : WalletDataFile}, file.ciphertext.length < 2 ^ 32 →
      ∃ bytes, file.toBytes = .ok bytes := by
    intro file hlt
    simp only [toBytes, bind_eq_ok, rejectWhen_eq_ok, pure_eq_ok]
    exact ⟨_, (), decide_eq_false (by omega), rfl⟩
  by_cases hpassword : password = ""
  · obtain ⟨bytes, hbytes⟩ := @hwritten
      ⟨wallet.network, .plaintext, .zero saltBytes, .zero nonceBytes, payload⟩ (by simp; omega)
    refine ⟨bytes, ?_⟩
    rw [save, saveImpl, capture, if_pos hpassword, hserialize]
    exact hbytes
  · have hencrypt : encryptState exampleBackend password salt nonce wallet.captureState
        passwordIterations = .ok ((exampleBackend.pbkdf2 password salt
          passwordIterations).toList ++ nonce.toList ++ payload) := by
      rw [encryptState, hserialize]
      rfl
    obtain ⟨bytes, hbytes⟩ := @hwritten ⟨wallet.network, .passwordAes256Gcm, salt, nonce,
        (exampleBackend.pbkdf2 password salt passwordIterations).toList ++ nonce.toList ++ payload⟩
      (by simp [nonceBytes]; omega)
    refine ⟨bytes, ?_⟩
    simp only [save, saveImpl, capture, if_neg hpassword, bind_eq_ok, okOr_eq_ok, pure_eq_ok]
    exact ⟨_, ⟨salt, rfl, nonce, rfl, _, hencrypt, rfl⟩, hbytes⟩

/-- A wallet from a phrase. -/
def exampleWallet : Wallet :=
  .fromMnemonic .hashing (fun _ _ => [1, 2, 3]) ⟨["abandon", "ability"]⟩ "" .testnet

theorem exampleWallet_made : Wallet.Made .hashing (fun _ _ => [1, 2, 3]) exampleWallet :=
  .fromMnemonic _ _ _

theorem example_wallet_restored :
    ∃ bytes, save exampleBackend (some (.ofNat _ 5)) (some (.ofNat _ 7)) exampleWallet "secret" =
        .ok bytes ∧
      load exampleBackend bytes "secret" = .ok exampleWallet := by
  obtain ⟨payload, hserialize, hlength⟩ := @serialize_captureState exampleWallet
    (some ⟨["abandon", "ability"]⟩) [] exampleWallet_made.full
    (by simp [exampleWallet, Wallet.fromMnemonic]) (by simp [exampleWallet, Wallet.fromMnemonic])
    (by decide +kernel) (by decide +kernel)
  obtain ⟨bytes, hsave⟩ := exists_save hserialize hlength (.ofNat _ 5) (.ofNat _ 7) "secret"
  refine ⟨bytes, hsave, (load_save_iff exampleBackend .hashing (fun _ _ => [1, 2, 3]) _ _
    exampleWallet "secret" bytes exampleWallet_made hsave).mpr ?_⟩
  simp [exampleWallet, Wallet.fromMnemonic, defaultRestoreGapLimit]

/-- The constructor takes the network whose byte the reader does not know. -/
theorem prunetest_wallet_not_restored :
    ∃ bytes, save exampleBackend (some (.ofNat _ 5)) (some (.ofNat _ 7))
        (.fromSeed (.zero 32) .prunetest) "secret" = .ok bytes ∧
      load exampleBackend bytes "secret" = .error .invalidHeader := by
  have hfull := Wallet.fromSeed_full (.zero 32) .prunetest
  obtain ⟨payload, hserialize, hlength⟩ := @serialize_captureState
    (.fromSeed (.zero 32) .prunetest) none [] hfull (by simp [Wallet.fromSeed])
    (by simp [Wallet.fromSeed]) (by decide +kernel) (by decide +kernel)
  obtain ⟨bytes, hsave⟩ := exists_save hserialize hlength (.ofNat _ 5) (.ofNat _ 7) "secret"
  refine ⟨bytes, hsave, ?_⟩
  rw [load, loadImpl_saveImpl hfull hsave, if_pos (by simp [Wallet.fromSeed])]

end WalletDataFile

end Atho
