import Atho.Wallet.Datafile

/-! What a change to an encrypted wallet file can do. -/

namespace Atho

open Decoder

namespace WalletDataFile

/-! Where the reader finds the two bytes behind the version. -/

theorem readFields_eq_some {input rest : List UInt8} {file : WalletDataFile}
    (hread : readFields input = some (file, rest)) :
    ∃ networkByte modeByte fields, input = networkByte :: modeByte :: fields ∧
      encryptionModeOfByte modeByte = some file.encryptionMode := by
  simp only [readFields, bind_eq_some, byte_eq_some, lift_eq_some] at hread
  obtain ⟨networkByte, afterNetwork, rfl, network, _, ⟨-, rfl⟩, modeByte, fields, rfl, mode, _,
    ⟨hmode, rfl⟩, _, _, -, _, _, -, _, _, -, hfile⟩ := hread
  obtain ⟨rfl, -⟩ := Prod.mk.inj (Option.some.inj hfile)
  exact ⟨networkByte, modeByte, fields, rfl, hmode⟩

theorem encryptionMode_of_fromBytes {bytes : List UInt8} {file : WalletDataFile}
    (hread : fromBytes bytes = .ok file) :
    bytes[11]?.bind encryptionModeOfByte = some file.encryptionMode := by
  simp only [fromBytes, bind_eq_ok, okOr_eq_ok, Option.map_eq_some_iff] at hread
  obtain ⟨-, -, -, -, ⟨_, rest⟩, hfields, rfl⟩ := hread
  obtain ⟨networkByte, modeByte, fields, hbytes, hmode⟩ := readFields_eq_some hfields
  have hbyte : bytes[11]? = some modeByte := by
    have hsecond := congrArg (·[1]?) hbytes
    simpa [List.getElem?_drop] using hsecond
  rw [hbyte]
  exact hmode

theorem modeByte_of_toBytes {file : WalletDataFile} {bytes : List UInt8}
    (hbytes : file.toBytes = .ok bytes) : bytes[11]? = some file.encryptionMode.discriminant := by
  simp only [toBytes, bind_eq_ok, rejectWhen_eq_ok, pure_eq_ok] at hbytes
  obtain ⟨-, -, rfl⟩ := hbytes
  have hheader : (datafileMagic ++ le16 datafileVersion).length = 10 := by decide
  rw [List.getElem?_append_right (by omega), hheader]
  rfl

/-! Authenticated encryption. -/

section

variable (backend : DatafileBackend) (password : String)

/-- A file with what a save has sealed: the same ciphertext, under the same key and nonce. -/
structure CarriesSeal (saved file : WalletDataFile) : Prop where
  key : backend.pbkdf2 password file.salt passwordIterations =
    backend.pbkdf2 password saved.salt passwordIterations
  nonce : file.nonce = saved.nonce
  ciphertext : file.ciphertext = saved.ciphertext

/-- What the save has not sealed is not opened. -/
def RejectsForgery (saved : WalletDataFile) (bytes : List UInt8) : Prop :=
  ∀ file, fromBytes bytes = .ok file → ¬CarriesSeal backend password saved file →
    backend.decrypt (backend.pbkdf2 password file.salt passwordIterations) file.nonce buildAad
      file.ciphertext = none

end

variable {backend : DatafileBackend} {salt : Option (Bytes saltBytes)}
  {nonce : Option (Bytes nonceBytes)} {wallet : Wallet} {password : String}
  {saved file : WalletDataFile} {bytes modified : List UInt8}

theorem capture_of_password (hpassword : password ≠ "")
    (hcapture : capture backend passwordIterations salt nonce wallet password = .ok saved) :
    saved.encryptionMode = .passwordAes256Gcm ∧
      decryptState backend password saved.salt saved.nonce saved.ciphertext passwordIterations =
        .ok wallet.captureState := by
  simp only [capture, if_neg hpassword, bind_eq_ok, okOr_eq_ok, pure_eq_ok] at hcapture
  obtain ⟨salt, -, nonce, -, ciphertext, hencrypt, rfl⟩ := hcapture
  exact ⟨rfl, decryptState_encryptState hencrypt⟩

theorem load_of_seal (hpassword : password ≠ "")
    (hcapture : capture backend passwordIterations salt nonce wallet password = .ok saved)
    (hread : fromBytes modified = .ok file) (hmode : file.encryptionMode = .passwordAes256Gcm)
    (hseal : CarriesSeal backend password saved file) :
    load backend modified password = .ok (.fromState file.network none wallet.captureState) := by
  obtain ⟨-, hopened⟩ := capture_of_password hpassword hcapture
  have hstate : decryptState backend password file.salt file.nonce file.ciphertext
      passwordIterations = .ok wallet.captureState := by
    rw [decryptState, hseal.key, hseal.nonce, hseal.ciphertext]
    exact hopened
  rw [load, loadImpl, bind_eq_ok]
  refine ⟨file, hread, ?_⟩
  rw [hmode, bind_eq_ok]
  exact ⟨_, hstate, rfl⟩

theorem opened_of_load {loaded : Wallet} (hload : load backend modified password = .ok loaded)
    (hmode : ∀ file, fromBytes modified = .ok file → file.encryptionMode = .passwordAes256Gcm) :
    ∃ file message, fromBytes modified = .ok file ∧
      backend.decrypt (backend.pbkdf2 password file.salt passwordIterations) file.nonce buildAad
        file.ciphertext = some message := by
  rw [load, loadImpl, bind_eq_ok] at hload
  obtain ⟨file, hread, hload⟩ := hload
  rw [hmode file hread, bind_eq_ok] at hload
  obtain ⟨state, hstate, -⟩ := hload
  simp only [decryptState, bind_eq_ok, okOr_eq_ok] at hstate
  obtain ⟨message, hopened, -⟩ := hstate
  exact ⟨file, message, hread, hopened⟩

theorem fromState_under_network {network : Network} (hfull : wallet.keypool.Full) :
    Wallet.fromState network none wallet.captureState =
      { wallet with
        network := network
        restoreGapLimit := wallet.restoreGapLimit % 2 ^ 32 } := by
  rw [Wallet.fromState]
  exact Wallet.refillKeypool_eq ⟨hfull.receive, hfull.change⟩

theorem fromState_captureState_eq_iff {network : Network} (hfull : wallet.keypool.Full) :
    Wallet.fromState network none wallet.captureState = wallet ↔
      network = wallet.network ∧ wallet.restoreGapLimit < 2 ^ 32 := by
  rw [fromState_under_network hfull]
  constructor
  · intro heq
    have hlimit : wallet.restoreGapLimit % 2 ^ 32 = wallet.restoreGapLimit :=
      congrArg Wallet.restoreGapLimit heq
    exact ⟨congrArg Wallet.network heq, by omega⟩
  · rintro ⟨rfl, hlimit⟩
    rw [Nat.mod_eq_of_lt hlimit]

theorem exists_saved_example : ∃ saved bytes,
    capture exampleBackend passwordIterations (some (.ofNat _ 5)) (some (.ofNat _ 7)) exampleWallet
        "secret" = .ok saved ∧ saved.toBytes = .ok bytes := by
  obtain ⟨payload, hserialize, hlength⟩ := @serialize_captureState exampleWallet
    (some ⟨["abandon", "ability"]⟩) [] exampleWallet_made.full
    (by simp [exampleWallet, Wallet.fromMnemonic]) (by simp [exampleWallet, Wallet.fromMnemonic])
    (by decide +kernel) (by decide +kernel)
  obtain ⟨bytes, hsave⟩ := exists_save hserialize hlength (.ofNat _ 5) (.ofNat _ 7) "secret"
  obtain ⟨saved, hcapture, hbytes⟩ := bind_eq_ok.mp hsave
  exact ⟨saved, bytes, hcapture, hbytes⟩

theorem exampleWallet_network : exampleWallet.network = .testnet := by
  simp [exampleWallet, Wallet.fromMnemonic]

theorem exampleWallet_restoreGapLimit : exampleWallet.restoreGapLimit < 2 ^ 32 := by
  simp [exampleWallet, Wallet.fromMnemonic, defaultRestoreGapLimit]

theorem carriesSeal_self (network : Network) :
    CarriesSeal backend password saved { saved with network } :=
  ⟨rfl, rfl, rfl⟩

theorem rejectsForgery_of_read {network : Network}
    (hread : fromBytes modified = .ok { saved with network }) :
    RejectsForgery backend password saved modified := by
  intro file hfile hforged
  obtain rfl := Except.ok.inj (hread.symm.trans hfile)
  exact absurd (carriesSeal_self network) hforged

theorem toBytes_with_network (hbytes : saved.toBytes = .ok bytes) (network : Network) :
    { saved with network }.toBytes = .ok (bytes.set 10 network.discriminant) := by
  simp only [toBytes, bind_eq_ok, rejectWhen_eq_ok, pure_eq_ok] at hbytes ⊢
  obtain ⟨-, hlength, rfl⟩ := hbytes
  refine ⟨(), hlength, ?_⟩
  have hheader : (datafileMagic ++ le16 datafileVersion).length = 10 := by decide
  rw [List.set_append_right _ _ (by omega), hheader]
  rfl

end WalletDataFile

end Atho
