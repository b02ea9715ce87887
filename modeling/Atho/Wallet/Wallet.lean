import Atho.Core.TxPolicy

/-! Wallets: derivation of keys, the keypool, the address book, and how wallets come about. -/

namespace Atho

/-! Keys. -/

inductive AddressKind where
  | receive
  | change
  deriving DecidableEq

structure DerivationPath where
  account : UInt32
  kind : AddressKind
  index : UInt32
  deriving DecidableEq

structure FalconKeypair where
  publicKey : List UInt8
  secretKey : List UInt8
  deriving DecidableEq

/-- Key generation and signing next to the verifier, which accepts what is signed. -/
structure WalletCrypto extends Crypto where
  generateFromSeed : Bytes 48 → FalconKeypair
  sign : (secretKey : List UInt8) → (message : Bytes 48) → Except String (List UInt8)
  length_publicKey : ∀ seed,
    (generateFromSeed seed).publicKey.length = falcon512PublicKeyBytes
  length_signature : ∀ {secretKey message signature},
    sign secretKey message = .ok signature → signature.length = falcon512SignatureBytes
  verify_sign : ∀ {seed message signature},
    sign (generateFromSeed seed).secretKey message = .ok signature →
      falconVerify .transaction (generateFromSeed seed).publicKey message signature = some true

/-! The deterministic wallet. -/

structure HdWallet where
  seed : Bytes 32
  nextReceiveIndex : UInt32
  nextChangeIndex : UInt32
  deriving DecidableEq

/-- Count one up, but not past the largest value. -/
def saturatingSucc (value : UInt32) : UInt32 :=
  UInt32.ofNat (min (value.toNat + 1) (2 ^ 32 - 1))

namespace HdWallet

def new (seed : Bytes 32) : HdWallet := ⟨seed, 0, 0⟩

def nextPath (wallet : HdWallet) : AddressKind → DerivationPath × HdWallet
  | .receive =>
      (⟨0, .receive, wallet.nextReceiveIndex⟩,
        { wallet with nextReceiveIndex := saturatingSucc wallet.nextReceiveIndex })
  | .change =>
      (⟨0, .change, wallet.nextChangeIndex⟩,
        { wallet with nextChangeIndex := saturatingSucc wallet.nextChangeIndex })

end HdWallet

/-! The keypool. -/

def keypoolTargetSize : Nat := 1024

structure Keypool where
  receive : List DerivationPath := []
  change : List DerivationPath := []
  deriving DecidableEq

/-- Reserve `count` more paths of one kind. -/
def reserve (kind : AddressKind) :
    (count : Nat) → List DerivationPath → HdWallet → List DerivationPath × HdWallet
  | 0, queue, wallet => (queue, wallet)
  | count + 1, queue, wallet =>
      reserve kind count (queue ++ [(wallet.nextPath kind).1]) (wallet.nextPath kind).2

namespace Keypool

def refillToTarget (pool : Keypool) (wallet : HdWallet) : Keypool × HdWallet :=
  let (receive, wallet) :=
    reserve .receive (keypoolTargetSize - pool.receive.length) pool.receive wallet
  let (change, wallet) :=
    reserve .change (keypoolTargetSize - pool.change.length) pool.change wallet
  (⟨receive, change⟩, wallet)

def take (pool : Keypool) : AddressKind → Option DerivationPath × Keypool
  | .receive => (pool.receive.head?, { pool with receive := pool.receive.tail })
  | .change => (pool.change.head?, { pool with change := pool.change.tail })

end Keypool

/-! Wallets. -/

structure AddressRecord where
  network : Network
  path : DerivationPath
  label : Option String
  deriving DecidableEq

structure WalletSnapshot where
  receiveCount : UInt32 := 0
  changeCount : UInt32 := 0
  deriving DecidableEq

def WalletSnapshot.record (snapshot : WalletSnapshot) : AddressKind → WalletSnapshot
  | .receive => { snapshot with receiveCount := saturatingSucc snapshot.receiveCount }
  | .change => { snapshot with changeCount := saturatingSucc snapshot.changeCount }

structure MnemonicPhrase where
  words : List String
  deriving DecidableEq

def defaultRestoreGapLimit : Nat := 1000

structure Wallet where
  network : Network
  mnemonic : Option MnemonicPhrase
  hdWallet : HdWallet
  keypool : Keypool
  addressBook : List AddressRecord
  snapshot : WalletSnapshot
  restoreGapLimit : Nat
  deriving DecidableEq

/-- What a spend needs to know about an address. -/
structure WalletAddress where
  network : Network
  path : DerivationPath
  publicKey : List UInt8
  paymentDigest : Bytes 32
  deriving DecidableEq

namespace Wallet

def refillKeypool (wallet : Wallet) : Wallet :=
  let (keypool, hdWallet) := wallet.keypool.refillToTarget wallet.hdWallet
  { wallet with keypool := keypool, hdWallet := hdWallet }

@[simp] theorem refillKeypool_network (wallet : Wallet) :
    wallet.refillKeypool.network = wallet.network := rfl

@[simp] theorem refillKeypool_mnemonic (wallet : Wallet) :
    wallet.refillKeypool.mnemonic = wallet.mnemonic := rfl

@[simp] theorem refillKeypool_addressBook (wallet : Wallet) :
    wallet.refillKeypool.addressBook = wallet.addressBook := rfl

@[simp] theorem refillKeypool_restoreGapLimit (wallet : Wallet) :
    wallet.refillKeypool.restoreGapLimit = wallet.restoreGapLimit := rfl

def fromSeed (seed : Bytes 32) (network : Network) : Wallet :=
  refillKeypool
    { network := network
      mnemonic := none
      hdWallet := .new seed
      keypool := {}
      addressBook := []
      snapshot := {}
      restoreGapLimit := defaultRestoreGapLimit }

/-- `rootSeed` stretches a phrase and its passphrase. -/
def fromMnemonic (crypto : Crypto) (rootSeed : MnemonicPhrase → String → List UInt8)
    (mnemonic : MnemonicPhrase) (passphrase : String) (network : Network) : Wallet :=
  refillKeypool
    { network := network
      mnemonic := some mnemonic
      hdWallet := .new (crypto.sha3_256 (rootSeed mnemonic passphrase))
      keypool := {}
      addressBook := []
      snapshot := {}
      restoreGapLimit := defaultRestoreGapLimit }

def setRestoreGapLimit (limit : Nat) (wallet : Wallet) : Wallet :=
  { wallet with restoreGapLimit := max limit 1 }

def keypairForPath (crypto : WalletCrypto) (wallet : Wallet) (path : DerivationPath) :
    FalconKeypair :=
  crypto.generateFromSeed (crypto.sha3_384
    (wallet.hdWallet.seed.toList ++ ascii wallet.network.domainTag ++ le32 path.account ++
      (match path.kind with
        | .receive => 0
        | .change => 1) :: le32 path.index))

def deriveAddress (crypto : WalletCrypto) (wallet : Wallet) (path : DerivationPath) :
    WalletAddress :=
  let publicKey := (wallet.keypairForPath crypto path).publicKey
  ⟨wallet.network, path, publicKey, publicKeyDigest crypto.toCrypto wallet.network publicKey⟩

theorem deriveAddress_network (crypto : WalletCrypto) (wallet : Wallet) (path : DerivationPath) :
    (wallet.deriveAddress crypto path).network = wallet.network := rfl

/-- Hand out the next path of the keypool, which is filled up again. -/
def checkout (kind : AddressKind) (label : Option String) (wallet : Wallet) :
    DerivationPath × Wallet :=
  let (taken, keypool) := wallet.keypool.take kind
  let (path, hdWallet) :=
    match taken with
    | some path => (path, wallet.hdWallet)
    | none => wallet.hdWallet.nextPath kind
  let book := wallet.addressBook ++ [⟨wallet.network, path, label⟩]
  let filled := refillKeypool
    { wallet with keypool := keypool, hdWallet := hdWallet, addressBook := book }
  (path, { filled with snapshot := wallet.snapshot.record kind })

def checkoutAddress (crypto : WalletCrypto) (kind : AddressKind) (label : Option String)
    (wallet : Wallet) : WalletAddress × Wallet :=
  (wallet.deriveAddress crypto (wallet.checkout kind label).1, (wallet.checkout kind label).2)

/-- The wallets that the constructors and checkouts produce, with any gap limit a machine
word can hold. -/
inductive Made (crypto : Crypto) (rootSeed : MnemonicPhrase → String → List UInt8) :
    Wallet → Prop where
  | fromSeed (seed : Bytes 32) (network : Network) : Made crypto rootSeed (fromSeed seed network)
  | fromMnemonic (mnemonic : MnemonicPhrase) (passphrase : String) (network : Network) :
      Made crypto rootSeed (fromMnemonic crypto rootSeed mnemonic passphrase network)
  | setRestoreGapLimit {wallet : Wallet} (limit : Nat) (hlimit : limit < 2 ^ 64)
      (hwallet : Made crypto rootSeed wallet) :
      Made crypto rootSeed (wallet.setRestoreGapLimit limit)
  | checkout {wallet : Wallet} (kind : AddressKind) (label : Option String)
      (hwallet : Made crypto rootSeed wallet) :
      Made crypto rootSeed (wallet.checkout kind label).2

end Wallet

/-! The keypool is always full. -/

theorem length_reserve (kind : AddressKind) (count : Nat) (queue : List DerivationPath)
    (wallet : HdWallet) : (reserve kind count queue wallet).1.length = queue.length + count := by
  induction count generalizing queue wallet with
  | zero => rfl
  | succ count ih =>
      rw [reserve, ih, List.length_append, List.length_singleton]
      omega

/-- Both queues hold exactly their target. -/
structure Keypool.Full (pool : Keypool) : Prop where
  receive : pool.receive.length = keypoolTargetSize
  change : pool.change.length = keypoolTargetSize

theorem Keypool.refillToTarget_full {pool : Keypool} (wallet : HdWallet)
    (hreceive : pool.receive.length ≤ keypoolTargetSize)
    (hchange : pool.change.length ≤ keypoolTargetSize) :
    (pool.refillToTarget wallet).1.Full := by
  constructor
  · have hlength := length_reserve .receive (keypoolTargetSize - pool.receive.length)
      pool.receive wallet
    simp only [refillToTarget]
    omega
  · have hlength := length_reserve .change (keypoolTargetSize - pool.change.length) pool.change
      (reserve .receive (keypoolTargetSize - pool.receive.length) pool.receive wallet).2
    simp only [refillToTarget]
    omega

theorem Keypool.Full.refillToTarget_eq {pool : Keypool} (hfull : pool.Full)
    (wallet : HdWallet) : pool.refillToTarget wallet = (pool, wallet) := by
  simp only [refillToTarget, hfull.receive, hfull.change, Nat.sub_self, reserve]

theorem Wallet.refillKeypool_full {wallet : Wallet}
    (hreceive : wallet.keypool.receive.length ≤ keypoolTargetSize)
    (hchange : wallet.keypool.change.length ≤ keypoolTargetSize) :
    wallet.refillKeypool.keypool.Full :=
  Keypool.refillToTarget_full wallet.hdWallet hreceive hchange

theorem Wallet.refillKeypool_eq {wallet : Wallet} (hfull : wallet.keypool.Full) :
    wallet.refillKeypool = wallet := by
  rw [refillKeypool, hfull.refillToTarget_eq]

theorem Wallet.fromSeed_full (seed : Bytes 32) (network : Network) :
    (fromSeed seed network).keypool.Full := by
  rw [fromSeed]
  exact refillKeypool_full (Nat.zero_le _) (Nat.zero_le _)

theorem Wallet.checkout_full {wallet : Wallet} (hfull : wallet.keypool.Full)
    (kind : AddressKind) (label : Option String) :
    (wallet.checkout kind label).2.keypool.Full := by
  have hreceive : (wallet.keypool.take kind).2.receive.length ≤ keypoolTargetSize := by
    cases kind <;> simp [Keypool.take, hfull.receive]
  have hchange : (wallet.keypool.take kind).2.change.length ≤ keypoolTargetSize := by
    cases kind <;> simp [Keypool.take, hfull.change]
  rw [checkout]
  exact refillKeypool_full hreceive hchange

theorem Wallet.Made.full {crypto : Crypto} {rootSeed : MnemonicPhrase → String → List UInt8}
    {wallet : Wallet} (hmade : Made crypto rootSeed wallet) : wallet.keypool.Full := by
  induction hmade with
  | fromSeed seed network => exact fromSeed_full seed network
  | fromMnemonic mnemonic passphrase network =>
      rw [Wallet.fromMnemonic]
      exact refillKeypool_full (Nat.zero_le _) (Nat.zero_le _)
  | setRestoreGapLimit limit hlimit hwallet ih => exact ih
  | checkout kind label hwallet ih => exact checkout_full ih kind label

end Atho
