import Atho.Core.Pow
import Atho.Core.Subsidy

/-! The genesis block of each network. -/

namespace Atho

def mainnetGenesisRewardScript : List UInt8 := beBytes 32
  0x9529a6358612b193cc100b4150f46235505a948caacf331b15a171993ad3124c

def testnetGenesisRewardScript : List UInt8 := beBytes 32
  0x22b5382e49b9a2dafb0d2c7b1c2afe643a3c14a23f7a90e4e5dce0162b754623

/-- The parts of a genesis block that differ between networks. -/
structure GenesisParts where
  rewardScript : List UInt8
  timestamp : UInt64
  nonce : UInt64
  target : Bytes 48
  expectedBlockHash : Bytes 48

def genesisParts : Network → GenesisParts
  | .mainnet =>
      { rewardScript := mainnetGenesisRewardScript
        timestamp := 1773360488
        nonce := 9135
        target := genesisTarget
        expectedBlockHash := .ofNat 48
          0x000071597c30a18003dc29fd927ec97b361a4fdb63a2bb2cd36e9e976f365f5a23273ed0570f400e3ea2531bb25fed26 }
  | .testnet =>
      { rewardScript := testnetGenesisRewardScript
        timestamp := 1773360489
        nonce := 124947
        target := genesisTarget
        expectedBlockHash := .ofNat 48
          0x00000e524958487f70cfe350a65093d40e70bd15e2611451995c59c0d5b126e1aea7f51c4b099ea2393e9cfff45f9eb9 }
  | .regnet =>
      { rewardScript := testnetGenesisRewardScript
        timestamp := 1773360489
        nonce := 64646
        target := genesisTarget
        expectedBlockHash := .ofNat 48
          0x00009210aef53e3df4d37945e7b8c8c862ed5c29fc36b0f60594115cad4603c42c1400825154b15f21518157e53566e8 }
  | .prunetest =>
      { rewardScript := testnetGenesisRewardScript
        timestamp := 1773360490
        nonce := 22299
        target := initialTargetForNetwork .prunetest
        expectedBlockHash := .ofNat 48
          0x000076ce84de168b72cbcb309ade2a0b0e4db57a8db8ee8b3fb1d324349a27c45f1040de1ba5d37deba74d0af4d0f7c0 }

def genesisCoinbase (network : Network) : Transaction where
  version := 1
  inputs := []
  outputs :=
    [{ valueAtoms := genesisCoinbaseAtomsForNetwork network
       lockingScript := (genesisParts network).rewardScript }]
  lockTime := 0
  witness := []
  txPowNonce := 0
  txPowBits := 0

def genesisBlock (crypto : Crypto) (network : Network) : Block :=
  let transactions := [genesisCoinbase network]
  let parts := genesisParts network
  { header :=
      { version := 1
        networkId := network
        height := 0
        previousBlockHash := .zero 48
        merkleRoot := merkleRoot crypto transactions
        witnessRoot := witnessRoot crypto transactions
        foundersHashSha3_384 := foundersHashSha3_384
        foundersHashSha3_512 := foundersHashSha3_512
        timestamp := parts.timestamp
        difficultyTargetOrBits := parts.target
        nonce := parts.nonce }
    transactions := transactions }

def genesisHash (crypto : Crypto) (network : Network) : Bytes 48 :=
  (genesisBlock crypto network).header.blockHash crypto

@[simp] theorem genesisBlock_transactions (crypto : Crypto) (network : Network) :
    (genesisBlock crypto network).transactions = [genesisCoinbase network] :=
  rfl

@[simp] theorem genesisBlock_height (crypto : Crypto) (network : Network) :
    (genesisBlock crypto network).header.height = 0 :=
  rfl

theorem genesisHash_standard (verify : AthoSignatureDomain → List UInt8 → Bytes 48 →
    List UInt8 → Option Bool) (network : Network) :
    genesisHash (.standard verify) network = (genesisParts network).expectedBlockHash := by
  change genesisHash .hashing network = _
  cases network <;> decide +kernel

end Atho
