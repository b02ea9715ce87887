import Atho.Core.Block
import Atho.Library.Journal
import Atho.Storage.Error

/-! The UTXO set: applying a block while writing its undo journal, and taking a
block back from the journal. -/

namespace Atho

structure UtxoKey where
  txid : Bytes 48
  outputIndex : UInt32
  deriving DecidableEq

structure UtxoEntry where
  network : Network
  txid : Bytes 48
  outputIndex : UInt32
  valueAtoms : UInt64
  lockingScript : List UInt8
  createdHeight : UInt64
  isCoinbase : Bool
  deriving DecidableEq

def TxInput.key (input : TxInput) : UtxoKey :=
  ⟨input.previousTxid, input.outputIndex⟩

namespace UtxoEntry

def key (entry : UtxoEntry) : UtxoKey :=
  ⟨entry.txid, entry.outputIndex⟩

def confirmationCount (entry : UtxoEntry) (spendHeight : UInt64) : UInt64 :=
  if spendHeight < entry.createdHeight then 0
  else spendHeight - entry.createdHeight + 1

def requiredConfirmations (entry : UtxoEntry) : UInt64 :=
  if entry.isCoinbase then coinbaseMaturityBlocks else normalTxValidAfterConfirmations

def isSpendableAt (entry : UtxoEntry) (spendHeight : UInt64) : Bool :=
  entry.requiredConfirmations ≤ entry.confirmationCount spendHeight

end UtxoEntry

/-- Entries of one network, each filed under its own key. -/
structure UtxoSet where
  network : Network
  entries : Finmap fun _ : UtxoKey => UtxoEntry
  key_eq : ∀ {key entry}, entries.lookup key = some entry → entry.key = key
  network_eq : ∀ {key entry}, entries.lookup key = some entry → entry.network = network

/-- What a block took from the set and what it added, each in order. -/
structure BlockUndo where
  spent : List UtxoEntry
  created : List UtxoEntry
  deriving DecidableEq

namespace UtxoSet

instance : DecidableEq UtxoSet := fun left right =>
  if heq : left.network = right.network ∧ left.entries = right.entries then
    .isTrue (by cases left; cases right; cases heq.1; cases heq.2; rfl)
  else .isFalse (by rintro rfl; exact heq ⟨rfl, rfl⟩)

def new (network : Network) : UtxoSet where
  network := network
  entries := ∅
  key_eq hlookup := by simp at hlookup
  network_eq hlookup := by simp at hlookup

def get (set : UtxoSet) (key : UtxoKey) : Option UtxoEntry :=
  set.entries.lookup key

/-- File an entry of the set's network, over whatever its key held. -/
def put (set : UtxoSet) (entry : UtxoEntry) (hnetwork : entry.network = set.network) :
    UtxoSet where
  network := set.network
  entries := set.entries.insert entry.key entry
  key_eq := by
    intro key found hlookup
    by_cases hkey : key = entry.key
    · subst hkey
      rw [Finmap.lookup_insert] at hlookup
      cases hlookup
      rfl
    · rw [Finmap.lookup_insert_of_ne _ hkey] at hlookup
      exact set.key_eq hlookup
  network_eq := by
    intro key found hlookup
    by_cases hkey : key = entry.key
    · subst hkey
      rw [Finmap.lookup_insert] at hlookup
      cases hlookup
      exact hnetwork
    · rw [Finmap.lookup_insert_of_ne _ hkey] at hlookup
      exact set.network_eq hlookup

def drop (set : UtxoSet) (key : UtxoKey) : UtxoSet where
  network := set.network
  entries := set.entries.erase key
  key_eq := by
    intro other found hlookup
    by_cases hkey : other = key
    · subst hkey
      rw [Finmap.lookup_erase] at hlookup
      cases hlookup
    · rw [Finmap.lookup_erase_ne hkey] at hlookup
      exact set.key_eq hlookup
  network_eq := by
    intro other found hlookup
    by_cases hkey : other = key
    · subst hkey
      rw [Finmap.lookup_erase] at hlookup
      cases hlookup
    · rw [Finmap.lookup_erase_ne hkey] at hlookup
      exact set.network_eq hlookup

/-- The map is overwritten before the duplicate is reported. -/
def insert (set : UtxoSet) (entry : UtxoEntry) : Except StorageError Unit × UtxoSet :=
  if hnetwork : entry.network = set.network then
    (if (set.get entry.key).isSome then .error .duplicateUtxo else .ok (),
      set.put entry hnetwork)
  else (.error .crossNetworkReplay, set)

def remove (set : UtxoSet) (key : UtxoKey) : Except StorageError UtxoEntry × UtxoSet :=
  (okOr (set.get key) .missingUtxo, set.drop key)

/-- Insert one entry after another, ignoring every outcome. -/
def insertAll (set : UtxoSet) (entries : List UtxoEntry) : UtxoSet :=
  entries.foldl (fun set entry => (set.insert entry).2) set

def removeAll (set : UtxoSet) (entries : List UtxoEntry) : UtxoSet :=
  entries.foldl (fun set entry => (set.remove entry.key).2) set

def disconnectBlock (set : UtxoSet) (undo : BlockUndo) : UtxoSet :=
  (set.removeAll undo.created).insertAll undo.spent

def spendInputsFrom (set : UtxoSet) (spent : List UtxoEntry) :
    List TxInput → Except StorageError (List UtxoEntry) × UtxoSet
  | [] => (.ok spent, set)
  | input :: rest =>
      match set.remove input.key with
      | (.ok entry, set) => spendInputsFrom set (spent ++ [entry]) rest
      | (.error err, set) => (.error err, set.insertAll spent.reverse)

def spendInputs (set : UtxoSet) (tx : Transaction) :
    Except StorageError (List UtxoEntry) × UtxoSet :=
  spendInputsFrom set [] tx.inputs

def createOutputs (crypto : Crypto) (tx : Transaction) (network : Network)
    (createdHeight : UInt64) : List UtxoEntry :=
  let txid := tx.txid crypto
  tx.outputs.mapIdx fun outputIndex output =>
    { network := network
      txid := txid
      outputIndex := UInt32.ofNat outputIndex
      valueAtoms := output.valueAtoms
      lockingScript := output.lockingScript
      createdHeight := createdHeight
      isCoinbase := tx.isCoinbase }

def insertOutputs (set : UtxoSet) (undo : BlockUndo) :
    List UtxoEntry → Except StorageError BlockUndo × UtxoSet
  | [] => (.ok undo, set)
  | output :: rest =>
      match set.insert output with
      | (.ok _, set) =>
          insertOutputs set { undo with created := undo.created ++ [output] } rest
      | (.error err, set) => (.error err, set.disconnectBlock undo)

/-- The body of the block loop for one transaction. -/
def applyTransaction (crypto : Crypto) (height : UInt64) (set : UtxoSet)
    (undo : BlockUndo) (tx : Transaction) : Except StorageError BlockUndo × UtxoSet :=
  match set.spendInputs tx with
  | (.error err, set) => (.error err, set.disconnectBlock undo)
  | (.ok spent, set) =>
      set.insertOutputs { undo with spent := undo.spent ++ spent }
        (createOutputs crypto tx set.network height)

def applyTransactions (crypto : Crypto) (height : UInt64) (set : UtxoSet)
    (undo : BlockUndo) : List Transaction → Except StorageError BlockUndo × UtxoSet
  | [] => (.ok undo, set)
  | tx :: rest =>
      match set.applyTransaction crypto height undo tx with
      | (.error err, set) => (.error err, set)
      | (.ok undo, set) => applyTransactions crypto height set undo rest

def applyBlock (crypto : Crypto) (set : UtxoSet) (block : Block) :
    Except StorageError BlockUndo × UtxoSet :=
  applyTransactions crypto block.header.height set ⟨[], []⟩ block.transactions

/-! What each operation does to the entries. -/

@[ext] theorem ext {left right : UtxoSet} (hnetwork : left.network = right.network)
    (hget : left.get = right.get) : left = right := by
  have hentries : left.entries = right.entries := Finmap.ext_lookup (congrFun hget)
  cases left
  cases right
  cases hnetwork
  cases hentries
  rfl

theorem key_eq_of_get {set : UtxoSet} (hget : set.get key = some entry) : entry.key = key :=
  set.key_eq hget

theorem network_eq_of_get {set : UtxoSet} (hget : set.get key = some entry) :
    entry.network = set.network :=
  set.network_eq hget

@[simp] theorem put_network (set : UtxoSet) (entry : UtxoEntry)
    (hnetwork : entry.network = set.network) :
    (set.put entry hnetwork).network = set.network :=
  rfl

@[simp] theorem drop_network (set : UtxoSet) (key : UtxoKey) :
    (set.drop key).network = set.network :=
  rfl

@[simp] theorem get_new (network : Network) (key : UtxoKey) : (new network).get key = none :=
  Finmap.lookup_empty key

theorem get_put (set : UtxoSet) (entry : UtxoEntry) (hnetwork : entry.network = set.network) :
    (set.put entry hnetwork).get = Function.update set.get entry.key (some entry) :=
  Journal.lookup_insert_eq set.entries entry.key entry

theorem get_drop (set : UtxoSet) (key : UtxoKey) :
    (set.drop key).get = Function.update set.get key none :=
  Journal.lookup_erase_eq set.entries key

theorem insert_of_network {set : UtxoSet} {entry : UtxoEntry}
    (hnetwork : entry.network = set.network) :
    set.insert entry =
      (if (set.get entry.key).isSome then .error .duplicateUtxo else .ok (),
        set.put entry hnetwork) := by
  simp [insert, hnetwork]

theorem insert_snd {set : UtxoSet} {entry : UtxoEntry}
    (hnetwork : entry.network = set.network) :
    (set.insert entry).2 = set.put entry hnetwork := by
  rw [insert_of_network hnetwork]

theorem insert_network (set : UtxoSet) (entry : UtxoEntry) :
    (set.insert entry).2.network = set.network := by
  unfold insert
  split <;> rfl

end UtxoSet

end Atho
