import Atho.Storage.CanonicalChain

/-! Snapshot bundles: what importing one checks, and what a sound one satisfies. -/

namespace Atho

structure ChainSnapshotBundle where
  snapshot : ChainstateSnapshot
  utxos : List UtxoEntry
  blocks : List Block

namespace ChainSnapshotBundle

/-- The checks before anything is changed, giving the UTXO set of the bundle. -/
def check (crypto : Crypto) (network : Network) (bundle : ChainSnapshotBundle) :
    Except StorageError UtxoSet := do
  let last ← okOr bundle.blocks.getLast? StorageError.incompleteBlockHistory
  rejectWhen (last.header.height ≠ bundle.snapshot.height ∨
    last.header.blockHash crypto ≠ bundle.snapshot.tipHash) .persistedTipMismatch
  let first ← okOr bundle.blocks.head? StorageError.incompleteBlockHistory
  rejectWhen (first.header.height ≠ 0 ∨
    first.header.blockHash crypto ≠ genesisHash crypto network) .persistedGenesisMismatch
  insertPersistedUtxos (.new network) bundle.utxos

/-- The memory that an imported bundle gives; there is nothing to undo in it. -/
def toChainMemory (crypto : Crypto) (network : Network) (bundle : ChainSnapshotBundle)
    (utxos : UtxoSet) : ChainMemory where
  network := network
  tip := bundle.snapshot.tipHeader
  tipHash := bundle.snapshot.tipHash
  height := bundle.snapshot.height
  blocks := bundle.blocks
  blockIndexByHash := buildBlockIndexByHash crypto bundle.blocks
  utxos := utxos
  undoStack := []

end ChainSnapshotBundle

def Chainstate.importSnapshotBundle (host : Host σ) (state : Chainstate σ)
    (bundle : ChainSnapshotBundle) : Except StorageError Unit × Chainstate σ :=
  match bundle.check host.crypto state.network with
  | .error err => (.error err, state)
  | .ok utxos =>
      match state.persist fun storage =>
          host.replaceChainstate storage bundle.snapshot utxos bundle.blocks with
      | (.error err, state) => (.error err, state)
      | (.ok _, state) =>
          (.ok (),
            ({ state with
               toChainMemory := bundle.toChainMemory host.crypto state.network utxos }.note
              (.replaced bundle.blocks.tail)).pruneHistory host)

/-! What the checks amount to. -/

/-- Entries are inserted one by one exactly when they are of the network and no key
occurs twice, among them or in the set. -/
theorem insertPersistedUtxos_eq_ok {set set' : UtxoSet} {entries : List UtxoEntry} :
    insertPersistedUtxos set entries = .ok set' ↔
      (entries.map UtxoEntry.key).Nodup ∧
      (∀ entry ∈ entries, entry.network = set.network ∧ set.get entry.key = none) ∧
      set' = set.insertAll entries := by
  induction entries generalizing set with
  | nil => simp [insertPersistedUtxos, UtxoSet.insertAll, eq_comm]
  | cons entry rest ih =>
      by_cases hnetwork : entry.network = set.network
      · cases hget : set.get entry.key with
        | some found =>
            simp [insertPersistedUtxos, UtxoSet.insert_of_network hnetwork, hget]
        | none =>
            have hinsert : set.insert entry = (.ok (), set.put entry hnetwork) := by
              rw [UtxoSet.insert_of_network hnetwork, hget]
              rfl
            simp only [insertPersistedUtxos, hinsert, ih, UtxoSet.put_network, UtxoSet.get_put,
              List.map_cons, List.nodup_cons, List.forall_mem_cons, UtxoSet.insertAll,
              List.foldl_cons, hnetwork, hget, and_true, true_and, Function.update_apply]
            constructor
            · rintro ⟨hnodup, hfree, hset⟩
              refine ⟨⟨?_, hnodup⟩, ?_, hset⟩
              · intro hmem
                obtain ⟨other, hother, hkey⟩ := List.mem_map.mp hmem
                simpa [hkey] using (hfree other hother).2
              · intro other hother
                obtain ⟨hother, hfree⟩ := hfree other hother
                split at hfree
                · cases hfree
                · exact ⟨hother, hfree⟩
            · rintro ⟨⟨hnot, hnodup⟩, hfree, hset⟩
              refine ⟨hnodup, ?_, hset⟩
              intro other hother
              refine ⟨(hfree other hother).1, ?_⟩
              rw [if_neg, (hfree other hother).2]
              intro hkey
              exact hnot (hkey ▸ List.mem_map_of_mem hother)
      · simp [insertPersistedUtxos, UtxoSet.insert, hnetwork]

namespace ChainSnapshotBundle

/-- What importing a bundle makes sure of. -/
structure Checked (crypto : Crypto) (network : Network) (bundle : ChainSnapshotBundle) :
    Prop where
  first : ∃ first ∈ bundle.blocks.head?, first.header.height = 0 ∧
    first.header.blockHash crypto = genesisHash crypto network
  last : ∃ last ∈ bundle.blocks.getLast?, last.header.height = bundle.snapshot.height ∧
    last.header.blockHash crypto = bundle.snapshot.tipHash
  keys : (bundle.utxos.map UtxoEntry.key).Nodup
  networks : ∀ entry ∈ bundle.utxos, entry.network = network

/-- What importing a bundle leaves unchecked: that the blocks are a chain, that the
tip is the header of the last one, and that the entries are the replay. -/
structure Consistent (crypto : Crypto) (network : Network) (bundle : ChainSnapshotBundle) :
    Prop where
  linked : bundle.blocks.IsChain fun left right =>
    right.header.previousBlockHash = left.header.blockHash crypto ∧
      right.header.height.toNat = left.header.height.toNat + 1
  tipHeader : bundle.snapshot.tipHeader = bundle.blocks.getLast?.map Block.header
  replayed : ∃ set,
    replayBlocks crypto (UtxoSet.genesisUtxos crypto network) bundle.blocks.tail = .ok set ∧
      ∀ entry, entry ∈ bundle.utxos ↔ set.get entry.key = some entry

/-- One chain from genesis to the snapshot's tip, together with its UTXO set. -/
structure Sound (crypto : Crypto) (network : Network) (bundle : ChainSnapshotBundle) :
    Prop extends Consistent crypto network bundle where
  first : ∃ first ∈ bundle.blocks.head?, first.header.height = 0 ∧
    first.header.blockHash crypto = genesisHash crypto network
  last : ∃ last ∈ bundle.blocks.getLast?, last.header.height = bundle.snapshot.height ∧
    last.header.blockHash crypto = bundle.snapshot.tipHash

theorem check_eq_ok {crypto : Crypto} {network : Network} {bundle : ChainSnapshotBundle}
    {utxos : UtxoSet} :
    bundle.check crypto network = .ok utxos ↔
      bundle.Checked crypto network ∧ utxos = (UtxoSet.new network).insertAll bundle.utxos := by
  simp only [check, bind_eq_ok, okOr_eq_ok, rejectWhen_eq_ok, insertPersistedUtxos_eq_ok,
    decide_eq_false_iff_not, not_or, not_not, UtxoSet.get_new, and_true]
  constructor
  · rintro ⟨last, hlast, -, hmatches, first, hfirst, -, hgenesis, hkeys, hnetworks, rfl⟩
    exact ⟨⟨⟨first, hfirst, hgenesis⟩, ⟨last, hlast, hmatches⟩, hkeys, hnetworks⟩, rfl⟩
  · rintro ⟨⟨⟨first, hfirst, hgenesis⟩, ⟨last, hlast, hmatches⟩, hkeys, hnetworks⟩, rfl⟩
    exact ⟨last, hlast, (), hmatches, first, hfirst, (), hgenesis, hkeys, hnetworks, rfl⟩

end ChainSnapshotBundle

namespace Chainstate

/-- Nothing has changed but what a failed replacement left in the database. -/
def UnchangedBy (host : Host σ) (bundle : ChainSnapshotBundle) (err : StorageError)
    (state after : Chainstate σ) : Prop :=
  after = state ∨ ∃ storage utxos left, state.storage = some storage ∧
    host.replaceChainstate storage bundle.snapshot utxos bundle.blocks = (.error err, left) ∧
    after = { state with storage := some left }

/-- The database takes the bundle, if there is one. -/
def Stores (host : Host σ) (bundle : ChainSnapshotBundle) (state : Chainstate σ) : Prop :=
  ∀ storage ∈ state.storage, (host.replaceChainstate storage bundle.snapshot
    ((UtxoSet.new state.network).insertAll bundle.utxos) bundle.blocks).1 = .ok ()

theorem importSnapshotBundle_eq_ok {host : Host σ} {state : Chainstate σ}
    {bundle : ChainSnapshotBundle} :
    (state.importSnapshotBundle host bundle).1 = .ok () ↔
      bundle.Checked host.crypto state.network ∧ state.Stores host bundle := by
  unfold importSnapshotBundle
  split
  · next err hcheck =>
      simp only [reduceCtorEq, false_iff, not_and]
      intro hchecked
      rw [ChainSnapshotBundle.check_eq_ok.mpr ⟨hchecked, rfl⟩] at hcheck
      cases hcheck
  · next utxos hcheck =>
      obtain ⟨hchecked, rfl⟩ := ChainSnapshotBundle.check_eq_ok.mp hcheck
      rw [and_iff_right hchecked, Stores]
      cases hstorage : state.storage with
      | none => simp [persist_of_none hstorage]
      | some storage =>
          rcases hreplace : host.replaceChainstate storage bundle.snapshot
            ((UtxoSet.new state.network).insertAll bundle.utxos) bundle.blocks with
            ⟨err | _, left⟩ <;> simp [persist_of_some hstorage, hreplace]

theorem importSnapshotBundle_error {host : Host σ} {state : Chainstate σ}
    {bundle : ChainSnapshotBundle} {err : StorageError}
    (himport : (state.importSnapshotBundle host bundle).1 = .error err) :
    state.UnchangedBy host bundle err (state.importSnapshotBundle host bundle).2 := by
  unfold importSnapshotBundle at himport ⊢
  split at himport
  · exact .inl rfl
  · next utxos hcheck =>
      cases hstorage : state.storage with
      | none => simp [persist_of_none hstorage] at himport
      | some storage =>
          rcases hreplace : host.replaceChainstate storage bundle.snapshot utxos bundle.blocks with
            ⟨failure | _, left⟩
          · simp only [persist_of_some hstorage, hreplace] at himport ⊢
            cases himport
            exact .inr ⟨storage, utxos, left, hstorage, hreplace, rfl⟩
          · simp only [persist_of_some hstorage, hreplace] at himport
            cases himport

/-- A bundle of the genesis block alone, with a coin that no block has made. -/
def forgedBundle : ChainSnapshotBundle where
  snapshot := ⟨0, genesisHash .hashing .regnet, some (genesisBlock .hashing .regnet).header⟩
  utxos := [⟨.regnet, .zero 48, 0, 1000000000000, List.replicate 32 1, 0, false⟩]
  blocks := [genesisBlock .hashing .regnet]

end Chainstate

end Atho
