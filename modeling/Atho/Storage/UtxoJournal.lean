import Atho.Core.Genesis
import Atho.Library.Journal
import Atho.Storage.Utxo

/-! Applying a block as a run of takes and puts, and when the undo journal
brings the set back. -/

namespace Atho

open Journal

abbrev UtxoOp := Op UtxoKey UtxoEntry

def UtxoEntry.keyed (entry : UtxoEntry) : UtxoKey × UtxoEntry :=
  (entry.key, entry)

def spendOps (inputs : List TxInput) : List UtxoOp :=
  inputs.map fun input => .take input.key

def createOps (outputs : List UtxoEntry) : List UtxoOp :=
  outputs.map fun output => .put output.key output

/-- What a transaction does to the set, inputs before outputs. -/
def transactionOps (crypto : Crypto) (network : Network) (height : UInt64)
    (tx : Transaction) : List UtxoOp :=
  spendOps tx.inputs ++ createOps (UtxoSet.createOutputs crypto tx network height)

def blockBatches (crypto : Crypto) (network : Network) (block : Block) :
    List (List UtxoOp) :=
  block.transactions.map (transactionOps crypto network block.header.height)

def blockOps (crypto : Crypto) (network : Network) (block : Block) : List UtxoOp :=
  (blockBatches crypto network block).flatten

/-- The operations that count as done when the block cannot be applied, and the
operation that stopped it. -/
def blockHalt (crypto : Crypto) (set : UtxoSet) (block : Block) :
    List UtxoOp × Option UtxoOp :=
  halt set.get (blockBatches crypto set.network block)

namespace UtxoSet

/-! The bulk operations on the entries. -/

theorem get_removeAll (set : UtxoSet) (entries : List UtxoEntry) :
    (set.removeAll entries).get = eraseAll set.get (entries.map UtxoEntry.key) := by
  induction entries generalizing set with
  | nil => rfl
  | cons entry entries ih =>
      change ((set.drop entry.key).removeAll entries).get = _
      rw [ih, get_drop]
      rfl

theorem removeAll_network (set : UtxoSet) (entries : List UtxoEntry) :
    (set.removeAll entries).network = set.network := by
  induction entries generalizing set with
  | nil => rfl
  | cons entry entries ih => exact ih (set.drop entry.key)

theorem insertAll_network (set : UtxoSet) (entries : List UtxoEntry) :
    (set.insertAll entries).network = set.network := by
  induction entries generalizing set with
  | nil => rfl
  | cons entry entries ih => exact (ih _).trans (set.insert_network entry)

theorem get_insertAll {set : UtxoSet} {entries : List UtxoEntry}
    (hnetwork : ∀ entry ∈ entries, entry.network = set.network) :
    (set.insertAll entries).get = restoreAll set.get (entries.map UtxoEntry.keyed) := by
  induction entries generalizing set with
  | nil => rfl
  | cons entry entries ih =>
      simp only [List.forall_mem_cons] at hnetwork
      change ((set.insert entry).2.insertAll entries).get = _
      rw [insert_snd hnetwork.1, ih (by simpa using hnetwork.2), get_put]
      rfl

theorem disconnectBlock_network (set : UtxoSet) (undo : BlockUndo) :
    (set.disconnectBlock undo).network = set.network :=
  (insertAll_network _ _).trans (removeAll_network _ _)

theorem get_disconnectBlock {set : UtxoSet} {undo : BlockUndo}
    (hnetwork : ∀ entry ∈ undo.spent, entry.network = set.network) :
    (set.disconnectBlock undo).get =
      rollback set.get (undo.created.map UtxoEntry.key)
        (undo.spent.map UtxoEntry.keyed) := by
  rw [disconnectBlock, get_insertAll (by simpa [removeAll_network] using hnetwork),
    get_removeAll]
  rfl

theorem insert_drop {set : UtxoSet} (hget : set.get key = some entry) :
    ((set.drop key).insert entry).2 = set := by
  have hkey := key_eq_of_get hget
  have hnetwork : entry.network = set.network := network_eq_of_get hget
  rw [insert_snd (by simpa using hnetwork)]
  refine UtxoSet.ext rfl ?_
  rw [get_put, get_drop, hkey, Function.update_idem, ← hget, Function.update_eq_self]

/-! Spending inputs. -/

theorem spendInputsFrom_error {set set' : UtxoSet} {spent : List UtxoEntry}
    {inputs : List TxInput} {err : StorageError}
    (hspend : set.spendInputsFrom spent inputs = (.error err, set')) :
    err = .missingUtxo ∧ set' = set.insertAll spent.reverse := by
  induction inputs generalizing set spent with
  | nil => simp [spendInputsFrom] at hspend
  | cons input inputs ih =>
      cases hget : set.get input.key with
      | none =>
          have hdrop : set.drop input.key = set := by
            refine UtxoSet.ext rfl ?_
            rw [get_drop, ← hget, Function.update_eq_self]
          simp only [spendInputsFrom, remove, hget, okOr, hdrop, Prod.mk.injEq,
            Except.error.injEq] at hspend
          exact ⟨hspend.1.symm, hspend.2.symm⟩
      | some entry =>
          simp only [spendInputsFrom, remove, hget, okOr] at hspend
          obtain ⟨herr, hset⟩ := ih hspend
          refine ⟨herr, ?_⟩
          rw [hset, List.reverse_append]
          change ((set.drop input.key).insert entry).2.insertAll spent.reverse = _
          rw [insert_drop hget]

theorem spendInputsFrom_spec (set : UtxoSet) (spent : List UtxoEntry)
    (inputs : List TxInput) :
    (Runs set.get (spendOps inputs) ∧
      ∃ taking set', set.spendInputsFrom spent inputs = (.ok (spent ++ taking), set') ∧
        taking.map UtxoEntry.keyed = taken set.get (spendOps inputs) ∧
        (∀ entry ∈ taking, entry.network = set.network) ∧
        set'.network = set.network ∧ set'.get = applyAll set.get (spendOps inputs)) ∨
    (¬ Runs set.get (spendOps inputs) ∧
      ∃ set', set.spendInputsFrom spent inputs = (.error .missingUtxo, set')) := by
  induction inputs generalizing set spent with
  | nil => exact .inl ⟨trivial, [], set, by simp [spendInputsFrom], rfl, by simp, rfl, rfl⟩
  | cons input inputs ih =>
      cases hget : set.get input.key with
      | none =>
          refine .inr ⟨by simp [spendOps, Runs, Op.enabled, hget], ?_⟩
          simp [spendInputsFrom, remove, hget, okOr]
      | some entry =>
          have hstep : set.spendInputsFrom spent (input :: inputs) =
              (set.drop input.key).spendInputsFrom (spent ++ [entry]) inputs := by
            simp [spendInputsFrom, remove, hget, okOr]
          have hruns : Runs set.get (spendOps (input :: inputs)) ↔
              Runs (set.drop input.key).get (spendOps inputs) := by
            simp [spendOps, Runs, Op.enabled, Op.apply, hget, get_drop]
          rw [hstep, hruns]
          rcases ih (set.drop input.key) (spent ++ [entry]) with
            ⟨hrest, taking, set', hspend, htaken, hentries, hnetwork, hset⟩ | ⟨hrest, hspend⟩
          · refine .inl ⟨hrest, entry :: taking, set', by simpa using hspend, ?_, ?_,
              hnetwork, ?_⟩
            · rw [get_drop] at htaken
              simpa [spendOps, taken, hget, UtxoEntry.keyed, key_eq_of_get hget] using htaken
            · exact List.forall_mem_cons.mpr ⟨network_eq_of_get hget, hentries⟩
            · rw [hset, get_drop]
              rfl
          · exact .inr ⟨hrest, hspend⟩

/-! Journals. -/

/-- The set after `ops` were done on `start`, with the journal written so far. -/
structure Journaled (start : UtxoSet) (ops : List UtxoOp) (set : UtxoSet)
    (undo : BlockUndo) : Prop where
  runs : Runs start.get ops
  network : set.network = start.network
  get : set.get = applyAll start.get ops
  spent : undo.spent.map UtxoEntry.keyed = taken start.get ops
  created : undo.created.map UtxoEntry.key = puts ops
  spentNetwork : ∀ entry ∈ undo.spent, entry.network = start.network

theorem Journaled.start (set : UtxoSet) : Journaled set [] set ⟨[], []⟩ :=
  ⟨trivial, rfl, rfl, rfl, rfl, by simp⟩

/-- Disconnecting rolls the journal back, also from a set in which a clashing
output has overwritten an entry. -/
theorem Journaled.get_disconnect {start set set' : UtxoSet} {ops : List UtxoOp}
    {undo : BlockUndo} (hjournaled : Journaled start ops set undo)
    (stopped : Option UtxoOp) (hnetwork : set'.network = start.network)
    (hset' : set'.get = clobber set.get stopped) :
    (set'.disconnectBlock undo).get = recovered start.get ops stopped := by
  have hspent : ∀ entry ∈ undo.spent, entry.network = set'.network := by
    simpa [hnetwork] using hjournaled.spentNetwork
  rw [get_disconnectBlock hspent, hset', hjournaled.get, hjournaled.spent,
    hjournaled.created]
  rfl

theorem puts_spendOps (inputs : List TxInput) : puts (spendOps inputs) = [] := by
  induction inputs with
  | nil => rfl
  | cons input inputs ih => exact ih

theorem Journaled.spend {start set set' : UtxoSet} {ops : List UtxoOp} {undo : BlockUndo}
    {inputs : List TxInput} {spent : List UtxoEntry}
    (hjournaled : Journaled start ops set undo) (hruns : Runs set.get (spendOps inputs))
    (hspent : spent.map UtxoEntry.keyed = taken set.get (spendOps inputs))
    (hnetwork : set'.network = set.network)
    (hset' : set'.get = applyAll set.get (spendOps inputs))
    (hspentNetwork : ∀ entry ∈ spent, entry.network = set.network) :
    Journaled start (ops ++ spendOps inputs) set'
      { undo with spent := undo.spent ++ spent } := by
  refine ⟨?_, hnetwork.trans hjournaled.network, ?_, ?_, ?_, ?_⟩
  · exact (runs_append _ _ _).mpr ⟨hjournaled.runs, hjournaled.get ▸ hruns⟩
  · rw [hset', hjournaled.get, applyAll_append]
  · rw [List.map_append, hjournaled.spent, hspent, hjournaled.get, taken_append]
  · rw [hjournaled.created, puts_append, puts_spendOps, List.append_nil]
  · intro entry hentry
    rcases List.mem_append.mp hentry with hold | hnew
    · exact hjournaled.spentNetwork entry hold
    · exact (hspentNetwork entry hnew).trans hjournaled.network

theorem Journaled.create {start set : UtxoSet} {ops : List UtxoOp} {undo : BlockUndo}
    {output : UtxoEntry} (hjournaled : Journaled start ops set undo)
    (hfree : set.get output.key = none) (hnetwork : output.network = set.network) :
    Journaled start (ops ++ [.put output.key output]) (set.put output hnetwork)
      { undo with created := undo.created ++ [output] } := by
  refine ⟨?_, hjournaled.network, ?_, ?_, ?_, hjournaled.spentNetwork⟩
  · refine (runs_append _ _ _).mpr ⟨hjournaled.runs, ?_, trivial⟩
    simp [Op.enabled, ← hjournaled.get, hfree]
  · rw [get_put, hjournaled.get, applyAll_snoc]
    rfl
  · simp [hjournaled.spent, taken_append, taken]
  · simp [hjournaled.created, puts_append, puts]

/-- The error that an operation which cannot be done is reported as. -/
def blame : UtxoOp → StorageError
  | .take _ => .missingUtxo
  | .put _ _ => .duplicateUtxo

/-- How a run over `done` ended that stopped at `stopped`. -/
def Settles (start : UtxoSet) (done : List UtxoOp) (stopped : Option UtxoOp) :
    Except StorageError BlockUndo × UtxoSet → Prop
  | (.ok undo, set) => stopped = none ∧ Journaled start done set undo
  | (.error err, set) =>
      ∃ op, stopped = some op ∧ err = blame op ∧ set.network = start.network ∧
        set.get = recovered start.get done stopped

theorem insertOutputs_settles {start set : UtxoSet} {ops : List UtxoOp} {undo : BlockUndo}
    {outputs : List UtxoEntry} (hjournaled : Journaled start ops set undo)
    (hnetwork : ∀ output ∈ outputs, output.network = start.network) :
    Settles start (ops ++ (advance set.get (createOps outputs)).1)
      (advance set.get (createOps outputs)).2 (set.insertOutputs undo outputs) := by
  induction outputs generalizing set undo ops with
  | nil => simpa [Settles, createOps, advance, insertOutputs] using hjournaled
  | cons output outputs ih =>
      simp only [List.forall_mem_cons] at hnetwork
      have houtput : output.network = set.network := hnetwork.1.trans hjournaled.network.symm
      cases hget : set.get output.key with
      | none =>
          have hrest := ih (hjournaled.create hget houtput) hnetwork.2
          rw [get_put, List.append_assoc] at hrest
          simpa [insertOutputs, insert_of_network houtput, hget, createOps, advance,
            Op.enabled, Op.apply] using hrest
      | some held =>
          have hclash : ((set.put output houtput).disconnectBlock undo).get =
              recovered start.get ops (some (.put output.key output)) :=
            hjournaled.get_disconnect _ hjournaled.network (get_put _ _ houtput)
          simpa [insertOutputs, insert_of_network houtput, hget, createOps, advance,
            Op.enabled, Settles, blame, disconnectBlock_network, hjournaled.network]
            using hclash

theorem createOutputs_network (crypto : Crypto) (tx : Transaction) (network : Network)
    (height : UInt64) :
    ∀ output ∈ createOutputs crypto tx network height, output.network = network := by
  intro output houtput
  simp only [createOutputs, List.mem_mapIdx] at houtput
  obtain ⟨index, hindex, rfl⟩ := houtput
  rfl

theorem stopped_createOps {store : UtxoKey → Option UtxoEntry} {outputs : List UtxoEntry}
    {op : UtxoOp} (hstopped : (advance store (createOps outputs)).2 = some op) :
    ∃ output, op = .put output.key output := by
  obtain ⟨output, -, hop⟩ := List.mem_map.mp (advance_stopped_mem hstopped)
  exact ⟨output, hop.symm⟩

theorem stopped_spendOps {store : UtxoKey → Option UtxoEntry} {inputs : List TxInput}
    (hruns : ¬ Runs store (spendOps inputs)) :
    ∃ key, (advance store (spendOps inputs)).2 = some (.take key) := by
  cases hstopped : (advance store (spendOps inputs)).2 with
  | none => exact absurd (advance_complete.mp hstopped) hruns
  | some op =>
      obtain ⟨input, -, rfl⟩ := List.mem_map.mp (advance_stopped_mem hstopped)
      exact ⟨input.key, rfl⟩

theorem applyTransaction_settles (crypto : Crypto) (height : UInt64) {start set : UtxoSet}
    {ops : List UtxoOp} {undo : BlockUndo} (tx : Transaction)
    (hjournaled : Journaled start ops set undo) :
    let halted := haltBatch set.get (transactionOps crypto start.network height tx)
    Settles start (ops ++ halted.1) halted.2
      (set.applyTransaction crypto height undo tx) := by
  simp only [applyTransaction, spendInputs]
  rcases set.spendInputsFrom_spec [] tx.inputs with
    ⟨hruns, spent, middle, hspend, hspent, hentries, hnetwork, hmiddle⟩ |
    ⟨hruns, failed, hspend⟩
  · have hjournaled' := hjournaled.spend hruns hspent hnetwork hmiddle hentries
    have hsettles := insertOutputs_settles hjournaled'
      (createOutputs_network crypto tx start.network height)
    have hbatch : advance set.get (transactionOps crypto start.network height tx) = _ :=
      advance_append set.get (spendOps tx.inputs)
        (createOps (createOutputs crypto tx start.network height))
    rw [if_pos (advance_complete.mpr hruns), ← hmiddle] at hbatch
    have hhalt : haltBatch set.get (transactionOps crypto start.network height tx) =
        advance set.get (transactionOps crypto start.network height tx) := by
      -- The spends went through, so only an output can have stopped the batch.
      unfold haltBatch
      split
      · next key hstopped =>
          rw [hbatch] at hstopped
          obtain ⟨output, hop⟩ := stopped_createOps hstopped
          cases hop
      · rfl
    rw [hspend, hhalt, hbatch]
    simp only [List.nil_append, hjournaled'.network]
    rwa [List.append_assoc] at hsettles
  · obtain ⟨-, hfailed⟩ := spendInputsFrom_error hspend
    obtain ⟨key, hstopped⟩ := stopped_spendOps hruns
    have hbatch : (advance set.get (transactionOps crypto start.network height tx)).2 =
        some (.take key) := by
      rw [transactionOps, advance_append, if_neg (by simp [hstopped]), hstopped]
    have hnetwork : failed.network = start.network := by
      rw [hfailed, insertAll_network, hjournaled.network]
    have hget : failed.get = clobber set.get (some (.take key)) := by
      rw [hfailed]
      rfl
    rw [hspend, haltBatch_of_take hbatch, List.append_nil]
    refine ⟨.take key, rfl, rfl, ?_, hjournaled.get_disconnect _ hnetwork hget⟩
    rw [disconnectBlock_network, hnetwork]

theorem applyTransactions_settles (crypto : Crypto) (height : UInt64) {start set : UtxoSet}
    {ops : List UtxoOp} {undo : BlockUndo} (transactions : List Transaction)
    (hjournaled : Journaled start ops set undo) :
    let halted := halt set.get
      (transactions.map (transactionOps crypto start.network height))
    Settles start (ops ++ halted.1) halted.2
      (applyTransactions crypto height set undo transactions) := by
  induction transactions generalizing set undo ops with
  | nil => simpa [Settles, halt, applyTransactions] using hjournaled
  | cons tx transactions ih =>
      have hsettles := applyTransaction_settles crypto height tx hjournaled
      simp only [List.map_cons, applyTransactions] at hsettles ⊢
      rcases hresult : set.applyTransaction crypto height undo tx with ⟨err | undo', set'⟩
      · rw [hresult] at hsettles
        obtain ⟨op, hstopped, -⟩ := id hsettles
        rw [halt_cons_of_stopped hstopped]
        exact hsettles
      · rw [hresult] at hsettles
        obtain ⟨hcomplete, hnext⟩ := hsettles
        have hruns := haltBatch_complete.mp hcomplete
        rw [haltBatch_of_runs hruns] at hnext
        have hrest := ih hnext
        have hset' : set'.get =
            applyAll set.get (transactionOps crypto start.network height tx) := by
          rw [hnext.get, applyAll_append, ← hjournaled.get]
        rw [halt_cons_of_complete hruns]
        simpa [hset'] using hrest

theorem applyBlock_settles (crypto : Crypto) (set : UtxoSet) (block : Block) :
    Settles set (blockHalt crypto set block).1 (blockHalt crypto set block).2
      (set.applyBlock crypto block) :=
  applyTransactions_settles crypto block.header.height block.transactions (.start set)

theorem journaled_of_applyBlock {crypto : Crypto} {set set' : UtxoSet} {block : Block}
    {undo : BlockUndo} (happly : set.applyBlock crypto block = (.ok undo, set')) :
    Journaled set (blockOps crypto set.network block) set' undo := by
  have hsettles := applyBlock_settles crypto set block
  rw [happly] at hsettles
  obtain ⟨hcomplete, hjournaled⟩ := hsettles
  rwa [blockHalt, halt_fst_of_complete (halt_complete.mp hcomplete)] at hjournaled

theorem applyBlock_ok_iff {crypto : Crypto} {set : UtxoSet} {block : Block} :
    (∃ undo set', set.applyBlock crypto block = (.ok undo, set')) ↔
      Runs set.get (blockOps crypto set.network block) := by
  constructor
  · rintro ⟨undo, set', happly⟩
    exact (journaled_of_applyBlock happly).runs
  · intro hruns
    have hsettles := applyBlock_settles crypto set block
    match hresult : set.applyBlock crypto block with
    | (.ok undo, set') => exact ⟨undo, set', rfl⟩
    | (.error err, set') =>
        rw [hresult] at hsettles
        obtain ⟨op, hstopped, -⟩ := hsettles
        rw [blockHalt, halt_complete.mpr hruns] at hstopped
        cases hstopped

theorem entries_eq_iff {left right : UtxoSet} :
    left.entries = right.entries ↔ left.get = right.get :=
  ⟨fun heq => by unfold get; rw [heq], fun heq => Finmap.ext_lookup (congrFun heq)⟩

/-- Disconnecting a block brings the entries back exactly when every output that
the block created and then spent, last of all under its key, was in the set
before. -/
theorem disconnectBlock_restores_iff {crypto : Crypto} {set set' : UtxoSet} {block : Block}
    {undo : BlockUndo} (happly : set.applyBlock crypto block = (.ok undo, set')) :
    (set'.disconnectBlock undo).entries = set.entries ↔
      ∀ key entry, retaken (blockOps crypto set.network block) key = some entry →
        set.get key = some entry := by
  have hjournaled := journaled_of_applyBlock happly
  rw [entries_eq_iff, hjournaled.get_disconnect none hjournaled.network rfl,
    recovered_eq_iff hjournaled.runs]
  simp

/-! Blocks that spend an output of their own. -/

def createdKeys (crypto : Crypto) (block : Block) : List UtxoKey :=
  block.transactions.flatMap fun tx =>
    tx.outputs.mapIdx fun outputIndex _ => ⟨tx.txid crypto, UInt32.ofNat outputIndex⟩

def spentKeys (block : Block) : List UtxoKey :=
  block.transactions.flatMap fun tx => tx.inputs.map TxInput.key

def spendsOwnOutput (crypto : Crypto) (block : Block) : Bool :=
  (spentKeys block).any fun key => (createdKeys crypto block).contains key

theorem take_mem_blockOps {crypto : Crypto} {network : Network} {block : Block} :
    .take key ∈ blockOps crypto network block ↔ key ∈ spentKeys block := by
  simp [blockOps, blockBatches, transactionOps, spendOps, createOps, spentKeys]

theorem mem_createdKeys_of_put {crypto : Crypto} {network : Network} {block : Block}
    (hput : .put key entry ∈ blockOps crypto network block) :
    key ∈ createdKeys crypto block := by
  simp only [blockOps, blockBatches, transactionOps, spendOps, createOps, createOutputs,
    List.mem_flatten, List.mem_map, exists_exists_and_eq_and, List.mem_append,
    reduceCtorEq, and_false, exists_false, false_or, List.mem_mapIdx, Op.put.injEq] at hput
  obtain ⟨tx, htx, output, ⟨index, hindex, rfl⟩, rfl, -⟩ := hput
  simp only [createdKeys, List.mem_flatMap, List.mem_mapIdx]
  exact ⟨tx, htx, index, hindex, rfl⟩

theorem retaken_eq_none {crypto : Crypto} {network : Network} {block : Block}
    (hown : spendsOwnOutput crypto block = false) (key : UtxoKey) :
    retaken (blockOps crypto network block) key = none := by
  refine Option.eq_none_iff_forall_ne_some.mpr fun entry hretaken => ?_
  obtain ⟨hput, htake⟩ := mem_of_retaken hretaken
  simp only [spendsOwnOutput, List.any_eq_false, List.contains_iff_mem] at hown
  exact hown key (take_mem_blockOps.mp htake) (mem_createdKeys_of_put hput)

theorem disconnectBlock_applyBlock {crypto : Crypto} {set set' : UtxoSet} {block : Block}
    {undo : BlockUndo} (happly : set.applyBlock crypto block = (.ok undo, set'))
    (hown : spendsOwnOutput crypto block = false) : set'.disconnectBlock undo = set := by
  have hjournaled := journaled_of_applyBlock happly
  refine UtxoSet.ext ((disconnectBlock_network _ _).trans hjournaled.network) ?_
  rw [hjournaled.get_disconnect none hjournaled.network rfl,
    recovered_eq_iff hjournaled.runs]
  simp [retaken_eq_none hown]

/-! A block whose third transaction spends what its second one pays. -/

def relayLock : List UInt8 := List.replicate 32 7

def relayEntry : UtxoEntry where
  network := .regnet
  txid := .zero 48
  outputIndex := 0
  valueAtoms := 1000
  lockingScript := relayLock
  createdHeight := 1
  isCoinbase := false

def relaySet : UtxoSet :=
  ((UtxoSet.new .regnet).insert relayEntry).2

def relayPayment (inputs : List TxInput) (atoms : UInt64) : Transaction where
  version := 1
  inputs := inputs
  outputs := [⟨atoms, relayLock⟩]
  lockTime := 0
  witness := []
  txPowNonce := 0
  txPowBits := 0

def relayFirst : Transaction :=
  relayPayment [⟨.zero 48, 0, relayLock⟩] 900

def relaySecond : Transaction :=
  relayPayment [⟨relayFirst.txid .hashing, 0, relayLock⟩] 800

def relayBlock : Block where
  header := { (genesisBlock .hashing .regnet).header with height := 2 }
  transactions := [relayPayment [] 5000000000, relayFirst, relaySecond]

/-- The output that was created and spent inside the block is in the set once
the block has been disconnected. -/
theorem disconnectBlock_revives_relayed_output :
    (match relaySet.applyBlock .hashing relayBlock with
      | (.ok undo, set) =>
          (set.disconnectBlock undo).get ⟨relayFirst.txid .hashing, 0⟩
      | (.error _, _) => none) =
        some ⟨.regnet, relayFirst.txid .hashing, 0, 900, relayLock, 2, false⟩ ∧
      relaySet.get ⟨relayFirst.txid .hashing, 0⟩ = none := by
  decide +kernel

/-- The same block without that transaction. -/
def plainBlock : Block :=
  { relayBlock with transactions := [relayPayment [] 5000000000, relayFirst] }

theorem disconnectBlock_restores_plain :
    ∃ undo set', relaySet.applyBlock .hashing plainBlock = (.ok undo, set') ∧
      (set'.disconnectBlock undo).entries = relaySet.entries := by
  have hok : (relaySet.applyBlock .hashing plainBlock).1.isOk = true := by decide +kernel
  match happly : relaySet.applyBlock .hashing plainBlock with
  | (.error err, set') => simp [happly, Except.isOk, Except.toBool] at hok
  | (.ok undo, set') =>
      refine ⟨undo, set', rfl, (disconnectBlock_restores_iff happly).mpr ?_⟩
      have hown : spendsOwnOutput .hashing plainBlock = false := by decide +kernel
      simp [retaken_eq_none hown]

/-- A failed block leaves the entries as they were exactly when the part that
had been done retook nothing new and no clashing output overwrote an entry that
the part had not touched, other than with itself. -/
theorem applyBlock_error_restores_iff {crypto : Crypto} {set set' : UtxoSet} {block : Block}
    {err : StorageError} (happly : set.applyBlock crypto block = (.error err, set')) :
    set'.entries = set.entries ↔
      (∀ key entry, retaken (blockHalt crypto set block).1 key = some entry →
        set.get key = some entry) ∧
      (∀ key entry, (blockHalt crypto set block).2 = some (.put key entry) →
        key ∉ (blockHalt crypto set block).1.map Op.key → set.get key = some entry) := by
  have hsettles := applyBlock_settles crypto set block
  rw [happly] at hsettles
  obtain ⟨op, -, -, -, hget⟩ := hsettles
  rw [entries_eq_iff, hget]
  exact recovered_eq_iff (halt_runs _ _)

/-- The set of a chain that has only its genesis block. -/
def genesisUtxos (crypto : Crypto) (network : Network) : UtxoSet :=
  (UtxoSet.new network).insertAll
    (createOutputs crypto (genesisCoinbase network) network 0)

theorem genesisUtxos_network (crypto : Crypto) (network : Network) :
    (genesisUtxos crypto network).network = network :=
  insertAll_network _ _

/-- A mined block on the regnet genesis that pays its reward the way genesis does. -/
def echoBlock : Block where
  header :=
    { (genesisBlock .hashing .regnet).header with
      height := 1
      previousBlockHash := genesisHash .hashing .regnet
      timestamp := 1773360600
      nonce := 10952 }
  transactions := [genesisCoinbase .regnet]

/-- Reporting the duplicate does not bring back the entry it overwrote. -/
theorem applyBlock_overwrites_genesis_entry :
    let key : UtxoKey := ⟨(genesisCoinbase .regnet).txid .hashing, 0⟩
    let result := (genesisUtxos .hashing .regnet).applyBlock .hashing echoBlock
    (match result.1 with
      | .ok _ => false
      | .error err => err == .duplicateUtxo) = true ∧
      ((genesisUtxos .hashing .regnet).get key).map UtxoEntry.createdHeight = some 0 ∧
      (result.2.get key).map UtxoEntry.createdHeight = some 1 := by
  decide +kernel

/-- A block that fails at its first input leaves everything as it was. -/
theorem applyBlock_missing_input_restores :
    ∃ err set', relaySet.applyBlock .hashing
        { relayBlock with transactions := [relaySecond] } = (.error err, set') ∧
      set'.entries = relaySet.entries := by
  have hhalt : blockHalt .hashing relaySet { relayBlock with transactions := [relaySecond] } =
      ([], some (.take ⟨relayFirst.txid .hashing, 0⟩)) := by
    decide +kernel
  match happly : relaySet.applyBlock .hashing
      { relayBlock with transactions := [relaySecond] } with
  | (.ok undo, set') =>
      have hruns := (journaled_of_applyBlock happly).runs
      have hcomplete := halt_complete.mpr hruns
      change (blockHalt _ _ _).2 = none at hcomplete
      simp [hhalt] at hcomplete
  | (.error err, set') =>
      refine ⟨err, set', rfl, (applyBlock_error_restores_iff happly).mpr ?_⟩
      simp [hhalt, retaken, trail]

end UtxoSet

end Atho
