import Atho.Storage.Database

/-! What each write of a transaction does to the tables, and what the database calls
leave behind when they fail. -/

namespace Atho

open Journal

/-- The record without the marks that later writes set and clear. -/
def BlockArchiveRecord.unmarked (record : BlockArchiveRecord) : BlockArchiveRecord :=
  { record with mainChain := false, pruned := false }

theorem BlockArchiveRecord.place_of_unmarked {record other : BlockArchiveRecord}
    (hunmarked : record.unmarked = other.unmarked) :
    record.fileLocation = other.fileLocation ∧ record.chainwork = other.chainwork := by
  simp only [unmarked, mk.injEq] at hunmarked
  simp only [hunmarked, and_self]

namespace Tables

variable {crypto : Crypto} {network : Network} {tables next : Tables}

/-! The transaction index. -/

section Index

variable {height : UInt64} {blockHash : Bytes 48} {transactions : List Transaction}

theorem lookup_indexTransactions_of_notMem {txid : Bytes 48}
    (hnew : txid ∉ transactions.map (Transaction.txid crypto)) (txIndex : Nat)
    (index : Finmap fun _ : Bytes 48 => IndexedTransaction) :
    (indexTransactions crypto height blockHash txIndex index transactions).lookup txid =
      index.lookup txid := by
  induction transactions generalizing txIndex index with
  | nil => rfl
  | cons tx rest ih =>
      rw [List.map_cons, List.mem_cons, not_or] at hnew
      rw [indexTransactions, ih hnew.2]
      exact Finmap.lookup_insert_of_ne _ hnew.1

theorem lookup_indexTransactions
    (hnodup : (transactions.map (Transaction.txid crypto)).Nodup) (start : Nat)
    (index : Finmap fun _ : Bytes 48 => IndexedTransaction) {txIndex : Nat} {tx : Transaction}
    (htx : transactions[txIndex]? = some tx) :
    (indexTransactions crypto height blockHash start index transactions).lookup
        (tx.txid crypto) =
      some ⟨⟨height, tx⟩, blockHash, UInt32.ofNat (start + txIndex), tx.txid crypto⟩ := by
  induction transactions generalizing start index txIndex with
  | nil => cases htx
  | cons first rest ih =>
      rw [List.map_cons, List.nodup_cons] at hnodup
      rw [indexTransactions]
      cases txIndex with
      | zero =>
          cases htx
          rw [lookup_indexTransactions_of_notMem hnodup.1]
          exact Finmap.lookup_insert _
      | succ txIndex =>
          rw [ih hnodup.2 _ _ htx, Nat.add_assoc, Nat.add_comm 1]

theorem loadIndexedTransactions_eq {start : Nat}
    (hindexed : ∀ txIndex tx, transactions[txIndex]? = some tx →
      tables.transactions.lookup (tx.txid crypto) =
        some ⟨⟨height, tx⟩, blockHash, UInt32.ofNat (start + txIndex), tx.txid crypto⟩) :
    ∃ records, tables.loadIndexedTransactions blockHash height start
        (transactions.map (Transaction.txid crypto)) = .ok records ∧
      records.map (fun record => record.transaction) = transactions := by
  induction transactions generalizing start with
  | nil => exact ⟨[], rfl, rfl⟩
  | cons first rest ih =>
      have hrest : ∀ txIndex tx, rest[txIndex]? = some tx →
          tables.transactions.lookup (tx.txid crypto) =
            some ⟨⟨height, tx⟩, blockHash, UInt32.ofNat (start + 1 + txIndex),
              tx.txid crypto⟩ := by
        intro txIndex tx htx
        rw [hindexed (txIndex + 1) tx htx, Nat.add_assoc, Nat.add_comm 1]
      obtain ⟨records, hload, hmap⟩ := ih hrest
      refine ⟨⟨⟨height, first⟩, blockHash, UInt32.ofNat start, first.txid crypto⟩ :: records,
        ?_, by rw [List.map_cons, hmap]⟩
      simp only [List.map_cons, loadIndexedTransactions, bind_eq_ok, okOr_eq_ok,
        rejectWhen_eq_ok, pure_eq_ok]
      exact ⟨_, hindexed 0 first rfl, (), by simp, records, hload, rfl⟩

end Index

/-! Archiving a block. -/

/-- The tables with a block that they did not hold before. -/
def withBlock (crypto : Crypto) (network : Network) (height : UInt64) (block : Block)
    (location : BlockFileLocation) (chainwork : Nat) (tables : Tables) : Tables :=
  { tables with
    blocks := tables.blocks.insert (block.header.blockHash crypto)
      (archiveRecord crypto network height block location chainwork)
    blockHeights := tables.blockHeights.insert height (block.header.blockHash crypto)
    blockTransactions := tables.blockTransactions.insert (block.header.blockHash crypto)
      ⟨height, block.transactions.map (Transaction.txid crypto)⟩
    transactions := indexTransactions crypto height (block.header.blockHash crypto) 0
      tables.transactions block.transactions }

theorem writeBlockArchive_ok {height : UInt64} {block : Block} {location : BlockFileLocation}
    (hwrite : tables.writeBlockArchive crypto network height block location = .ok next) :
    (∃ existing, tables.blocks.lookup (block.header.blockHash crypto) = some existing ∧
      existing.height = height ∧ next = tables) ∨
    ∃ chainwork, tables.blocks.lookup (block.header.blockHash crypto) = none ∧
      tables.archiveChainwork height block = .ok chainwork ∧
      next = tables.withBlock crypto network height block location chainwork := by
  unfold writeBlockArchive at hwrite
  dsimp only at hwrite
  split at hwrite
  · next existing hexisting =>
      split_ifs at hwrite with hsame
      · rw [pure_eq_ok] at hwrite
        exact .inl ⟨existing, hexisting, hsame.1, hwrite.symm⟩
  · next hnone =>
      rw [bind_eq_ok] at hwrite
      obtain ⟨chainwork, hwork, hwrite⟩ := hwrite
      rw [pure_eq_ok] at hwrite
      exact .inr ⟨chainwork, hnone, hwork, hwrite.symm⟩

/-! The unspent outputs. -/

theorem lookup_deleteSpent (utxos : Finmap fun _ : UtxoKey => UtxoEntry)
    (inputs : List TxInput) :
    ((deleteSpent utxos inputs).lookup ·) = applyAll (utxos.lookup ·) (spendOps inputs) := by
  induction inputs generalizing utxos with
  | nil => rfl
  | cons input rest ih =>
      refine (ih (utxos.erase input.key)).trans ?_
      rw [lookup_erase_eq]
      rfl

theorem lookup_insertCreated {utxos created : Finmap fun _ : UtxoKey => UtxoEntry}
    {outputs : List UtxoEntry} (hinsert : insertCreated utxos outputs = .ok created) :
    (created.lookup ·) = applyAll (utxos.lookup ·) (createOps outputs) := by
  induction outputs generalizing utxos with
  | nil =>
      cases hinsert
      rfl
  | cons output rest ih =>
      rw [insertCreated] at hinsert
      split_ifs at hinsert
      refine (ih hinsert).trans ?_
      rw [lookup_insert_eq]
      rfl

theorem lookup_applyUtxoDelta {height : UInt64} {transactions : List Transaction}
    {utxos result : Finmap fun _ : UtxoKey => UtxoEntry}
    (hdelta : applyUtxoDelta crypto network height utxos transactions = .ok result) :
    (result.lookup ·) = applyAll (utxos.lookup ·)
      (transactions.map (transactionOps crypto network height)).flatten := by
  induction transactions generalizing utxos with
  | nil =>
      cases hdelta
      rfl
  | cons tx rest ih =>
      rw [applyUtxoDelta, bind_eq_ok] at hdelta
      obtain ⟨middle, hmiddle, hrest⟩ := hdelta
      rw [ih hrest, lookup_insertCreated hmiddle, lookup_deleteSpent, List.map_cons,
        List.flatten_cons, applyAll_append, transactionOps, applyAll_append]

/-- A table that equals the set in memory equals it again once both have taken over
the block. -/
theorem applyUtxoDelta_eq {set set' : UtxoSet} {block : Block} {undo : BlockUndo}
    {result : Finmap fun _ : UtxoKey => UtxoEntry} (hnetwork : set.network = network)
    (happly : set.applyBlock crypto block = (.ok undo, set'))
    (hdelta : applyUtxoDelta crypto network block.header.height set.entries
      block.transactions = .ok result) : result = set'.entries := by
  have hset' := (UtxoSet.journaled_of_applyBlock happly).get
  rw [hnetwork] at hset'
  exact Finmap.ext_lookup (congrFun ((lookup_applyUtxoDelta hdelta).trans hset'.symm))

/-! The marks of the main chain. -/

/-- The record of a block without its marks. -/
def link (tables : Tables) (blockHash : Bytes 48) : Option BlockArchiveRecord :=
  (tables.blocks.lookup blockHash).map .unmarked

/-- Nothing but the heights and the marks of the main chain has changed, and these
as `mark` says. -/
structure Remarks (mark : Bytes 48 → Bool → Bool) (tables next : Tables) : Prop where
  blocks : ∀ blockHash, next.blocks.lookup blockHash =
    (tables.blocks.lookup blockHash).map fun record =>
      { record with mainChain := mark blockHash record.mainChain }
  snapshot : next.snapshot = tables.snapshot
  blockTransactions : next.blockTransactions = tables.blockTransactions
  transactions : next.transactions = tables.transactions
  utxos : next.utxos = tables.utxos

theorem Remarks.link_eq {mark : Bytes 48 → Bool → Bool}
    (hremarks : Remarks mark tables next) : next.link = tables.link := by
  funext blockHash
  rw [link, hremarks.blocks, Option.map_map]
  rfl

theorem Remarks.trans {first second mark : Bytes 48 → Bool → Bool} {last : Tables}
    (hfirst : Remarks first tables next) (hsecond : Remarks second next last)
    (hmark : ∀ blockHash old, second blockHash (first blockHash old) = mark blockHash old) :
    Remarks mark tables last where
  blocks blockHash := by
    rw [hsecond.blocks, hfirst.blocks, Option.map_map]
    simp only [Function.comp_def, hmark]
  snapshot := hsecond.snapshot.trans hfirst.snapshot
  blockTransactions := hsecond.blockTransactions.trans hfirst.blockTransactions
  transactions := hsecond.transactions.trans hfirst.transactions
  utxos := hsecond.utxos.trans hfirst.utxos

theorem Remarks.refl (tables : Tables) (heights : Finmap fun _ : UInt64 => Bytes 48) :
    Remarks (fun _ old => old) tables { tables with blockHeights := heights } :=
  ⟨fun _ => Option.map_id'.symm, rfl, rfl, rfl, rfl⟩

theorem updateMainChainFlag_ok {blockHash : Bytes 48} {flag : Bool}
    (hupdate : tables.updateMainChainFlag blockHash flag = .ok next) :
    next.blockHeights = tables.blockHeights ∧
      Remarks (fun other old => if other = blockHash then flag else old) tables next := by
  simp only [updateMainChainFlag, bind_eq_ok, okOr_eq_ok] at hupdate
  obtain ⟨record, hrecord, hupdate⟩ := hupdate
  split_ifs at hupdate with hsame
  · rw [pure_eq_ok] at hupdate
    subst hupdate
    refine ⟨rfl, ⟨fun other => ?_, rfl, rfl, rfl, rfl⟩⟩
    rcases eq_or_ne other blockHash with rfl | hne
    · simp only [hrecord, ↓reduceIte, Option.map_some, ← hsame]
    · simp only [if_neg hne, Option.map_id']
  · rw [pure_eq_ok] at hupdate
    subst hupdate
    refine ⟨rfl, ⟨fun other => ?_, rfl, rfl, rfl, rfl⟩⟩
    rcases eq_or_ne other blockHash with rfl | hne
    · simp only [Finmap.lookup_insert, hrecord, ↓reduceIte, Option.map_some]
    · simp only [Finmap.lookup_insert_of_ne _ hne, if_neg hne, Option.map_id']

theorem unsetMainChainFlags_ok {hashes : List (Bytes 48)}
    (hunset : tables.unsetMainChainFlags hashes = .ok next) :
    next.blockHeights = tables.blockHeights ∧
      Remarks (fun other old => if other ∈ hashes then false else old) tables next := by
  induction hashes generalizing tables with
  | nil =>
      cases hunset
      exact ⟨rfl, by simpa using Remarks.refl next next.blockHeights⟩
  | cons blockHash rest ih =>
      rw [unsetMainChainFlags, bind_eq_ok] at hunset
      obtain ⟨middle, hfirst, hrest⟩ := hunset
      obtain ⟨hheights, hremarks⟩ := updateMainChainFlag_ok hfirst
      obtain ⟨hheights', hremarks'⟩ := ih hrest
      refine ⟨hheights'.trans hheights, hremarks.trans hremarks' fun other old => ?_⟩
      simp only [List.mem_cons]
      grind

/-- The records from a block down to height zero. -/
inductive Descends (link : Bytes 48 → Option BlockArchiveRecord) :
    Bytes 48 → List BlockArchiveRecord → Prop where
  | root {blockHash : Bytes 48} {record : BlockArchiveRecord}
      (hlink : link blockHash = some record) (hheight : record.height = 0) :
      Descends link blockHash [record]
  | above {blockHash : Bytes 48} {record : BlockArchiveRecord} {path : List BlockArchiveRecord}
      (hlink : link blockHash = some record) (hheight : record.height ≠ 0)
      (hbelow : Descends link record.previousBlockHash path) :
      Descends link blockHash (record :: path)

/-- The heights of the records, where each later one in the list overwrites. -/
def indexHeights (heights : Finmap fun _ : UInt64 => Bytes 48)
    (path : List BlockArchiveRecord) : Finmap fun _ : UInt64 => Bytes 48 :=
  path.foldl (fun heights record => heights.insert record.height record.blockHash) heights

def hashesOf (path : List BlockArchiveRecord) : List (Bytes 48) :=
  path.map fun record => record.blockHash

theorem walkMainChain_ok {rounds : Nat} {visited visited' : List (Bytes 48)}
    {blockHash : Bytes 48}
    (hwalk : walkMainChain rounds visited tables blockHash = .ok (visited', next)) :
    ∃ path, Descends tables.link blockHash path ∧
      visited' = (hashesOf path).reverse ++ visited ∧
      next.blockHeights = indexHeights tables.blockHeights path ∧
      Remarks (fun other old => if other ∈ hashesOf path then true else old) tables next := by
  induction rounds generalizing visited tables blockHash with
  | zero => cases hwalk
  | succ rounds ih =>
      simp only [walkMainChain, bind_eq_ok, okOr_eq_ok] at hwalk
      obtain ⟨record, hrecord, middle, hupdate, hwalk⟩ := hwalk
      have hlink : tables.link blockHash = some record.unmarked := by rw [link, hrecord]; rfl
      obtain ⟨hheights, hmarked⟩ := updateMainChainFlag_ok hupdate
      have hremarks : Remarks (fun other old => if other = record.blockHash then true else old)
          tables middle :=
        (Remarks.refl tables _).trans hmarked fun _ _ => rfl
      split_ifs at hwalk with hheight
      · rw [pure_eq_ok, Prod.mk.injEq] at hwalk
        obtain ⟨rfl, rfl⟩ := hwalk
        exact ⟨[record.unmarked], .root hlink hheight, rfl, hheights,
          by simpa [hashesOf, BlockArchiveRecord.unmarked] using hremarks⟩
      · obtain ⟨path, hbelow, rfl, hheights', hmarked'⟩ := ih hwalk
        rw [hremarks.link_eq] at hbelow
        refine ⟨record.unmarked :: path, .above hlink hheight hbelow, ?_, ?_, ?_⟩
        · simp [hashesOf, BlockArchiveRecord.unmarked]
        · rw [hheights', hheights]
          rfl
        · refine hremarks.trans hmarked' fun other old => ?_
          simp only [hashesOf, List.map_cons, List.mem_cons, BlockArchiveRecord.unmarked]
          grind

theorem mem_currentMainChainHashes {blockHash : Bytes 48} :
    blockHash ∈ tables.currentMainChainHashes ↔
      ∃ height, tables.blockHeights.lookup height = some blockHash := by
  simp [currentMainChainHashes, Finmap.mem_cursor]

/-- The heights are those of the blocks below the new tip, which are marked; the
other blocks that had a height lose their mark. -/
theorem rebuildHeightIndex_ok {tipHash : Bytes 48} (htip : tipHash ≠ .zero 48)
    (hrebuild : tables.rebuildHeightIndex tipHash = .ok next) :
    ∃ path, Descends tables.link tipHash path ∧ next.blockHeights = indexHeights ∅ path ∧
      Remarks (fun other old => if other ∈ hashesOf path then true
        else if other ∈ tables.currentMainChainHashes then false else old) tables next := by
  simp only [rebuildHeightIndex, if_neg htip, bind_eq_ok] at hrebuild
  obtain ⟨⟨visited, middle⟩, hwalk, hunset⟩ := hrebuild
  obtain ⟨path, hdescends, rfl, hheights, hmarked⟩ := walkMainChain_ok hwalk
  obtain ⟨hheights', hmarked'⟩ := unsetMainChainFlags_ok hunset
  refine ⟨path, hdescends, hheights'.trans hheights, ?_⟩
  refine (Remarks.refl tables ∅).trans (hmarked.trans hmarked' fun _ _ => rfl)
    fun other old => ?_
  simp only [List.mem_filter, List.append_nil, List.mem_reverse, decide_not,
    Bool.not_eq_true', decide_eq_false_iff_not]
  grind

theorem rebuildHeightIndex_remarks {tipHash : Bytes 48}
    (hrebuild : tables.rebuildHeightIndex tipHash = .ok next) :
    ∃ mark, Remarks mark tables next := by
  by_cases htip : tipHash = .zero 48
  · simp only [rebuildHeightIndex, if_pos htip] at hrebuild
    obtain ⟨-, hmarked⟩ := unsetMainChainFlags_ok hrebuild
    exact ⟨_, (Remarks.refl tables ∅).trans hmarked fun _ _ => rfl⟩
  · obtain ⟨path, -, -, hremarks⟩ := rebuildHeightIndex_ok htip hrebuild
    exact ⟨_, hremarks⟩

/-! Pruning. -/

theorem mem_listBlockRecords {record : BlockArchiveRecord} :
    record ∈ tables.listBlockRecords ↔
      ∃ blockHash, tables.blocks.lookup blockHash = some record := by
  simp [listBlockRecords, Finmap.mem_cursor]

theorem mem_pendingPrune {fileNumber : Nat} {record : BlockArchiveRecord} :
    record ∈ tables.pendingPrune fileNumber ↔
      (∃ blockHash, tables.blocks.lookup blockHash = some record) ∧
        record.fileLocation.fileNumber = fileNumber ∧ record.pruned = false := by
  simp [pendingPrune, recordsOfFile, mem_listBlockRecords, and_comm]

theorem lookup_markPruned {records : List BlockArchiveRecord}
    (hkeyed : ∀ record ∈ records, tables.blocks.lookup record.blockHash = some record)
    (blockHash : Bytes 48) :
    (tables.markPruned records).blocks.lookup blockHash =
      (tables.blocks.lookup blockHash).map fun record =>
        { record with pruned := record.pruned || decide (blockHash ∈ hashesOf records) } := by
  induction records using List.reverseRecOn with
  | nil => simp [markPruned, hashesOf]
  | append_singleton records record ih =>
      have hrecord := hkeyed record (by simp)
      have hrest := ih fun other hother => hkeyed other (List.mem_append_left _ hother)
      rw [markPruned, List.foldl_concat]
      rcases eq_or_ne blockHash record.blockHash with rfl | hne
      · simp [hrecord, hashesOf]
      · rw [Finmap.lookup_insert_of_ne _ hne]
        simpa [markPruned, hashesOf, hne] using hrest

end Tables

/-! The calls of the database. -/

namespace Database

variable {crypto : Crypto} {db next : Database} {snapshot : ChainstateSnapshot}
  {result : Except StorageError Unit}

theorem transact_cases {fault : Option WriteFault} {written : Except StorageError Tables}
    (htransact : db.transact fault written = (result, next)) :
    next.network = db.network ∧ next.blockStore = db.blockStore ∧
      ((∃ err, result = .error err) ∧ next.tables = db.tables ∨
        written = .ok next.tables) := by
  unfold transact at htransact
  split at htransact
  · cases htransact
    exact ⟨rfl, rfl, .inl ⟨⟨_, rfl⟩, rfl⟩⟩
  · dsimp only at htransact
    split_ifs at htransact <;> cases htransact
    · exact ⟨rfl, rfl, .inl ⟨⟨_, rfl⟩, rfl⟩⟩
    · exact ⟨rfl, rfl, .inr rfl⟩
    · exact ⟨rfl, rfl, .inr rfl⟩

/-- What a commit has done once its transaction went through. A block that is
archived already gets no new record and no height. -/
inductive Commits (crypto : Crypto) (snapshot : ChainstateSnapshot) (utxos : Option UtxoSet)
    (db next : Database) : Option (UInt64 × Block) → Prop where
  | image
      (hrebuild : Tables.rebuildHeightIndex
        { db.tables with
          snapshot := some snapshot
          utxos := (utxos.map UtxoSet.entries).getD ∅ } snapshot.tipHash = .ok next.tables) :
      Commits crypto snapshot utxos db next none
  | known {height : UInt64} {block : Block} {existing : BlockArchiveRecord}
      {changed : Finmap fun _ : UtxoKey => UtxoEntry}
      (hnetwork : block.header.networkId = db.network)
      (hexisting : db.tables.blocks.lookup (block.header.blockHash crypto) = some existing)
      (hdelta : Tables.applyUtxoDelta crypto db.network block.header.height db.tables.utxos
        block.transactions = .ok changed)
      (htables : next.tables =
        { db.tables with snapshot := some snapshot, utxos := changed }) :
      Commits crypto snapshot utxos db next (some (height, block))
  | fresh {height : UInt64} {block : Block} {location : BlockFileLocation} {chainwork : Nat}
      {changed : Finmap fun _ : UtxoKey => UtxoEntry}
      (hnetwork : block.header.networkId = db.network)
      (hnone : db.tables.blocks.lookup (block.header.blockHash crypto) = none)
      (hwork : db.tables.archiveChainwork height block = .ok chainwork)
      (hdelta : Tables.applyUtxoDelta crypto db.network block.header.height db.tables.utxos
        block.transactions = .ok changed)
      (htables : next.tables =
        { db.tables.withBlock crypto db.network height block location chainwork with
          snapshot := some snapshot
          utxos := changed })
      (hholds : next.blockStore.Holds location block) :
      Commits crypto snapshot utxos db next (some (height, block))

theorem archiveAppend_frame (crypto : Crypto) (db : Database) (fault : Option WriteFault)
    (appended : Option (UInt64 × Block)) :
    ∃ store, (db.archiveAppend crypto fault appended).2 = { db with blockStore := store } ∧
      db.blockStore.Extends store := by
  unfold archiveAppend
  split
  · exact ⟨db.blockStore, rfl, .refl _⟩
  · next height block =>
      split_ifs
      · exact ⟨db.blockStore, rfl, .refl _⟩
      · exact ⟨db.blockStore, rfl, .refl _⟩
      · have hextends := db.blockStore.append_extends block db.archiveAppendFileHint
          (appendFault fault 0)
        split <;> next hresult => exact ⟨_, rfl, by rwa [hresult] at hextends⟩

theorem archiveAppend_ok {fault : Option WriteFault} {height : UInt64} {block : Block}
    {location : Option BlockFileLocation}
    (happend : db.archiveAppend crypto fault (some (height, block)) = (.ok location, next)) :
    block.header.networkId = db.network ∧
      ((∃ existing, location = none ∧
        db.tables.blocks.lookup (block.header.blockHash crypto) = some existing) ∨
      ∃ place, location = some place ∧
        db.tables.blocks.lookup (block.header.blockHash crypto) = none ∧
        next.blockStore.Holds place block) := by
  unfold archiveAppend at happend
  dsimp only at happend
  split_ifs at happend with hnetwork hknown
  · cases happend
  · cases happend
    obtain ⟨existing, hexisting⟩ := Option.isSome_iff_exists.mp hknown
    exact ⟨not_not.mp hnetwork, .inl ⟨existing, rfl, hexisting⟩⟩
  · split at happend
    · cases happend
    · next place store hresult =>
        cases happend
        exact ⟨not_not.mp hnetwork,
          .inr ⟨place, rfl, by simpa using hknown, BlockFileStore.append_holds hresult⟩⟩

/-- A commit that fails leaves the tables as they were, unless only the removal of
the journal failed. -/
theorem commitChainstate_cases {utxos : Option UtxoSet} {appended : Option (UInt64 × Block)}
    (hcommit : db.commitChainstate crypto snapshot utxos appended = (result, next)) :
    next.network = db.network ∧ db.blockStore.Extends next.blockStore ∧
      ((∃ err, result = .error err) ∧ next.tables = db.tables ∨
        Commits crypto snapshot utxos db next appended) := by
  unfold commitChainstate at hcommit
  split_ifs at hcommit
  · cases hcommit
    exact ⟨rfl, .refl _, .inl ⟨⟨_, rfl⟩, rfl⟩⟩
  · obtain ⟨store, hstore, hextends⟩ := archiveAppend_frame crypto
      { db.nextWrite with journal := true } db.fault appended
    split at hcommit
    · next err failed happend =>
        cases hcommit
        rw [happend] at hstore
        dsimp only at hstore
        subst hstore
        exact ⟨rfl, hextends, .inl ⟨⟨_, rfl⟩, rfl⟩⟩
    · next location archived happend =>
        rw [happend] at hstore
        dsimp only at hstore
        subst hstore
        obtain ⟨hnetwork, hfiles, hwritten⟩ := transact_cases hcommit
        refine ⟨hnetwork, by rw [hfiles]; exact hextends, ?_⟩
        rcases hwritten with hfailed | hwritten
        · exact .inl hfailed
        right
        rcases appended with _ | ⟨height, block⟩
        · simp only [Tables.commit, bind_eq_ok, pure_eq_ok, exists_eq_left'] at hwritten
          exact .image hwritten
        · obtain ⟨hblock, hplace⟩ := archiveAppend_ok happend
          rcases hplace with ⟨existing, rfl, hexisting⟩ | ⟨place, rfl, hnone, hholds⟩
          · simp only [Tables.commit, bind_eq_ok, pure_eq_ok, exists_eq_left'] at hwritten
            obtain ⟨changed, hdelta, htables⟩ := hwritten
            exact .known hblock hexisting hdelta htables.symm
          · simp only [Tables.commit, bind_eq_ok, pure_eq_ok] at hwritten
            obtain ⟨middle, hwrite, changed, hdelta, htables⟩ := hwritten
            rcases Tables.writeBlockArchive_ok hwrite with
              ⟨existing, hexisting, -⟩ | ⟨chainwork, -, hwork, rfl⟩
            · exact absurd (hnone.symm.trans hexisting) (by simp)
            · exact .fresh hblock hnone hwork hdelta htables.symm (by rw [hfiles]; exact hholds)

theorem commitChainstate_ok {utxos : Option UtxoSet} {appended : Option (UInt64 × Block)}
    (hcommit : db.commitChainstate crypto snapshot utxos appended = (.ok (), next)) :
    Commits crypto snapshot utxos db next appended := by
  obtain ⟨-, -, ⟨⟨err, herr⟩, -⟩ | hcommits⟩ := commitChainstate_cases hcommit
  · cases herr
  · exact hcommits

theorem archiveBlocks_ok {network : Network} {fault : Option WriteFault} {index : Nat}
    {store store' : BlockFileStore} {blocks : List Block} {locations : List BlockFileLocation}
    (harchive : archiveBlocks network fault index store blocks = (.ok locations, store')) :
    store.Extends store' ∧ (∀ block ∈ blocks, block.header.networkId = network) ∧
      List.Forall₂ (fun block location => store'.Holds location block) blocks locations := by
  induction blocks generalizing index store locations with
  | nil =>
      cases harchive
      exact ⟨.refl _, by simp, .nil⟩
  | cons block rest ih =>
      rw [archiveBlocks] at harchive
      split_ifs at harchive with hnetwork
      · cases harchive
      have hextends := store.append_extends block none (appendFault fault index)
      split at harchive
      · cases harchive
      · next location middle happend =>
          rw [happend] at hextends
          split at harchive
          · cases harchive
          · next rest' last hrest =>
              cases harchive
              obtain ⟨hlater, hnetworks, hholds⟩ := ih hrest
              exact ⟨hextends.trans hlater,
                List.forall_mem_cons.mpr ⟨not_not.mp hnetwork, hnetworks⟩,
                .cons ((BlockFileStore.append_holds happend).extends hlater) hholds⟩

theorem replaceChainstate_ok {utxos : UtxoSet} {blocks : List Block}
    (hreplace : db.replaceChainstate crypto snapshot utxos blocks = (.ok (), next)) :
    next.network = db.network ∧ ∃ locations,
      archiveBlocks db.network db.fault 0 db.blockStore.reset blocks =
        (.ok locations, next.blockStore) ∧
      db.tables.replace crypto db.network snapshot utxos (blocks.zip locations) =
        .ok next.tables := by
  unfold replaceChainstate at hreplace
  split at hreplace
  · cases hreplace
  · cases hreplace
  · split at hreplace
    · cases hreplace
    · next locations store harchive =>
        obtain ⟨hnetwork, hstore, ⟨⟨err, herr⟩, -⟩ | hwritten⟩ := transact_cases hreplace
        · cases herr
        · exact ⟨hnetwork, locations, by rw [harchive, hstore], hwritten⟩

theorem pruneArchivedBlocks_cases {target : Option Nat} {tipHeight pruneDepth : UInt64}
    (hprune : db.pruneArchivedBlocks target tipHeight pruneDepth = (result, next)) :
    next.network = db.network ∧
      (next.tables = db.tables ∧ next.blockStore = db.blockStore ∨
        ∃ files removed : List Nat, removed ⊆ files ∧
          next.tables = db.tables.markPruned (files.flatMap db.tables.pendingPrune) ∧
          next.blockStore = removed.foldl .deleteFile db.blockStore) := by
  unfold pruneArchivedBlocks at hprune
  split at hprune
  · cases hprune
    exact ⟨rfl, .inl ⟨rfl, rfl⟩⟩
  · split at hprune
    · cases hprune
      exact ⟨rfl, .inl ⟨rfl, rfl⟩⟩
    · split_ifs at hprune
      · cases hprune
        exact ⟨rfl, .inl ⟨rfl, rfl⟩⟩
      · dsimp only at hprune
        split at hprune
        · cases hprune
          exact ⟨rfl, .inr ⟨_, _, List.take_subset _ _, rfl, rfl⟩⟩
        · cases hprune
          exact ⟨rfl, .inr ⟨_, _, List.Subset.refl _, rfl, rfl⟩⟩

end Database

end Atho
