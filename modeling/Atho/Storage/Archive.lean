import Atho.Storage.CanonicalChain
import Atho.Storage.TableWrites

/-! What the database keeps of the blocks that were committed, and how it gives
them back. -/

namespace Atho

open Relation

/-- What the transaction index holds of one transaction of a block. -/
def indexRecord (crypto : Crypto) (block : Block) (txIndex : Nat) (tx : Transaction) :
    IndexedTransaction :=
  ⟨⟨block.header.height, tx⟩, block.header.blockHash crypto, UInt32.ofNat txIndex,
    tx.txid crypto⟩

/-- The header carries the founders' hashes that every rebuilt header has. -/
def BlockHeader.Founded (header : BlockHeader) : Prop :=
  header.foundersHashSha3_384 = Atho.foundersHashSha3_384 ∧
    header.foundersHashSha3_512 = Atho.foundersHashSha3_512

instance (header : BlockHeader) : Decidable header.Founded :=
  inferInstanceAs (Decidable (_ ∧ _))

/-! What is kept of one block. -/

namespace Tables

/-- The metadata of the block and its entries in the transaction index. -/
structure Keeps (crypto : Crypto) (network : Network) (tables : Tables)
    (record : BlockArchiveRecord) (block : Block) : Prop where
  record_eq : record.unmarked = (archiveRecord crypto network block.header.height block
    record.fileLocation record.chainwork).unmarked
  network_eq : block.header.networkId = network
  fits : block.transactions.length < 2 ^ 32
  outputs_fit : ∀ tx ∈ block.transactions, tx.outputs.length < 2 ^ 32
  order : tables.blockTransactions.lookup (block.header.blockHash crypto) =
    some ⟨block.header.height, block.transactions.map (Transaction.txid crypto)⟩
  indexed : ∀ txIndex tx, block.transactions[txIndex]? = some tx →
    tables.transactions.lookup (tx.txid crypto) = some (indexRecord crypto block txIndex tx)

namespace Keeps

variable {crypto : Crypto} {network : Network} {tables next : Tables}
  {record record' : BlockArchiveRecord} {block : Block}

theorem blockHash_eq (hkeeps : tables.Keeps crypto network record block) :
    record.blockHash = block.header.blockHash crypto :=
  congrArg BlockArchiveRecord.blockHash hkeeps.record_eq

theorem height_eq (hkeeps : tables.Keeps crypto network record block) :
    record.height = block.header.height :=
  congrArg BlockArchiveRecord.height hkeeps.record_eq

theorem header_eq (hkeeps : tables.Keeps crypto network record block)
    (hfounded : block.header.Founded) : record.header = block.header := by
  have hheader : record.unmarked.header = (archiveRecord crypto network block.header.height
      block record.fileLocation record.chainwork).unmarked.header :=
    congrArg BlockArchiveRecord.header hkeeps.record_eq
  refine hheader.trans ?_
  simp only [BlockArchiveRecord.header, archiveRecord, BlockArchiveRecord.unmarked,
    ← hkeeps.network_eq, ← hfounded.1, ← hfounded.2]

theorem remarked (hkeeps : tables.Keeps crypto network record block)
    (hrecord : record'.unmarked = record.unmarked)
    (horder : next.blockTransactions = tables.blockTransactions)
    (hindex : next.transactions = tables.transactions) :
    next.Keeps crypto network record' block where
  record_eq := by
    obtain ⟨hlocation, hwork⟩ := BlockArchiveRecord.place_of_unmarked hrecord
    rw [hrecord, hkeeps.record_eq, hlocation, hwork]
  network_eq := hkeeps.network_eq
  fits := hkeeps.fits
  outputs_fit := hkeeps.outputs_fit
  order := by rw [horder, hkeeps.order]
  indexed txIndex tx htx := by rw [hindex, hkeeps.indexed txIndex tx htx]

theorem rebuildBlock_eq (hkeeps : tables.Keeps crypto network record block)
    (hfounded : block.header.Founded) : tables.rebuildBlock record = .ok block := by
  have hindexed : ∀ txIndex tx, block.transactions[txIndex]? = some tx →
      tables.transactions.lookup (tx.txid crypto) =
        some ⟨⟨block.header.height, tx⟩, block.header.blockHash crypto,
          UInt32.ofNat (0 + txIndex), tx.txid crypto⟩ := by
    intro txIndex tx htx
    rw [hkeeps.indexed txIndex tx htx, Nat.zero_add]
    rfl
  obtain ⟨records, hload, hmap⟩ := loadIndexedTransactions_eq hindexed
  have hcount : records.length = record.txCount.toNat := by
    have htxCount : record.txCount = UInt32.ofNat block.transactions.length :=
      congrArg BlockArchiveRecord.txCount hkeeps.record_eq
    have hlength := congrArg List.length hmap
    rw [List.length_map] at hlength
    rw [htxCount, UInt32.toNat_ofNat_of_lt' hkeeps.fits, hlength]
  have hload : tables.loadBlockTransactions record.blockHash = .ok records := by
    rw [loadBlockTransactions, hkeeps.blockHash_eq, hkeeps.order]
    exact hload
  simp only [rebuildBlock, bind_eq_ok, rejectWhen_eq_ok, pure_eq_ok]
  refine ⟨records, hload, (), by simpa using hcount, ?_⟩
  rw [hkeeps.header_eq hfounded, hmap]

end Keeps

end Tables

/-! What is kept of all blocks. -/

/-- Blocks that the archive can tell apart: by their hashes, and each transaction by
its identifier alone. -/
structure Legible (crypto : Crypto) (blocks : Set Block) : Prop where
  hash_inj : blocks.InjOn fun block => block.header.blockHash crypto
  txid_inj : ∀ left ∈ blocks, ∀ right ∈ blocks,
    ∀ (txIndex txIndex' : Nat) (tx tx' : Transaction),
      left.transactions[txIndex]? = some tx → right.transactions[txIndex']? = some tx' →
        tx.txid crypto = tx'.txid crypto → left = right ∧ txIndex = txIndex'
  founded : ∀ block ∈ blocks, block.header.Founded

theorem Legible.nodup {crypto : Crypto} {blocks : Set Block} (hlegible : Legible crypto blocks)
    {block : Block} (hblock : block ∈ blocks) :
    (block.transactions.map (Transaction.txid crypto)).Nodup := by
  rw [List.nodup_iff_getElem?_ne_getElem?]
  intro first second hlt hlength heq
  rw [List.length_map] at hlength
  rw [List.getElem?_map, List.getElem?_map, List.getElem?_eq_getElem (by omega),
    List.getElem?_eq_getElem hlength, Option.map_some, Option.map_some,
    Option.some.injEq] at heq
  have hindex := (hlegible.txid_inj block hblock block hblock first second _ _
    (List.getElem?_eq_getElem (by omega)) (List.getElem?_eq_getElem hlength) heq).2
  omega

theorem Legible.txid_notMem {crypto : Crypto} {blocks : Set Block}
    (hlegible : Legible crypto blocks) {block other : Block} (hblock : block ∈ blocks)
    (hother : other ∈ blocks) (hne : block ≠ other) {txIndex : Nat} {tx : Transaction}
    (htx : block.transactions[txIndex]? = some tx) :
    tx.txid crypto ∉ other.transactions.map (Transaction.txid crypto) := by
  intro hmem
  obtain ⟨tx', htx', heq⟩ := List.mem_map.mp hmem
  obtain ⟨txIndex', htx'⟩ := List.mem_iff_getElem?.mp htx'
  exact hne (hlegible.txid_inj block hblock other hother _ _ tx tx' htx htx' heq.symm).1

theorem Legible.of_nodup {crypto : Crypto} {listed : List Block}
    (hhashes : (listed.map fun block => block.header.blockHash crypto).Nodup)
    (htxids : (listed.flatMap fun block =>
      block.transactions.map (Transaction.txid crypto)).Nodup)
    (hfounded : ∀ block ∈ listed, block.header.Founded) :
    Legible crypto { block | block ∈ listed } := by
  refine ⟨List.inj_on_of_nodup_map hhashes, ?_, hfounded⟩
  intro left hleft right hright txIndex txIndex' tx tx' htx htx' heq
  obtain ⟨hnodup, hdisjoint⟩ := List.nodup_flatMap.mp htxids
  have htxid : (left.transactions.map (Transaction.txid crypto))[txIndex]? =
      some (tx.txid crypto) := by rw [List.getElem?_map, htx, Option.map_some]
  have htxid' : (right.transactions.map (Transaction.txid crypto))[txIndex']? =
      some (tx.txid crypto) := by rw [List.getElem?_map, htx', Option.map_some, heq]
  have hsame : left = right := by
    by_contra hne
    have : Std.Symm (Function.onFun List.Disjoint fun block : Block =>
      block.transactions.map (Transaction.txid crypto)) := ⟨fun _ _ h => h.symm⟩
    exact hdisjoint.forall hleft hright hne
      (List.mem_of_getElem? htxid) (List.mem_of_getElem? htxid')
  subst hsame
  refine ⟨rfl, ?_⟩
  obtain ⟨hlength, -⟩ := List.getElem?_eq_some_iff.mp htxid
  exact (List.getElem?_inj hlength (hnodup left hleft)).mp (htxid.trans htxid'.symm)

namespace Database

/-- A block that the tables keep is loaded, whether or not its bytes can be read, as
long as no others are read in their place. -/
theorem loadBlock_of_keeps {crypto : Crypto} {db : Database} {blockHash : Bytes 48}
    {record : BlockArchiveRecord} {network : Network} {block : Block}
    (hrecord : db.tables.blocks.lookup blockHash = some record)
    (hkeeps : db.tables.Keeps crypto network record block) (hfounded : block.header.Founded)
    (hread : record.pruned = false → ∀ found,
      db.blockStore.readBlock record.fileLocation = .ok found → found = block) :
    db.loadBlock crypto blockHash = .ok (some block) := by
  have hindex : (some <$> db.tables.rebuildBlock record : Except StorageError (Option Block)) =
      .ok (some block) := by
    rw [hkeeps.rebuildBlock_eq hfounded]
    rfl
  simp only [loadBlock, hrecord, hindex]
  split_ifs with hpruned
  · rfl
  · rcases hresult : db.blockStore.readBlock record.fileLocation with err | found
    · rcases BlockFileStore.readBlock_error hresult with rfl | rfl | rfl <;> rfl
    · obtain rfl := hread (by simpa using hpruned) found hresult
      simp [hkeeps.blockHash_eq, hkeeps.height_eq]

/-- Every record is of one of the blocks, which the tables keep, and whose bytes are
in the files as long as they are not pruned. -/
structure Archives (crypto : Crypto) (blocks : Set Block) (db : Database) : Prop where
  network_eq : db.blockStore.network = db.network
  kept : ∀ {blockHash record}, db.tables.blocks.lookup blockHash = some record →
    ∃ block ∈ blocks, block.header.blockHash crypto = blockHash ∧
      db.tables.Keeps crypto db.network record block ∧
      (record.pruned = false → db.blockStore.Holds record.fileLocation block)

namespace Archives

variable {crypto : Crypto} {blocks : Set Block} {db next : Database}

theorem empty (crypto : Crypto) (blocks : Set Block) (network : Network)
    (faults : List (Option WriteFault)) :
    (Database.empty network faults).Archives crypto blocks :=
  ⟨rfl, fun hrecord => by simp [Database.empty, Tables.empty] at hrecord⟩

theorem loadBlock_eq (harchives : db.Archives crypto blocks)
    (hlegible : Legible crypto blocks) {blockHash : Bytes 48} {record : BlockArchiveRecord}
    (hrecord : db.tables.blocks.lookup blockHash = some record) :
    ∃ block ∈ blocks, block.header.blockHash crypto = blockHash ∧
      db.loadBlock crypto blockHash = .ok (some block) := by
  obtain ⟨block, hblock, hhash, hkeeps, hholds⟩ := harchives.kept hrecord
  exact ⟨block, hblock, hhash, loadBlock_of_keeps hrecord hkeeps
    (hlegible.founded block hblock) fun hpruned found hread =>
      (hholds hpruned).readBlock_eq hread⟩

/-- Records may be marked, and files may go as long as only pruned records lose
their bytes. -/
theorem transfer (harchives : db.Archives crypto blocks) (hnetwork : next.network = db.network)
    (hstore : next.blockStore.network = db.blockStore.network)
    (horder : next.tables.blockTransactions = db.tables.blockTransactions)
    (hindex : next.tables.transactions = db.tables.transactions)
    (hrecords : ∀ {blockHash record'}, next.tables.blocks.lookup blockHash = some record' →
      ∃ record, db.tables.blocks.lookup blockHash = some record ∧
        record'.unmarked = record.unmarked ∧
        (record'.pruned = false → record.pruned = false ∧ ∀ block,
          db.blockStore.Holds record.fileLocation block →
            next.blockStore.Holds record.fileLocation block)) :
    next.Archives crypto blocks := by
  refine ⟨hstore.trans (harchives.network_eq.trans hnetwork.symm), fun hrecord' => ?_⟩
  obtain ⟨record, hrecord, hunmarked, hfiles⟩ := hrecords hrecord'
  obtain ⟨block, hblock, hhash, hkeeps, hholds⟩ := harchives.kept hrecord
  refine ⟨block, hblock, hhash, ?_, fun hpruned => ?_⟩
  · rw [hnetwork]
    exact hkeeps.remarked hunmarked horder hindex
  · obtain ⟨hbefore, hkept⟩ := hfiles hpruned
    rw [(BlockArchiveRecord.place_of_unmarked hunmarked).1]
    exact hkept block (hholds hbefore)

theorem remarks (harchives : db.Archives crypto blocks) {mark : Bytes 48 → Bool → Bool}
    {tables : Tables} (hnetwork : next.network = db.network)
    (hextends : db.blockStore.Extends next.blockStore)
    (hremarks : Tables.Remarks mark tables next.tables)
    (hblocks : tables.blocks = db.tables.blocks)
    (horder : tables.blockTransactions = db.tables.blockTransactions)
    (hindex : tables.transactions = db.tables.transactions) : next.Archives crypto blocks := by
  refine harchives.transfer hnetwork hextends.1 (hremarks.blockTransactions.trans horder)
    (hremarks.transactions.trans hindex) fun hrecord' => ?_
  rw [hremarks.blocks, hblocks, Option.map_eq_some_iff] at hrecord'
  obtain ⟨record, hrecord, rfl⟩ := hrecord'
  exact ⟨record, hrecord, rfl, fun hpruned => ⟨hpruned, fun _ hholds => hholds.extends hextends⟩⟩

theorem withBlock (harchives : db.Archives crypto blocks) (hlegible : Legible crypto blocks)
    {block : Block} {location : BlockFileLocation} (hblock : block ∈ blocks)
    (hnetwork : block.header.networkId = db.network)
    (hnone : db.tables.blocks.lookup (block.header.blockHash crypto) = none)
    (hholds : db.blockStore.Holds location block) (chainwork : Nat) :
    Archives crypto blocks
      { db with
        tables := db.tables.withBlock crypto db.network block.header.height block location
          chainwork } := by
  refine ⟨harchives.network_eq, fun {blockHash record} hrecord => ?_⟩
  dsimp only [Tables.withBlock] at hrecord
  by_cases hsame : blockHash = block.header.blockHash crypto
  · subst hsame
    rw [Finmap.lookup_insert] at hrecord
    cases hrecord
    obtain ⟨hfits, hbytes⟩ := Block.fits_of_length hholds.length_lt
    refine ⟨block, hblock, rfl, ⟨rfl, hnetwork, hfits,
      fun tx htx => Transaction.outputs_fit (hbytes tx htx),
      Finmap.lookup_insert _, ?_⟩, fun _ => hholds⟩
    · intro txIndex tx htx
      refine (Tables.lookup_indexTransactions (hlegible.nodup hblock) 0 _ htx).trans ?_
      rw [Nat.zero_add]
      rfl
  · rw [Finmap.lookup_insert_of_ne _ hsame] at hrecord
    obtain ⟨other, hother, hhash, hkeeps, hfiles⟩ := harchives.kept hrecord
    have hne : other ≠ block := by
      rintro rfl
      exact hsame hhash.symm
    refine ⟨other, hother, hhash,
      ⟨hkeeps.record_eq, hkeeps.network_eq, hkeeps.fits, hkeeps.outputs_fit, ?_, ?_⟩, hfiles⟩
    · dsimp only [Tables.withBlock]
      rw [Finmap.lookup_insert_of_ne _ (hhash ▸ hsame), hkeeps.order]
    · intro txIndex tx htx
      dsimp only [Tables.withBlock]
      rw [Tables.lookup_indexTransactions_of_notMem
        (hlegible.txid_notMem hother hblock hne htx), hkeeps.indexed txIndex tx htx]

theorem extendStore (harchives : db.Archives crypto blocks) {store : BlockFileStore}
    (hextends : db.blockStore.Extends store) :
    Archives crypto blocks { db with blockStore := store } :=
  harchives.transfer rfl hextends.1 rfl rfl fun hrecord =>
    ⟨_, hrecord, rfl, fun hpruned => ⟨hpruned, fun _ hholds => hholds.extends hextends⟩⟩

theorem commit (harchives : db.Archives crypto blocks) (hlegible : Legible crypto blocks)
    {snapshot : ChainstateSnapshot} {utxos : Option UtxoSet}
    {appended : Option (UInt64 × Block)} (hnetwork : next.network = db.network)
    (hextends : db.blockStore.Extends next.blockStore)
    (hcommits : Commits crypto snapshot utxos db next appended)
    (hoffered : ∀ height block, appended = some (height, block) →
      block ∈ blocks ∧ height = block.header.height) : next.Archives crypto blocks := by
  cases hcommits with
  | image hrebuild =>
      obtain ⟨mark, hremarks⟩ := Tables.rebuildHeightIndex_remarks hrebuild
      exact harchives.remarks hnetwork hextends hremarks rfl rfl rfl
  | known hblock hexisting hdelta htables =>
      refine harchives.transfer hnetwork hextends.1 (by rw [htables]) (by rw [htables])
        fun hrecord => ⟨_, by rwa [htables] at hrecord, rfl, fun hpruned =>
          ⟨hpruned, fun _ hholds => hholds.extends hextends⟩⟩
  | @fresh height block location chainwork changed hblock hnone hwork hdelta htables hholds =>
      obtain ⟨hmem, rfl⟩ := hoffered height block rfl
      have hfresh := (harchives.extendStore hextends).withBlock hlegible hmem hblock hnone hholds
        chainwork
      refine hfresh.transfer hnetwork rfl (by rw [htables]) (by rw [htables])
        fun hrecord => ⟨_, by rwa [htables] at hrecord, rfl, fun hpruned =>
          ⟨hpruned, fun _ hholds => hholds⟩⟩

theorem commitChainstate (harchives : db.Archives crypto blocks)
    (hlegible : Legible crypto blocks) {snapshot : ChainstateSnapshot} {utxos : Option UtxoSet}
    {appended : Option (UInt64 × Block)} {result : Except StorageError Unit}
    (hcommit : db.commitChainstate crypto snapshot utxos appended = (result, next))
    (hoffered : ∀ height block, appended = some (height, block) →
      block ∈ blocks ∧ height = block.header.height) : next.Archives crypto blocks := by
  obtain ⟨hnetwork, hextends, ⟨-, htables⟩ | hcommits⟩ := commitChainstate_cases hcommit
  · exact (harchives.extendStore hextends).transfer hnetwork rfl (by rw [htables])
      (by rw [htables]) fun hrecord => ⟨_, by rwa [htables] at hrecord, rfl, fun hpruned =>
        ⟨hpruned, fun _ hholds => hholds⟩⟩
  · exact harchives.commit hlegible hnetwork hextends hcommits hoffered

theorem writeBlockArchives (harchives : db.Archives crypto blocks)
    (hlegible : Legible crypto blocks) {archived : List (Block × BlockFileLocation)}
    (hoffered : ∀ entry ∈ archived, entry.1 ∈ blocks ∧ entry.1.header.networkId = db.network ∧
      db.blockStore.Holds entry.2 entry.1) {tables : Tables}
    (hwrite : db.tables.writeBlockArchives crypto db.network archived = .ok tables) :
    Archives crypto blocks { db with tables := tables } := by
  induction archived generalizing db with
  | nil =>
      cases hwrite
      exact harchives
  | cons entry rest ih =>
      rw [Tables.writeBlockArchives, bind_eq_ok] at hwrite
      obtain ⟨middle, hfirst, hrest⟩ := hwrite
      rw [List.forall_mem_cons] at hoffered
      obtain ⟨⟨hblock, hnetwork, hholds⟩, hoffered⟩ := hoffered
      rcases Tables.writeBlockArchive_ok hfirst with ⟨-, -, -, rfl⟩ | ⟨chainwork, hnone, -, rfl⟩
      · exact ih harchives hoffered hrest
      · have hnext := harchives.withBlock hlegible hblock hnetwork hnone hholds chainwork
        have hlast := ih hnext hoffered hrest
        exact hlast

theorem replace (harchives : db.Archives crypto blocks) (hlegible : Legible crypto blocks)
    {snapshot : ChainstateSnapshot} {utxos : UtxoSet} {replacement : List Block}
    (hreplace : db.replaceChainstate crypto snapshot utxos replacement = (.ok (), next))
    (hoffered : ∀ block ∈ replacement, block ∈ blocks) : next.Archives crypto blocks := by
  obtain ⟨hnetwork, locations, harchive, hwritten⟩ := replaceChainstate_ok hreplace
  obtain ⟨hextends, hnetworks, hholds⟩ := archiveBlocks_ok harchive
  simp only [Tables.replace, bind_eq_ok, pure_eq_ok] at hwritten
  obtain ⟨tables, hwrite, htables⟩ := hwritten
  have hstore : next.blockStore.network = db.network := hextends.1.trans harchives.network_eq
  have hbare : Archives crypto blocks
      ⟨db.network, { Tables.empty with snapshot := db.tables.snapshot }, next.blockStore,
        next.journal, next.faults⟩ :=
    ⟨hstore, fun hrecord => by simp [Tables.empty] at hrecord⟩
  have hentries : ∀ entry ∈ replacement.zip locations, entry.1 ∈ blocks ∧
      entry.1.header.networkId = db.network ∧ next.blockStore.Holds entry.2 entry.1 := by
    intro entry hentry
    have hmem := (List.of_mem_zip hentry).1
    exact ⟨hoffered _ hmem, hnetworks _ hmem, (List.forall₂_iff_zip.mp hholds).2 hentry⟩
  refine (hbare.writeBlockArchives hlegible hentries hwrite).transfer hnetwork rfl
    (by rw [← htables]) (by rw [← htables]) fun hrecord =>
      ⟨_, by rwa [← htables] at hrecord, rfl, fun hpruned => ⟨hpruned, fun _ hholds => hholds⟩⟩

theorem prune (harchives : db.Archives crypto blocks) (target : Option Nat)
    (tipHeight pruneDepth : UInt64) :
    (db.pruneArchivedBlocks target tipHeight pruneDepth).2.Archives crypto blocks := by
  rcases hprune : db.pruneArchivedBlocks target tipHeight pruneDepth with ⟨result, next⟩
  obtain ⟨hnetwork, ⟨htables, hstore⟩ | ⟨files, removed, hremoved, htables, hstore⟩⟩ :=
    pruneArchivedBlocks_cases hprune
  · exact harchives.transfer hnetwork (by rw [hstore]) (by rw [htables]) (by rw [htables])
      fun hrecord => ⟨_, by rwa [htables] at hrecord, rfl, fun hpruned =>
        ⟨hpruned, fun _ hholds => by rwa [hstore]⟩⟩
  · have hkeyed : ∀ record ∈ files.flatMap db.tables.pendingPrune,
        db.tables.blocks.lookup record.blockHash = some record := by
      intro record hrecord
      obtain ⟨fileNumber, -, hpending⟩ := List.mem_flatMap.mp hrecord
      obtain ⟨⟨blockHash, hrecord⟩, -, -⟩ := Tables.mem_pendingPrune.mp hpending
      obtain ⟨block, -, hhash, hkeeps, -⟩ := harchives.kept hrecord
      rwa [hkeeps.blockHash_eq, hhash]
    refine harchives.transfer hnetwork (by rw [hstore, BlockFileStore.deleteFiles_network])
      (by rw [htables]; rfl) (by rw [htables]; rfl) fun {blockHash record'} hrecord' => ?_
    rw [htables, Tables.lookup_markPruned hkeyed, Option.map_eq_some_iff] at hrecord'
    obtain ⟨record, hrecord, rfl⟩ := hrecord'
    refine ⟨record, hrecord, rfl, fun hpruned => ?_⟩
    simp only [Bool.or_eq_false_iff, decide_eq_false_iff_not] at hpruned
    refine ⟨hpruned.1, fun block hholds => ?_⟩
    rw [hstore]
    -- The file of a record that stays unpruned is not among those that go.
    refine hholds.deleteFiles fun hfile => hpruned.2 ?_
    obtain ⟨other, -, hhash, hkeeps, -⟩ := harchives.kept hrecord
    rw [Tables.hashesOf, List.mem_map]
    exact ⟨record, List.mem_flatMap.mpr ⟨_, hremoved hfile,
      Tables.mem_pendingPrune.mpr ⟨⟨blockHash, hrecord⟩, rfl, hpruned.1⟩⟩,
      hkeeps.blockHash_eq.trans hhash⟩

end Archives

/-! Runs. -/

/-- One call that writes the archive: a commit, whether or not it succeeds, a chain
replacement that succeeds, or a pruning pass. The blocks are some of `blocks`. -/
inductive ArchiveStep (crypto : Crypto) (target : Option Nat) (blocks : Set Block)
    (db : Database) : Database → Prop where
  | commit (snapshot : ChainstateSnapshot) (utxos : Option UtxoSet) (appended : Option Block)
      (hoffered : ∀ block ∈ appended, block ∈ blocks) :
      ArchiveStep crypto target blocks db
        (db.commitChainstate crypto snapshot utxos
          (appended.map fun block => (block.header.height, block))).2
  | replace (snapshot : ChainstateSnapshot) (utxos : UtxoSet) (replacement : List Block)
      {next : Database} (hoffered : ∀ block ∈ replacement, block ∈ blocks)
      (hreplace : db.replaceChainstate crypto snapshot utxos replacement = (.ok (), next)) :
      ArchiveStep crypto target blocks db next
  | prune (tipHeight pruneDepth : UInt64) :
      ArchiveStep crypto target blocks db
        (db.pruneArchivedBlocks target tipHeight pruneDepth).2

theorem Archives.step {crypto : Crypto} {target : Option Nat} {blocks : Set Block}
    {db next : Database} (hlegible : Legible crypto blocks)
    (hstep : ArchiveStep crypto target blocks db next) (harchives : db.Archives crypto blocks) :
    next.Archives crypto blocks := by
  cases hstep with
  | commit snapshot utxos appended hoffered =>
      refine harchives.commitChainstate hlegible rfl fun height block heq => ?_
      obtain ⟨found, hfound, hpair⟩ := Option.map_eq_some_iff.mp heq
      cases hpair
      exact ⟨hoffered block hfound, rfl⟩
  | replace snapshot utxos replacement hoffered hreplace =>
      exact harchives.replace hlegible hreplace hoffered
  | prune tipHeight pruneDepth => exact harchives.prune target tipHeight pruneDepth

theorem Archives.of_run {crypto : Crypto} {target : Option Nat} {blocks : Set Block}
    {network : Network} {faults : List (Option WriteFault)} {db : Database}
    (hlegible : Legible crypto blocks)
    (hrun : ReflTransGen (ArchiveStep crypto target blocks) (.empty network faults) db) :
    db.Archives crypto blocks := by
  induction hrun with
  | refl => exact .empty crypto blocks network faults
  | tail _ hstep ih => exact ih.step hlegible hstep

/-- After any run from an empty database, every block that has a record is given back
as it was committed, canonical or not and pruned or not, as long as no transaction is
in two of the blocks and every header carries the consensus founders' hashes. -/
theorem archived_blocks_readable (crypto : Crypto) (target : Option Nat) (blocks : Set Block)
    (network : Network) (faults : List (Option WriteFault)) (db : Database)
    (hlegible : Legible crypto blocks)
    (hrun : ReflTransGen (ArchiveStep crypto target blocks) (.empty network faults) db)
    (blockHash : Bytes 48) (hrecord : db.tables.blocks.lookup blockHash ≠ none) :
    ∃ block ∈ blocks, block.header.blockHash crypto = blockHash ∧
      db.loadBlock crypto blockHash = .ok (some block) := by
  obtain ⟨record, hrecord⟩ := Option.ne_none_iff_exists'.mp hrecord
  exact (Archives.of_run hlegible hrun).loadBlock_eq hlegible hrecord

/-! Two blocks that share their reward transaction. -/

/-- The tip that a block is, for the snapshot. -/
def tipOf (block : Block) : ChainstateSnapshot :=
  ⟨block.header.height, block.header.blockHash .hashing, some block.header⟩

def commitBlock (db : Database) (block : Block) : Database :=
  (db.commitChainstate .hashing (tipOf block) none (some (block.header.height, block))).2

def regnetArchive : Database :=
  commitBlock (.empty .regnet []) (genesisBlock .hashing .regnet)

/-- Once pruned, the first block is built from the index. -/
theorem pruned_block_readable :
    (pruneArchivedBlocks none (commitBlock regnetArchive firstBlock) 1 0).2.loadBlock .hashing
        (firstBlock.header.blockHash .hashing) = .ok (some firstBlock) ∧
      (pruneArchivedBlocks none (commitBlock regnetArchive firstBlock) 1 0).2.blockStore.files =
        ∅ := by
  refine ⟨?_, by decide +kernel⟩
  have hfirst : firstBlock ∈ [genesisBlock .hashing .regnet, firstBlock] := by simp
  have hlegible : Legible .hashing
      { block | block ∈ [genesisBlock .hashing .regnet, firstBlock] } :=
    .of_nodup (by decide +kernel) (by decide +kernel) (by decide +kernel)
  obtain ⟨block, hmem, hhash, hload⟩ := archived_blocks_readable .hashing none
    { block | block ∈ [genesisBlock .hashing .regnet, firstBlock] } .regnet [] _ hlegible
    (((ReflTransGen.single (.commit (tipOf (genesisBlock .hashing .regnet)) none
      (some (genesisBlock .hashing .regnet)) (by simp))).tail
        (.commit (tipOf firstBlock) none (some firstBlock) (by simp))).tail
          (.prune 1 0))
    (firstBlock.header.blockHash .hashing) (by decide +kernel)
  obtain rfl := hlegible.hash_inj hmem hfirst hhash
  exact hload

/-- The first block mined once more. -/
def siblingBlock : Block :=
  { firstBlock with header := { firstBlock.header with nonce := 144583 } }

/-- The first block is taken back for its sibling, and both are pruned. -/
def siblingArchive : Database :=
  let first := commitBlock regnetArchive firstBlock
  let back := (first.commitChainstate .hashing (tipOf (genesisBlock .hashing .regnet))
    (some (UtxoSet.genesisUtxos .hashing .regnet)) none).2
  (pruneArchivedBlocks none (commitBlock back siblingBlock) 1 0).2

/-- The first block with a founders' hash of its own, mined again. -/
def foundlingBlock : Block :=
  { firstBlock with
    header := { firstBlock.header with foundersHashSha3_384 := .zero 48, nonce := 35569 } }

def foundlingArchive : Database :=
  (pruneArchivedBlocks none (commitBlock regnetArchive foundlingBlock) 1 0).2

theorem pruned_blocks_unreadable :
    ReflTransGen (ArchiveStep .hashing none Set.univ) (.empty .regnet []) siblingArchive ∧
    ReflTransGen (ArchiveStep .hashing none Set.univ) (.empty .regnet []) foundlingArchive ∧
    (∀ block ∈ [firstBlock, siblingBlock, foundlingBlock],
      (ChainMemory.genesis .hashing .regnet).validateNext .hashing exampleClock block =
        .ok ()) ∧
    siblingArchive.tables.blocks.lookup (firstBlock.header.blockHash .hashing) ≠ none ∧
    siblingArchive.loadBlock .hashing (firstBlock.header.blockHash .hashing) =
      .error .corruptData ∧
    foundlingArchive.tables.blocks.lookup (foundlingBlock.header.blockHash .hashing) ≠ none ∧
    foundlingArchive.loadBlock .hashing (foundlingBlock.header.blockHash .hashing) ≠
      .ok (some foundlingBlock) := by
  have hgenesis : ReflTransGen (ArchiveStep .hashing none Set.univ) (.empty .regnet [])
      regnetArchive :=
    .single (.commit _ _ (some (genesisBlock .hashing .regnet)) (by simp))
  refine ⟨?_, ?_, ?_⟩
  · exact (((hgenesis.tail (.commit _ _ (some firstBlock) (by simp))).tail
      (.commit _ _ none (by simp))).tail (.commit _ _ (some siblingBlock) (by simp))).tail
        (.prune 1 0)
  · exact (hgenesis.tail (.commit _ _ (some foundlingBlock) (by simp))).tail (.prune 1 0)
  · decide +kernel

end Database

end Atho
