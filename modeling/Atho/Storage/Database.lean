import Atho.Library.Cursor
import Atho.Storage.BlockFiles
import Atho.Storage.Chainstate

/-! The database: tables that one transaction changes together, the block files
beside them, and the calls that the chainstate makes. -/

namespace Atho

instance : TableKey UInt64 where
  keyBytes := be64
  keyBytes_injective _ _ heq := le64_injective (List.reverse_injective heq)

/-! Records and tables. -/

structure BlockArchiveRecord where
  height : UInt64
  blockHash : Bytes 48
  previousBlockHash : Bytes 48
  network : Network
  version : UInt16
  merkleRoot : Bytes 48
  witnessRoot : Bytes 48
  timestamp : UInt64
  difficultyTargetOrBits : Bytes 48
  nonce : UInt64
  fileLocation : BlockFileLocation
  txCount : UInt32
  chainwork : Nat
  mainChain : Bool
  pruned : Bool
  deriving DecidableEq

/-- The header as the record gives it back; the founders' hashes are not stored. -/
def BlockArchiveRecord.header (record : BlockArchiveRecord) : BlockHeader where
  version := record.version
  networkId := record.network
  height := record.height
  previousBlockHash := record.previousBlockHash
  merkleRoot := record.merkleRoot
  witnessRoot := record.witnessRoot
  foundersHashSha3_384 := foundersHashSha3_384
  foundersHashSha3_512 := foundersHashSha3_512
  timestamp := record.timestamp
  difficultyTargetOrBits := record.difficultyTargetOrBits
  nonce := record.nonce

/-- A record of the transaction index. -/
structure IndexedTransaction extends TransactionArchiveRecord where
  blockHash : Bytes 48
  txIndex : UInt32
  txid : Bytes 48
  deriving DecidableEq

structure BlockTransactionsRecord where
  height : UInt64
  txids : List (Bytes 48)
  deriving DecidableEq

structure Tables where
  snapshot : Option ChainstateSnapshot
  blocks : Finmap fun _ : Bytes 48 => BlockArchiveRecord
  blockHeights : Finmap fun _ : UInt64 => Bytes 48
  blockTransactions : Finmap fun _ : Bytes 48 => BlockTransactionsRecord
  transactions : Finmap fun _ : Bytes 48 => IndexedTransaction
  utxos : Finmap fun _ : UtxoKey => UtxoEntry

namespace Tables

def empty : Tables := ⟨none, ∅, ∅, ∅, ∅, ∅⟩

/-! What a transaction writes. -/

def indexTransactions (crypto : Crypto) (height : UInt64) (blockHash : Bytes 48) :
    (txIndex : Nat) → (Finmap fun _ : Bytes 48 => IndexedTransaction) → List Transaction →
      Finmap fun _ : Bytes 48 => IndexedTransaction
  | _, index, [] => index
  | txIndex, index, tx :: rest =>
      let record : IndexedTransaction :=
        ⟨⟨height, tx⟩, blockHash, UInt32.ofNat txIndex, tx.txid crypto⟩
      indexTransactions crypto height blockHash (txIndex + 1) (index.insert record.txid record)
        rest

def archiveRecord (crypto : Crypto) (network : Network) (height : UInt64) (block : Block)
    (location : BlockFileLocation) (chainwork : Nat) : BlockArchiveRecord where
  height := height
  blockHash := block.header.blockHash crypto
  previousBlockHash := block.header.previousBlockHash
  network := network
  version := block.header.version
  merkleRoot := block.header.merkleRoot
  witnessRoot := block.header.witnessRoot
  timestamp := block.header.timestamp
  difficultyTargetOrBits := block.header.difficultyTargetOrBits
  nonce := block.header.nonce
  fileLocation := location
  txCount := UInt32.ofNat block.transactions.length
  chainwork := chainwork
  mainChain := true
  pruned := false

/-- The work of a block and of all blocks below it. -/
def archiveChainwork (tables : Tables) (height : UInt64) (block : Block) :
    Except StorageError Nat := do
  let work := blockProof block.header.difficultyTargetOrBits
  if height = 0 then pure work
  else
    let previous ← okOr (tables.blocks.lookup block.header.previousBlockHash)
      StorageError.incompleteBlockHistory
    pure (previous.chainwork + work)

def writeBlockArchive (crypto : Crypto) (network : Network) (height : UInt64) (block : Block)
    (location : BlockFileLocation) (tables : Tables) : Except StorageError Tables := do
  let blockHash := block.header.blockHash crypto
  match tables.blocks.lookup blockHash with
  | some existing =>
      if existing.height = height ∧ existing.blockHash = blockHash then pure tables
      else .error .corruptData
  | none =>
      let chainwork ← tables.archiveChainwork height block
      pure
        { tables with
          blocks := tables.blocks.insert blockHash
            (archiveRecord crypto network height block location chainwork)
          blockHeights := tables.blockHeights.insert height blockHash
          blockTransactions := tables.blockTransactions.insert blockHash
            ⟨height, block.transactions.map (Transaction.txid crypto)⟩
          transactions := indexTransactions crypto height blockHash 0 tables.transactions
            block.transactions }

/-- Spent keys that are not there are passed over. -/
def deleteSpent (utxos : Finmap fun _ : UtxoKey => UtxoEntry) (inputs : List TxInput) :
    Finmap fun _ : UtxoKey => UtxoEntry :=
  inputs.foldl (fun utxos input => utxos.erase input.key) utxos

def insertCreated : (utxos : Finmap fun _ : UtxoKey => UtxoEntry) → List UtxoEntry →
    Except StorageError (Finmap fun _ : UtxoKey => UtxoEntry)
  | utxos, [] => .ok utxos
  | utxos, entry :: rest =>
      if (utxos.lookup entry.key).isSome then .error .duplicateUtxo
      else insertCreated (utxos.insert entry.key entry) rest

def applyUtxoDelta (crypto : Crypto) (network : Network) (height : UInt64) :
    (utxos : Finmap fun _ : UtxoKey => UtxoEntry) → List Transaction →
      Except StorageError (Finmap fun _ : UtxoKey => UtxoEntry)
  | utxos, [] => .ok utxos
  | utxos, tx :: rest => do
      let utxos ← insertCreated (deleteSpent utxos tx.inputs)
        (UtxoSet.createOutputs crypto tx network height)
      applyUtxoDelta crypto network height utxos rest

def updateMainChainFlag (tables : Tables) (blockHash : Bytes 48) (mainChain : Bool) :
    Except StorageError Tables := do
  let record ← okOr (tables.blocks.lookup blockHash) StorageError.incompleteBlockHistory
  if record.mainChain = mainChain then pure tables
  else
    pure { tables with
      blocks := tables.blocks.insert blockHash { record with mainChain := mainChain } }

/-- Write the heights from a block down to height zero; `visited` are the hashes met
so far. A walk that meets more blocks than are stored runs in a circle: the source
never leaves it. -/
def walkMainChain : (rounds : Nat) → (visited : List (Bytes 48)) → Tables → Bytes 48 →
    Except StorageError (List (Bytes 48) × Tables)
  | 0, _, _, _ => .error .incompleteBlockHistory
  | rounds + 1, visited, tables, nextHash => do
      let record ← okOr (tables.blocks.lookup nextHash) StorageError.incompleteBlockHistory
      let tables ← updateMainChainFlag
        { tables with
          blockHeights := tables.blockHeights.insert record.height record.blockHash }
        record.blockHash true
      let visited := record.blockHash :: visited
      if record.height = 0 then pure (visited, tables)
      else walkMainChain rounds visited tables record.previousBlockHash

def unsetMainChainFlags : Tables → List (Bytes 48) → Except StorageError Tables
  | tables, [] => .ok tables
  | tables, blockHash :: rest => do
      let tables ← tables.updateMainChainFlag blockHash false
      unsetMainChainFlags tables rest

def currentMainChainHashes (tables : Tables) : List (Bytes 48) :=
  (tables.blockHeights.cursor.map Prod.snd).dedup

def rebuildHeightIndex (tables : Tables) (tipHash : Bytes 48) : Except StorageError Tables := do
  let old := tables.currentMainChainHashes
  let cleared := { tables with blockHeights := ∅ }
  if tipHash = .zero 48 then cleared.unsetMainChainFlags old
  else
    let (visited, tables) ← walkMainChain (tables.blocks.keys.card + 1) [] cleared tipHash
    tables.unsetMainChainFlags (old.filter fun blockHash => blockHash ∉ visited)

/-- The location is there when the block was not archived before. -/
def commit (crypto : Crypto) (network : Network) (snapshot : ChainstateSnapshot)
    (utxos : Option UtxoSet) (appended : Option (UInt64 × Block))
    (location : Option BlockFileLocation) (tables : Tables) : Except StorageError Tables := do
  let tables ← match appended, location with
    | some (height, block), some location =>
        tables.writeBlockArchive crypto network height block location
    | _, _ => pure tables
  let tables := { tables with snapshot := some snapshot }
  match appended with
  | some (_, block) =>
      let utxos ← applyUtxoDelta crypto network block.header.height tables.utxos
        block.transactions
      pure { tables with utxos := utxos }
  | none =>
      rebuildHeightIndex { tables with utxos := (utxos.map UtxoSet.entries).getD ∅ }
        snapshot.tipHash

def writeBlockArchives (crypto : Crypto) (network : Network) :
    Tables → List (Block × BlockFileLocation) → Except StorageError Tables
  | tables, [] => .ok tables
  | tables, (block, location) :: rest => do
      let tables ← tables.writeBlockArchive crypto network block.header.height block location
      writeBlockArchives crypto network tables rest

def replace (crypto : Crypto) (network : Network) (snapshot : ChainstateSnapshot)
    (utxos : UtxoSet) (archived : List (Block × BlockFileLocation)) (tables : Tables) :
    Except StorageError Tables := do
  let tables ← writeBlockArchives crypto network { empty with snapshot := tables.snapshot }
    archived
  pure { tables with snapshot := some snapshot, utxos := utxos.entries }

/-! Reading. -/

def loadIndexedTransactions (tables : Tables) (blockHash : Bytes 48) (height : UInt64) :
    (txIndex : Nat) → List (Bytes 48) → Except StorageError (List IndexedTransaction)
  | _, [] => .ok []
  | txIndex, txid :: rest => do
      let record ← okOr (tables.transactions.lookup txid) StorageError.incompleteBlockHistory
      rejectWhen (record.txIndex ≠ UInt32.ofNat txIndex ∨ record.blockHash ≠ blockHash ∨
        record.height ≠ height) .corruptData
      let records ← tables.loadIndexedTransactions blockHash height (txIndex + 1) rest
      pure (record :: records)

def loadBlockTransactions (tables : Tables) (blockHash : Bytes 48) :
    Except StorageError (List IndexedTransaction) :=
  match tables.blockTransactions.lookup blockHash with
  | none => .ok []
  | some order => tables.loadIndexedTransactions blockHash order.height 0 order.txids

/-- A block out of its metadata and the transaction index. -/
def rebuildBlock (tables : Tables) (record : BlockArchiveRecord) : Except StorageError Block := do
  let transactions ← tables.loadBlockTransactions record.blockHash
  rejectWhen (transactions.length ≠ record.txCount.toNat) .incompleteBlockHistory
  pure ⟨record.header, transactions.map fun record => record.transaction⟩

def listBlockRecords (tables : Tables) : List BlockArchiveRecord :=
  (tables.blocks.cursor.map Prod.snd).insertionSort fun left right =>
    left.height < right.height ∨
      left.height = right.height ∧ TableKey.Below left.blockHash right.blockHash

/-! Pruning. -/

def recordsOfFile (tables : Tables) (fileNumber : Nat) : List BlockArchiveRecord :=
  tables.listBlockRecords.filter fun record => record.fileLocation.fileNumber = fileNumber

def pendingPrune (tables : Tables) (fileNumber : Nat) : List BlockArchiveRecord :=
  (tables.recordsOfFile fileNumber).filter fun record => !record.pruned

def fileMaxHeight (tables : Tables) (fileNumber : Nat) : UInt64 :=
  ((tables.recordsOfFile fileNumber).map fun record => record.height).foldl max 0

def pendingBytes (tables : Tables) (fileNumber : Nat) : Nat :=
  ((tables.pendingPrune fileNumber).map fun record => record.fileLocation.recordLength).sum

def archiveFileNumbers (tables : Tables) : List Nat :=
  (tables.listBlockRecords.map fun record => record.fileLocation.fileNumber).dedup.insertionSort
    (· ≤ ·)

/-- The files that go because the archive is larger than the configured target. -/
def filesOverTarget (tables : Tables) (tipHeight : UInt64) (target : Nat) (chosen : List Nat) :
    (unprunedBytes : Nat) → List Nat → List Nat
  | _, [] => []
  | unprunedBytes, fileNumber :: rest =>
      if unprunedBytes ≤ target then []
      else if fileNumber ∈ chosen ∨ tipHeight ≤ tables.fileMaxHeight fileNumber ∨
          tables.pendingPrune fileNumber = [] then
        tables.filesOverTarget tipHeight target chosen unprunedBytes rest
      else
        fileNumber :: tables.filesOverTarget tipHeight target chosen
          (unprunedBytes - tables.pendingBytes fileNumber) rest

def pruneFiles (tables : Tables) (target : Option Nat) (tipHeight cutoff : UInt64) : List Nat :=
  let fileNumbers := tables.archiveFileNumbers
  let old := fileNumbers.filter fun fileNumber =>
    tables.fileMaxHeight fileNumber ≤ cutoff ∧ tables.pendingPrune fileNumber ≠ []
  let large := match target with
    | none => []
    | some target => tables.filesOverTarget tipHeight target old
        (fileNumbers.map tables.pendingBytes).sum fileNumbers
  fileNumbers.filter fun fileNumber => fileNumber ∈ old ∨ fileNumber ∈ large

def markPruned (tables : Tables) (records : List BlockArchiveRecord) : Tables :=
  { tables with
    blocks := records.foldl
      (fun blocks record => blocks.insert record.blockHash { record with pruned := true })
      tables.blocks }

end Tables

/-! The database. -/

/-- Where a write of the database can fail. The transaction is atomic; `finish` is
the removal of the journal file after it. -/
inductive WriteFault where
  | journal
  | reset (removed : List Nat)
  | append (index : Nat) (fault : AppendFault)
  | transaction
  | delete (removed : Nat)
  | finish
  deriving DecidableEq

/-- `journal` says that a commit journal lies on the disk, and `faults` which of the
coming writes fail and where. -/
structure Database where
  network : Network
  tables : Tables
  blockStore : BlockFileStore
  journal : Bool
  faults : List (Option WriteFault)

namespace Database

def empty (network : Network) (faults : List (Option WriteFault)) : Database :=
  ⟨network, .empty, ⟨network, ∅⟩, false, faults⟩

def fault (db : Database) : Option WriteFault := db.faults.head?.join

def nextWrite (db : Database) : Database := { db with faults := db.faults.tail }

def appendFault (fault : Option WriteFault) (index : Nat) : Option AppendFault :=
  match fault with
  | some (.append failing fault) => if failing = index then some fault else none
  | _ => none

def loadBlock (crypto : Crypto) (db : Database) (blockHash : Bytes 48) :
    Except StorageError (Option Block) :=
  match db.tables.blocks.lookup blockHash with
  | none => .ok none
  | some record =>
      if record.pruned then some <$> db.tables.rebuildBlock record
      else
        match db.blockStore.readBlock record.fileLocation with
        | .ok block =>
            if block.header.blockHash crypto ≠ record.blockHash ∨
                block.header.height ≠ record.height then
              some <$> db.tables.rebuildBlock record
            else .ok (some block)
        | .error .io | .error .corruptData | .error .crossNetworkReplay =>
            some <$> db.tables.rebuildBlock record
        | .error err => .error err

/-- Only an empty archive needs a number to go on with. -/
def archiveAppendFileHint (db : Database) : Option Nat :=
  match db.blockStore.highestFileNumber with
  | some _ => none
  | none =>
      (db.tables.listBlockRecords.map fun record => record.fileLocation.fileNumber).max?.map
        (· + 1)

/-- Append the raw block unless it is archived already. -/
def archiveAppend (crypto : Crypto) (db : Database) (fault : Option WriteFault)
    (appended : Option (UInt64 × Block)) :
    Except StorageError (Option BlockFileLocation) × Database :=
  match appended with
  | none => (.ok none, db)
  | some (_, block) =>
      if block.header.networkId ≠ db.network then (.error .crossNetworkReplay, db)
      else if (db.tables.blocks.lookup (block.header.blockHash crypto)).isSome then (.ok none, db)
      else
        match db.blockStore.appendBlockWithMinimumFileNumber block db.archiveAppendFileHint
            (appendFault fault 0) with
        | (.error err, store) => (.error err, { db with blockStore := store })
        | (.ok location, store) => (.ok (some location), { db with blockStore := store })

/-- Run the transaction and remove the journal. -/
def transact (db : Database) (fault : Option WriteFault) (written : Except StorageError Tables) :
    Except StorageError Unit × Database :=
  match written with
  | .error err => (.error err, db)
  | .ok tables =>
      if fault = some .transaction then (.error .lmdb, db)
      else
        let db := { db with tables := tables }
        if fault = some .finish then (.error .io, db)
        else (.ok (), { db with journal := false })

def commitChainstate (crypto : Crypto) (db : Database) (snapshot : ChainstateSnapshot)
    (utxos : Option UtxoSet) (appended : Option (UInt64 × Block)) :
    Except StorageError Unit × Database :=
  if db.fault = some .journal then (.error .io, db.nextWrite)
  else
    match archiveAppend crypto { db.nextWrite with journal := true } db.fault appended with
    | (.error err, failed) => (.error err, failed)
    | (.ok location, archived) =>
        archived.transact db.fault
          (archived.tables.commit crypto archived.network snapshot utxos appended location)

/-- Append the raw blocks, of which `index` are written already. -/
def archiveBlocks (network : Network) (fault : Option WriteFault) :
    (index : Nat) → BlockFileStore → List Block →
      Except StorageError (List BlockFileLocation) × BlockFileStore
  | _, store, [] => (.ok [], store)
  | index, store, block :: rest =>
      if block.header.networkId ≠ network then (.error .crossNetworkReplay, store)
      else
        match store.appendBlockWithMinimumFileNumber block none (appendFault fault index) with
        | (.error err, store) => (.error err, store)
        | (.ok location, store) =>
            match archiveBlocks network fault (index + 1) store rest with
            | (.error err, store) => (.error err, store)
            | (.ok locations, store) => (.ok (location :: locations), store)

def replaceChainstate (crypto : Crypto) (db : Database) (snapshot : ChainstateSnapshot)
    (utxos : UtxoSet) (blocks : List Block) : Except StorageError Unit × Database :=
  match db.fault with
  | some .journal => (.error .io, db.nextWrite)
  | some (.reset removed) =>
      (.error .io,
        { db.nextWrite with
          journal := true
          blockStore := removed.foldl .deleteFile db.blockStore })
  | fault =>
      match archiveBlocks db.network fault 0 db.blockStore.reset blocks with
      | (.error err, store) =>
          (.error err, { db.nextWrite with journal := true, blockStore := store })
      | (.ok locations, store) =>
          transact { db.nextWrite with journal := true, blockStore := store } fault
            (db.tables.replace crypto db.network snapshot utxos (blocks.zip locations))

def pruneArchivedBlocks (target : Option Nat) (db : Database) (tipHeight pruneDepth : UInt64) :
    Except StorageError Unit × Database :=
  match tipHeight.checkedSub pruneDepth with
  | none => (.ok (), db)
  | some cutoff =>
      match db.tables.pruneFiles target tipHeight cutoff with
      | [] => (.ok (), db)
      | files =>
          if db.fault = some .transaction then (.error .lmdb, db.nextWrite)
          else
            let pruned :=
              { db.nextWrite with
                tables := db.tables.markPruned (files.flatMap db.tables.pendingPrune) }
            match db.fault with
            | some (.delete removed) =>
                (.error .io,
                  { pruned with
                    blockStore := (files.take removed).foldl .deleteFile pruned.blockStore })
            | _ =>
                (.ok (), { pruned with
                  blockStore := files.foldl .deleteFile pruned.blockStore })

/-- The surroundings of a chainstate that has a database; `target` is the value of the
archive size variable that parses. -/
def host (crypto : Crypto) (target : Option Nat)
    (prunetestPruneDepth prunetestMaxReorgDepth : Option UInt64) : Host Database where
  loadBlock := loadBlock crypto
  loadBlockRecordHeight db blockHash :=
    .ok ((db.tables.blocks.lookup blockHash).map fun record => record.height)
  loadBlockHashByHeight db height := .ok (db.tables.blockHeights.lookup height)
  loadTransaction db txid :=
    .ok ((db.tables.transactions.lookup txid).map fun record => record.toTransactionArchiveRecord)
  commitChainstate := commitChainstate crypto
  replaceChainstate := replaceChainstate crypto
  pruneArchivedBlocks db tipHeight pruneDepth :=
    (pruneArchivedBlocks target db tipHeight pruneDepth).2
  crypto := crypto
  prunetestPruneDepth := prunetestPruneDepth
  prunetestMaxReorgDepth := prunetestMaxReorgDepth

end Database

/-- The chainstate of a database that holds nothing yet. -/
def Chainstate.create (host : Host Database) (network : Network) (db : Database) :
    Except StorageError Unit × Chainstate Database :=
  let state := freshWithStorage host network (some db)
  state.persist fun db =>
    host.commitChainstate db ⟨0, state.tipHash, state.tip⟩ (some state.utxos)
      (some (0, genesisBlock host.crypto network))

end Atho
