import Atho.Storage.Archive

/-! Which archived blocks pruning takes: the depth chooses files below the window that
a reorganisation can reach, the size target chooses any file below the tip. -/

namespace Atho

namespace Tables

variable {tables : Tables} {tipHeight cutoff : UInt64} {target fileNumber : Nat}

/-- The files that the size target may choose: they hold unpruned records, all of them
below the tip, and were not chosen already. -/
def TakenForSize (tables : Tables) (tipHeight : UInt64) (chosen : List Nat) (fileNumber : Nat) :
    Prop :=
  fileNumber ∉ chosen ∧ tables.fileMaxHeight fileNumber < tipHeight ∧
    tables.pendingPrune fileNumber ≠ []

instance (tables : Tables) (tipHeight : UInt64) (chosen : List Nat) (fileNumber : Nat) :
    Decidable (tables.TakenForSize tipHeight chosen fileNumber) :=
  inferInstanceAs (Decidable (_ ∧ _))

/-- The unpruned bytes in such files with a lower number. -/
def bytesBelow (tables : Tables) (tipHeight : UInt64) (chosen files : List Nat)
    (fileNumber : Nat) : Nat :=
  ((files.filter fun other => other < fileNumber ∧
    tables.TakenForSize tipHeight chosen other).map tables.pendingBytes).sum

theorem mem_filesOverTarget {chosen files : List Nat} {unprunedBytes : Nat}
    (hsorted : files.Pairwise (· < ·)) :
    fileNumber ∈ tables.filesOverTarget tipHeight target chosen unprunedBytes files ↔
      fileNumber ∈ files ∧ tables.TakenForSize tipHeight chosen fileNumber ∧
        target + tables.bytesBelow tipHeight chosen files fileNumber < unprunedBytes := by
  induction files generalizing unprunedBytes with
  | nil => simp [filesOverTarget]
  | cons first rest ih =>
      obtain ⟨hfirst, hrest⟩ := List.pairwise_cons.mp hsorted
      have hskip : ∀ file, tables.bytesBelow tipHeight chosen (first :: rest) file =
          (if first < file ∧ tables.TakenForSize tipHeight chosen first
            then tables.pendingBytes first else 0) +
            tables.bytesBelow tipHeight chosen rest file := by
        intro file
        simp only [bytesBelow, List.filter_cons]
        split <;> simp_all
      have hself : tables.bytesBelow tipHeight chosen rest first = 0 := by
        rw [bytesBelow, List.filter_eq_nil_iff.mpr, List.map_nil, List.sum_nil]
        intro other hother
        have hlt := hfirst other hother
        simp only [decide_eq_true_eq]
        omega
      rw [filesOverTarget]
      split
      · next hsmall =>
          simp only [List.not_mem_nil, false_iff]
          rintro ⟨-, -, hlt⟩
          omega
      · next hlarge =>
          have htaken : ¬ (first ∈ chosen ∨ tipHeight ≤ tables.fileMaxHeight first ∨
              tables.pendingPrune first = []) ↔
                tables.TakenForSize tipHeight chosen first := by
            rw [not_or, not_or, UInt64.not_le, TakenForSize]
          split
          · next hskipped =>
              have hnot : ¬ tables.TakenForSize tipHeight chosen first :=
                fun htake => htaken.mpr htake hskipped
              rw [ih hrest, hskip, if_neg fun htake => hnot htake.2, Nat.zero_add, List.mem_cons]
              constructor
              · rintro ⟨hmem, htake, hlt⟩
                exact ⟨.inr hmem, htake, hlt⟩
              · rintro ⟨rfl | hmem, htake, hlt⟩
                · exact absurd htake hnot
                · exact ⟨hmem, htake, hlt⟩
          · next htake =>
              have htake := htaken.mp htake
              rw [List.mem_cons, List.mem_cons, ih hrest]
              constructor
              · rintro (rfl | ⟨hmem, htakes, hlt⟩)
                · refine ⟨.inl rfl, htake, ?_⟩
                  rw [hskip, if_neg fun hlt => lt_irrefl _ hlt.1, hself]
                  omega
                · refine ⟨.inr hmem, htakes, ?_⟩
                  rw [hskip, if_pos ⟨hfirst fileNumber hmem, htake⟩]
                  omega
              · rintro ⟨rfl | hmem, htakes, hlt⟩
                · exact .inl rfl
                · rw [hskip, if_pos ⟨hfirst fileNumber hmem, htake⟩] at hlt
                  exact .inr ⟨hmem, htakes, by omega⟩

/-- The files that go for their depth: all their blocks are at or below the cutoff. -/
def filesBelowWindow (tables : Tables) (cutoff : UInt64) : List Nat :=
  tables.archiveFileNumbers.filter fun fileNumber =>
    tables.fileMaxHeight fileNumber ≤ cutoff ∧ tables.pendingPrune fileNumber ≠ []

def archivedBytes (tables : Tables) : Nat :=
  (tables.archiveFileNumbers.map tables.pendingBytes).sum

theorem pairwise_archiveFileNumbers (tables : Tables) :
    tables.archiveFileNumbers.Pairwise (· < ·) := by
  have hsorted := List.pairwise_insertionSort (· ≤ ·)
    (tables.listBlockRecords.map fun record => record.fileLocation.fileNumber).dedup
  have hnodup : tables.archiveFileNumbers.Nodup :=
    ((List.perm_insertionSort (· ≤ ·) _).nodup_iff).mpr (List.nodup_dedup _)
  exact (hsorted.and hnodup).imp fun hpair => lt_of_le_of_ne hpair.1 hpair.2

theorem mem_pruneFiles {size : Option Nat} :
    fileNumber ∈ tables.pruneFiles size tipHeight cutoff ↔
      fileNumber ∈ tables.filesBelowWindow cutoff ∨ ∃ bytes ∈ size,
        fileNumber ∈ tables.archiveFileNumbers ∧
        tables.TakenForSize tipHeight (tables.filesBelowWindow cutoff) fileNumber ∧
        bytes + tables.bytesBelow tipHeight (tables.filesBelowWindow cutoff)
          tables.archiveFileNumbers fileNumber < tables.archivedBytes := by
  have hbelow : fileNumber ∈ tables.filesBelowWindow cutoff →
      fileNumber ∈ tables.archiveFileNumbers := List.mem_of_mem_filter
  cases size with
  | none =>
      rw [pruneFiles, List.mem_filter, decide_eq_true_eq]
      simp only [Option.not_mem_none, false_and, exists_false, or_false, List.not_mem_nil]
      exact and_iff_right_of_imp hbelow
  | some bytes =>
      have hlarge := @mem_filesOverTarget tables tipHeight bytes fileNumber
        (tables.filesBelowWindow cutoff) _ tables.archivedBytes
        (pairwise_archiveFileNumbers tables)
      simp only [Option.mem_some, exists_eq_left']
      rw [← hlarge, pruneFiles, List.mem_filter, decide_eq_true_eq]
      refine and_iff_right_of_imp ?_
      rintro (hold | hsize)
      · exact hbelow hold
      · exact (hlarge.mp hsize).1

theorem mem_recordsOfFile {record : BlockArchiveRecord} :
    record ∈ tables.recordsOfFile fileNumber ↔
      (∃ blockHash, tables.blocks.lookup blockHash = some record) ∧
        record.fileLocation.fileNumber = fileNumber := by
  simp [recordsOfFile, mem_listBlockRecords]

theorem le_foldl_max {heights : List UInt64} {start : UInt64} :
    start ≤ heights.foldl max start ∧ ∀ height ∈ heights, height ≤ heights.foldl max start := by
  induction heights generalizing start with
  | nil => exact ⟨UInt64.le_refl _, nofun⟩
  | cons first rest ih =>
      have hmax : start ≤ max start first ∧ first ≤ max start first := by
        change start ≤ (if start ≤ first then first else start) ∧
          first ≤ (if start ≤ first then first else start)
        split
        · next hle => exact ⟨hle, UInt64.le_refl _⟩
        · next hgt => exact ⟨UInt64.le_refl _, UInt64.le_of_lt (UInt64.not_le.mp hgt)⟩
      rw [List.foldl_cons, List.forall_mem_cons]
      exact ⟨UInt64.le_trans hmax.1 ih.1, UInt64.le_trans hmax.2 ih.1, ih.2⟩

theorem height_le_fileMaxHeight {blockHash : Bytes 48} {record : BlockArchiveRecord}
    (hrecord : tables.blocks.lookup blockHash = some record) :
    record.height ≤ tables.fileMaxHeight record.fileLocation.fileNumber :=
  le_foldl_max.2 _ (List.mem_map_of_mem (mem_recordsOfFile.mpr ⟨⟨blockHash, hrecord⟩, rfl⟩))

theorem mem_archiveFileNumbers {blockHash : Bytes 48} {record : BlockArchiveRecord}
    (hrecord : tables.blocks.lookup blockHash = some record) :
    record.fileLocation.fileNumber ∈ tables.archiveFileNumbers := by
  rw [archiveFileNumbers, List.mem_insertionSort, List.mem_dedup]
  exact List.mem_map_of_mem (mem_listBlockRecords.mpr ⟨blockHash, hrecord⟩)

end Tables

namespace Database

variable {target : Option Nat} {db : Database} {tipHeight pruneDepth : UInt64}

/-- Every record is filed under the hash of its block. -/
def Keyed (db : Database) : Prop :=
  ∀ blockHash record, db.tables.blocks.lookup blockHash = some record →
    record.blockHash = blockHash

/-- An unpruned block that a reorganisation of the given depth can reach. -/
def InWindow (db : Database) (tipHeight pruneDepth : UInt64) (blockHash : Bytes 48)
    (record : BlockArchiveRecord) : Prop :=
  db.tables.blocks.lookup blockHash = some record ∧ record.pruned = false ∧
    tipHeight.toNat < record.height.toNat + pruneDepth.toNat

/-- The record of a block is as it was, and so is the file that holds its bytes. -/
def KeepsBlock (db next : Database) (blockHash : Bytes 48) (record : BlockArchiveRecord) : Prop :=
  next.tables.blocks.lookup blockHash = some record ∧
    next.blockStore.files.lookup record.fileLocation.fileNumber =
      db.blockStore.files.lookup record.fileLocation.fileNumber

theorem pruneArchivedBlocks_eq {cutoff : UInt64}
    (hcutoff : tipHeight.checkedSub pruneDepth = some cutoff)
    (hfault : db.fault ≠ some .transaction) :
    ∃ removed, removed ⊆ db.tables.pruneFiles target tipHeight cutoff ∧
      (db.pruneArchivedBlocks target tipHeight pruneDepth).2.tables =
        db.tables.markPruned ((db.tables.pruneFiles target tipHeight cutoff).flatMap
          db.tables.pendingPrune) ∧
      (db.pruneArchivedBlocks target tipHeight pruneDepth).2.blockStore =
        removed.foldl .deleteFile db.blockStore := by
  simp only [pruneArchivedBlocks, hcutoff]
  split
  · next hnone =>
      rw [hnone]
      exact ⟨[], List.Subset.refl _, rfl, rfl⟩
  · rw [if_neg hfault]
    split
    · exact ⟨_, List.take_subset _ _, rfl, rfl⟩
    · exact ⟨_, List.Subset.refl _, rfl, rfl⟩

theorem lookup_deleteFiles {store : BlockFileStore} {fileNumber : Nat} {removed : List Nat}
    (hkept : fileNumber ∉ removed) :
    (removed.foldl .deleteFile store).files.lookup fileNumber = store.files.lookup fileNumber := by
  induction removed generalizing store with
  | nil => rfl
  | cons first rest ih =>
      rw [List.mem_cons, not_or] at hkept
      rw [List.foldl_cons, ih hkept.2, BlockFileStore.deleteFile,
        Finmap.lookup_erase_ne hkept.1]

theorem keepsBlock_iff {cutoff : UInt64} {blockHash : Bytes 48} {record : BlockArchiveRecord}
    (hkeyed : db.Keyed) (hcutoff : tipHeight.checkedSub pruneDepth = some cutoff)
    (hfault : db.fault ≠ some .transaction)
    (hrecord : db.tables.blocks.lookup blockHash = some record) (hunpruned : record.pruned = false) :
    db.KeepsBlock (db.pruneArchivedBlocks target tipHeight pruneDepth).2 blockHash record ↔
      record.fileLocation.fileNumber ∉ db.tables.pruneFiles target tipHeight cutoff := by
  obtain ⟨removed, hremoved, htables, hstore⟩ :=
    @pruneArchivedBlocks_eq target db tipHeight pruneDepth cutoff hcutoff hfault
  have hfiled : ∀ other ∈ (db.tables.pruneFiles target tipHeight cutoff).flatMap
      db.tables.pendingPrune, db.tables.blocks.lookup other.blockHash = some other := by
    intro other hother
    obtain ⟨fileNumber, -, hpending⟩ := List.mem_flatMap.mp hother
    obtain ⟨⟨otherHash, hlookup⟩, -, -⟩ := Tables.mem_pendingPrune.mp hpending
    rwa [hkeyed otherHash other hlookup]
  have hmarked : blockHash ∈ Tables.hashesOf ((db.tables.pruneFiles target tipHeight
      cutoff).flatMap db.tables.pendingPrune) ↔
        record.fileLocation.fileNumber ∈ db.tables.pruneFiles target tipHeight cutoff := by
    rw [Tables.hashesOf, List.mem_map]
    constructor
    · rintro ⟨other, hother, rfl⟩
      obtain rfl := Option.some.inj ((hfiled other hother).symm.trans hrecord)
      obtain ⟨fileNumber, hfile, hpending⟩ := List.mem_flatMap.mp hother
      rwa [(Tables.mem_pendingPrune.mp hpending).2.1]
    · intro hfile
      exact ⟨record, List.mem_flatMap.mpr ⟨_, hfile,
        Tables.mem_pendingPrune.mpr ⟨⟨blockHash, hrecord⟩, rfl, hunpruned⟩⟩,
        hkeyed blockHash record hrecord⟩
  rw [KeepsBlock, htables, hstore, Tables.lookup_markPruned hfiled, hrecord, Option.map_some]
  constructor
  · rintro ⟨hsame, -⟩ hfile
    have hpruned := congrArg (fun record => record.pruned) (Option.some.inj hsame)
    simp only [decide_eq_true (hmarked.mpr hfile), Bool.or_true, hunpruned] at hpruned
    cases hpruned
  · intro hfile
    refine ⟨?_, lookup_deleteFiles fun hmem => hfile (hremoved hmem)⟩
    rw [decide_eq_false (mt hmarked.mp hfile), Bool.or_false]

/-- Pruning keeps every block of the window exactly when the tip is below the prune
depth, the write fails, or every file that holds such a block and ends below the tip
is reached only once the size target is met. -/
theorem prune_keeps_window_iff (target : Option Nat) (db : Database)
    (tipHeight pruneDepth : UInt64) (hkeyed : db.Keyed) :
    (∀ blockHash record, db.InWindow tipHeight pruneDepth blockHash record →
      db.KeepsBlock (db.pruneArchivedBlocks target tipHeight pruneDepth).2 blockHash record) ↔
    tipHeight < pruneDepth ∨ db.fault = some .transaction ∨
      ∀ bytes ∈ target, ∀ blockHash record, db.InWindow tipHeight pruneDepth blockHash record →
        db.tables.fileMaxHeight record.fileLocation.fileNumber < tipHeight →
        db.tables.archivedBytes ≤ bytes + db.tables.bytesBelow tipHeight
          (db.tables.filesBelowWindow (tipHeight - pruneDepth)) db.tables.archiveFileNumbers
          record.fileLocation.fileNumber := by
  by_cases hshallow : tipHeight < pruneDepth
  · refine iff_of_true (fun blockHash record hwindow => ?_) (.inl hshallow)
    rw [pruneArchivedBlocks, UInt64.checkedSub, if_neg (UInt64.not_le.mpr hshallow)]
    exact ⟨hwindow.1, rfl⟩
  have hcutoff : tipHeight.checkedSub pruneDepth = some (tipHeight - pruneDepth) :=
    if_pos (UInt64.not_lt.mp hshallow)
  by_cases hfault : db.fault = some .transaction
  · refine iff_of_true (fun blockHash record hwindow => ?_) (.inr (.inl hfault))
    simp only [pruneArchivedBlocks, hcutoff]
    split
    · exact ⟨hwindow.1, rfl⟩
    · rw [if_pos hfault]
      exact ⟨hwindow.1, rfl⟩
  rw [or_iff_right hshallow, or_iff_right hfault]
  have hkept : ∀ blockHash record, db.InWindow tipHeight pruneDepth blockHash record →
      (db.KeepsBlock (db.pruneArchivedBlocks target tipHeight pruneDepth).2 blockHash record ↔
        ∀ bytes ∈ target, db.tables.fileMaxHeight record.fileLocation.fileNumber < tipHeight →
          db.tables.archivedBytes ≤ bytes + db.tables.bytesBelow tipHeight
            (db.tables.filesBelowWindow (tipHeight - pruneDepth)) db.tables.archiveFileNumbers
            record.fileLocation.fileNumber) := by
    rintro blockHash record ⟨hrecord, hunpruned, hheight⟩
    have hcut := UInt64.checkedSub_eq_some.mp hcutoff
    have hmax := UInt64.le_iff_toNat_le.mp (Tables.height_le_fileMaxHeight hrecord)
    have habove : record.fileLocation.fileNumber ∉
        db.tables.filesBelowWindow (tipHeight - pruneDepth) := by
      intro hbelow
      have hlow := (of_decide_eq_true (List.mem_filter.mp hbelow).2).1
      rw [UInt64.le_iff_toNat_le] at hlow
      omega
    have hpending : db.tables.pendingPrune record.fileLocation.fileNumber ≠ [] :=
      List.ne_nil_of_mem (Tables.mem_pendingPrune.mpr ⟨⟨blockHash, hrecord⟩, rfl, hunpruned⟩)
    rw [keepsBlock_iff hkeyed hcutoff hfault hrecord hunpruned, Tables.mem_pruneFiles,
      or_iff_right habove]
    constructor
    · intro hfree bytes hbytes hlow
      by_contra hover
      exact hfree ⟨bytes, hbytes, Tables.mem_archiveFileNumbers hrecord,
        ⟨habove, hlow, hpending⟩, Nat.lt_of_not_le hover⟩
    · rintro hmet ⟨bytes, hbytes, -, ⟨-, hlow, -⟩, hover⟩
      exact Nat.not_lt_of_le (hmet bytes hbytes hlow) hover
  constructor
  · intro hall bytes hbytes blockHash record hwindow
    exact (hkept blockHash record hwindow).mp (hall blockHash record hwindow) bytes hbytes
  · intro hmet blockHash record hwindow
    exact (hkept blockHash record hwindow).mpr fun bytes hbytes =>
      hmet bytes hbytes blockHash record hwindow

/-- With a target of one byte the only block above genesis goes, one below the tip. -/
theorem size_target_prunes_window :
    ∃ record, (commitBlock regnetArchive firstBlock).InWindow 2 2
        (firstBlock.header.blockHash .hashing) record ∧
      ¬ (commitBlock regnetArchive firstBlock).KeepsBlock
        (pruneArchivedBlocks (some 1) (commitBlock regnetArchive firstBlock) 2 2).2
        (firstBlock.header.blockHash .hashing) record := by
  have hpruned : ∃ record ∈ (commitBlock regnetArchive firstBlock).tables.blocks.lookup
      (firstBlock.header.blockHash .hashing), record.pruned = false ∧ 0 < record.height ∧
      (pruneArchivedBlocks (some 1) (commitBlock regnetArchive firstBlock) 2 2).2.tables.blocks.lookup
        (firstBlock.header.blockHash .hashing) ≠ some record := by
    decide +kernel
  obtain ⟨record, hrecord, hunpruned, hheight, hgone⟩ := hpruned
  refine ⟨record, ⟨hrecord, hunpruned, ?_⟩, fun hkeeps => hgone hkeeps.1⟩
  rw [UInt64.lt_iff_toNat_lt] at hheight
  exact Nat.lt_add_of_pos_left hheight

/-- A target that the archive does not exceed leaves the window alone. -/
theorem generous_target_keeps_window :
    ∃ record, (commitBlock regnetArchive firstBlock).InWindow 2 2
        (firstBlock.header.blockHash .hashing) record ∧
      (commitBlock regnetArchive firstBlock).KeepsBlock
        (pruneArchivedBlocks (some 2000) (commitBlock regnetArchive firstBlock) 2 2).2
        (firstBlock.header.blockHash .hashing) record := by
  have hfiled : ∀ entry ∈ (commitBlock regnetArchive firstBlock).tables.blocks.cursor,
      entry.2.blockHash = entry.1 := by
    decide +kernel
  have hbytes : (commitBlock regnetArchive firstBlock).tables.archivedBytes ≤ 2000 := by
    decide +kernel
  have harchived : ∃ record ∈ (commitBlock regnetArchive firstBlock).tables.blocks.lookup
      (firstBlock.header.blockHash .hashing), record.pruned = false ∧ 0 < record.height := by
    decide +kernel
  obtain ⟨record, hrecord, hunpruned, hheight⟩ := harchived
  have hwindow : (commitBlock regnetArchive firstBlock).InWindow 2 2
      (firstBlock.header.blockHash .hashing) record := by
    rw [UInt64.lt_iff_toNat_lt] at hheight
    exact ⟨hrecord, hunpruned, Nat.lt_add_of_pos_left hheight⟩
  refine ⟨record, hwindow, (prune_keeps_window_iff (some 2000) _ 2 2 fun blockHash record hrecord =>
    hfiled (blockHash, record) (Finmap.mem_cursor.mpr hrecord)).mpr (.inr (.inr ?_)) _ _ hwindow⟩
  intro bytes htarget blockHash record _ _
  cases htarget
  exact hbytes.trans (Nat.le_add_right _ _)

end Database

end Atho
