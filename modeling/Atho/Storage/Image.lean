import Atho.Storage.Archive
import Atho.Storage.Persistence
import Atho.Storage.Restart
import Atho.Storage.Unpruned

/-! The persisted image: the tables that a chainstate keeps of its canonical chain. -/

namespace Atho

namespace Tables

variable {crypto : Crypto} {network : Network} {tables next : Tables} {full : List Block}

/-! Ancestries. -/

/-- The work of a record's ancestry. -/
def pathWork (path : List BlockArchiveRecord) : Nat :=
  (path.map fun record => blockProof record.difficultyTargetOrBits).sum

section Descends

variable {link link' : Bytes 48 → Option BlockArchiveRecord} {blockHash : Bytes 48}
  {path path' : List BlockArchiveRecord}

theorem Descends.mono (hlinks : ∀ blockHash record, link blockHash = some record →
    link' blockHash = some record) (hdescends : Descends link blockHash path) :
    Descends link' blockHash path := by
  induction hdescends with
  | root hlink hheight => exact .root (hlinks _ _ hlink) hheight
  | above hlink hheight _ ih => exact .above (hlinks _ _ hlink) hheight ih

theorem Descends.unique (hdescends : Descends link blockHash path)
    (hother : Descends link blockHash path') : path = path' := by
  induction hdescends generalizing path' with
  | root hlink hheight =>
      cases hother with
      | root hlink' hheight' =>
          cases hlink.symm.trans hlink'
          rfl
      | above hlink' hheight' _ =>
          cases hlink.symm.trans hlink'
          exact absurd hheight hheight'
  | above hlink hheight _ ih =>
      cases hother with
      | root hlink' hheight' =>
          cases hlink.symm.trans hlink'
          exact absurd hheight' hheight
      | above hlink' hheight' hbelow =>
          cases hlink.symm.trans hlink'
          rw [ih hbelow]

end Descends

/-! The chain in the tables. -/

/-- Every record is filed under its hash, and the blocks of `full` have theirs. -/
structure Charts (crypto : Crypto) (full : List Block) (tables : Tables) : Prop where
  keyed : ∀ {blockHash record}, tables.blocks.lookup blockHash = some record →
    record.blockHash = blockHash
  records : ∀ block ∈ full, ∃ record,
    tables.blocks.lookup (block.header.blockHash crypto) = some record ∧
      record.height = block.header.height ∧
      (block.header.height ≠ 0 → record.previousBlockHash = block.header.previousBlockHash)

/-- Every record carries the work of its ancestry. -/
structure Filed (crypto : Crypto) (full : List Block) (tables : Tables) : Prop
    extends Charts crypto full tables where
  works : ∀ {blockHash record}, tables.blocks.lookup blockHash = some record →
    ∃ path, Descends tables.link blockHash path ∧ record.chainwork = pathWork path

theorem of_lookup_withBlock {height : UInt64} {block : Block} {location : BlockFileLocation}
    {chainwork : Nat} {blockHash : Bytes 48} {record : BlockArchiveRecord}
    (hrecord : (tables.withBlock crypto network height block location chainwork).blocks.lookup
      blockHash = some record) :
    blockHash = block.header.blockHash crypto ∨
      tables.blocks.lookup blockHash = some record := by
  refine or_iff_not_imp_left.mpr fun hne => ?_
  rwa [withBlock, Finmap.lookup_insert_of_ne _ hne] at hrecord

/-- The tables list the chain `full`: the heights are its own and no others, and its
blocks and no others are marked. -/
structure Lists (crypto : Crypto) (full : List Block) (tables : Tables) : Prop
    extends Filed crypto full tables where
  heights : ∀ height, tables.blockHeights.lookup height =
    (blockHashes crypto full)[height.toNat]?
  marks : ∀ {blockHash record}, tables.blocks.lookup blockHash = some record →
    (record.mainChain = true ↔ blockHash ∈ blockHashes crypto full)

namespace Charts

theorem visit (hcharts : tables.Charts crypto full) (hnumbered : Numbered full)
    (hlength : full.length < 2 ^ 64) {index : Nat} {block : Block}
    (hblock : full[index]? = some block) :
    ∃ record, tables.link (block.header.blockHash crypto) = some record ∧
      record.blockHash = block.header.blockHash crypto ∧
      record.height = UInt64.ofNat index ∧
      (index ≠ 0 → record.previousBlockHash = block.header.previousBlockHash) ∧
      ∀ (heights : Finmap fun _ : UInt64 => Bytes 48) (height : UInt64),
        (heights.insert record.height record.blockHash).lookup height =
          if height.toNat = index then (blockHashes crypto full)[height.toNat]?
          else heights.lookup height := by
  obtain ⟨record, hrecord, hheight, hprevious⟩ :=
    hcharts.records block (List.mem_of_getElem? hblock)
  have hkey := hcharts.keyed hrecord
  have hlt : index < full.length := (List.getElem?_eq_some_iff.mp hblock).1
  have hplace : block.header.height.toNat = index := by
    rw [hnumbered index block hblock]
    omega
  refine ⟨record.unmarked, by rw [link, hrecord]; rfl, hkey, ?_, fun hindex => ?_,
    fun heights height => ?_⟩
  · rw [← hplace, UInt64.ofNat_toNat]
    exact hheight
  · refine hprevious fun hzero => hindex ?_
    rw [← hplace, hzero, UInt64.toNat_zero]
  · change (heights.insert record.height record.blockHash).lookup height = _
    rw [hkey, hheight]
    rcases eq_or_ne height block.header.height with rfl | hne
    · rw [Finmap.lookup_insert, if_pos hplace, hplace, blockHashes, List.getElem?_map, hblock,
        Option.map_some]
    · rw [Finmap.lookup_insert_of_ne _ hne, if_neg]
      exact fun heq => hne (UInt64.toNat_inj.mp (heq.trans hplace.symm))

theorem descends (hcharts : tables.Charts crypto full) (hnumbered : Numbered full)
    (hlinked : full.IsChain fun left right =>
      right.header.previousBlockHash = left.header.blockHash crypto)
    (hlength : full.length < 2 ^ 64) {index : Nat} {block : Block}
    (hblock : full[index]? = some block) :
    ∃ path, Descends tables.link (block.header.blockHash crypto) path ∧
      path.length = index + 1 ∧
      (∀ blockHash, blockHash ∈ hashesOf path ↔
        blockHash ∈ (blockHashes crypto full).take (index + 1)) ∧
      ∀ heights height, (indexHeights heights path).lookup height =
        if height.toNat ≤ index then (blockHashes crypto full)[height.toNat]?
        else heights.lookup height := by
  induction index generalizing block with
  | zero =>
      obtain ⟨record, hlink, hkey, hheight, -, hwrite⟩ :=
        hcharts.visit hnumbered hlength hblock
      refine ⟨[record], .root hlink hheight, rfl, fun blockHash => ?_, fun heights height => ?_⟩
      · have hhead : full.head? = some block := by rw [List.head?_eq_getElem?, hblock]
        simp [hashesOf, blockHashes, hkey, List.take_one, hhead]
      · simpa [indexHeights] using hwrite heights height
  | succ index ih =>
      obtain ⟨record, hlink, hkey, hheight, hprevious, hwrite⟩ :=
        hcharts.visit hnumbered hlength hblock
      have hlt : index + 1 < full.length := (List.getElem?_eq_some_iff.mp hblock).1
      have hbelow : full[index]? = some full[index] := List.getElem?_eq_getElem (by omega)
      obtain ⟨path, hdescends, hcount, hhashes, hheights⟩ := ih hbelow
      have hparent : record.previousBlockHash = full[index].header.blockHash crypto := by
        rw [hprevious (by omega)]
        have hstep := List.isChain_iff_getElem.mp hlinked index hlt
        rwa [(List.getElem?_eq_some_iff.mp hblock).2] at hstep
      have hpositive : record.height ≠ 0 := by
        intro hzero
        have hnat := congrArg UInt64.toNat (hheight.symm.trans hzero)
        rw [UInt64.toNat_ofNat_of_lt' (show index + 1 < UInt64.size by
          exact hlt.trans hlength)] at hnat
        cases hnat
      refine ⟨record :: path, .above hlink hpositive (hparent ▸ hdescends),
        by rw [List.length_cons, hcount], fun blockHash => ?_, fun heights height => ?_⟩
      · rw [hashesOf, List.map_cons, List.mem_cons, hkey, ← hashesOf, hhashes,
          List.take_add_one (i := index + 1), List.mem_append, blockHashes, List.getElem?_map,
          hblock, or_comm]
        simp
      · change (indexHeights (heights.insert record.height record.blockHash) path).lookup _ = _
        rw [hheights, hwrite]
        split_ifs <;> first | rfl | omega

end Charts

theorem Filed.remark (hfiled : tables.Filed crypto full)
    {mark : Bytes 48 → BlockArchiveRecord → BlockArchiveRecord}
    (hblocks : ∀ blockHash, next.blocks.lookup blockHash =
      (tables.blocks.lookup blockHash).map (mark blockHash))
    (hmark : ∀ blockHash record, (mark blockHash record).unmarked = record.unmarked) :
    next.Filed crypto full := by
  have hlink : next.link = tables.link := by
    funext blockHash
    rw [link, hblocks, Option.map_map]
    exact congrArg (fun change => Option.map change _) (funext (hmark blockHash))
  refine ⟨⟨fun {blockHash record'} hrecord' => ?_, fun block hblock => ?_⟩,
    fun {blockHash record'} hrecord' => ?_⟩
  · rw [hblocks, Option.map_eq_some_iff] at hrecord'
    obtain ⟨record, hrecord, rfl⟩ := hrecord'
    have hkey := hfiled.keyed hrecord
    exact (congrArg BlockArchiveRecord.blockHash (hmark blockHash record)).trans hkey
  · obtain ⟨record, hrecord, hheight, hprevious⟩ := hfiled.records block hblock
    refine ⟨mark _ record, by rw [hblocks, hrecord, Option.map_some], ?_, fun hpositive => ?_⟩
    · exact (congrArg BlockArchiveRecord.height (hmark _ record)).trans hheight
    · exact (congrArg BlockArchiveRecord.previousBlockHash (hmark _ record)).trans
        (hprevious hpositive)
  · rw [hblocks, Option.map_eq_some_iff] at hrecord'
    obtain ⟨record, hrecord, rfl⟩ := hrecord'
    obtain ⟨path, hdescends, hwork⟩ := hfiled.works hrecord
    exact ⟨path, hlink ▸ hdescends,
      (congrArg BlockArchiveRecord.chainwork (hmark blockHash record)).trans hwork⟩

namespace Lists

theorem empty (crypto : Crypto) (snapshot : Option ChainstateSnapshot) :
    Lists crypto [] { Tables.empty with snapshot := snapshot } where
  keyed hrecord := by simp [Tables.empty] at hrecord
  heights height := by simp [Tables.empty, blockHashes]
  records block hblock := by cases hblock
  marks hrecord := by simp [Tables.empty] at hrecord
  works hrecord := by simp [Tables.empty] at hrecord

theorem transfer (hlists : tables.Lists crypto full) (mark : Bytes 48 → Bool → Bool)
    (hheights : next.blockHeights = tables.blockHeights)
    (hblocks : ∀ blockHash, next.blocks.lookup blockHash =
      (tables.blocks.lookup blockHash).map fun record =>
        { record with pruned := mark blockHash record.pruned }) : next.Lists crypto full := by
  refine ⟨hlists.remark hblocks fun _ _ => rfl,
    fun height => by rw [hheights, hlists.heights], fun hrecord => ?_⟩
  rw [hblocks, Option.map_eq_some_iff] at hrecord
  obtain ⟨record, hrecord, rfl⟩ := hrecord
  have hmark := hlists.marks hrecord
  exact hmark

theorem congr (hlists : tables.Lists crypto full)
    (hheights : next.blockHeights = tables.blockHeights) (hblocks : next.blocks = tables.blocks) :
    next.Lists crypto full :=
  hlists.transfer (fun _ old => old) hheights fun _ => by rw [hblocks, Option.map_id']

theorem prune {target : Option Nat} {db stored : Database}
    (hlists : db.tables.Lists crypto full) (hprune : db.Prunes target stored) :
    stored.tables.Lists crypto full ∧
      ∀ blockHash, stored.tables.blocks.lookup blockHash = none ↔
        db.tables.blocks.lookup blockHash = none := by
  obtain ⟨-, records, htables, hrecords⟩ := hprune.frame
  have hblocks := lookup_markPruned fun record hrecord => by
    obtain ⟨blockHash, hlookup⟩ := hrecords record hrecord
    rwa [hlists.keyed hlookup]
  rw [htables]
  refine ⟨hlists.transfer (fun blockHash old => old || decide (blockHash ∈ hashesOf records)) rfl
    hblocks, fun blockHash => ?_⟩
  rw [hblocks, Option.map_eq_none_iff]

theorem push (hlists : tables.Lists crypto full) (network : Network) {block : Block}
    (location : BlockFileLocation) {chainwork : Nat} (hheight : block.header.height.toNat = full.length)
    (hprevious : ∀ last ∈ full.getLast?,
      block.header.previousBlockHash = last.header.blockHash crypto)
    (hnone : tables.blocks.lookup (block.header.blockHash crypto) = none)
    (hwork : tables.archiveChainwork block.header.height block = .ok chainwork) :
    Lists crypto (full ++ [block])
      (tables.withBlock crypto network block.header.height block location chainwork) := by
  have hhashes : blockHashes crypto (full ++ [block]) =
      blockHashes crypto full ++ [block.header.blockHash crypto] := by simp [blockHashes]
  have hlength : (blockHashes crypto full).length = full.length := by simp [blockHashes]
  have hold : ∀ blockHash record, tables.link blockHash = some record →
      (tables.withBlock crypto network block.header.height block location chainwork).link
        blockHash = some record := by
    intro blockHash record hrecord
    have hne : blockHash ≠ block.header.blockHash crypto := by
      rintro rfl
      rw [link, hnone] at hrecord
      cases hrecord
    rw [link, withBlock, Finmap.lookup_insert_of_ne _ hne]
    exact hrecord
  have hnew : (tables.withBlock crypto network block.header.height block location
      chainwork).link (block.header.blockHash crypto) =
        some (archiveRecord crypto network block.header.height block location
          chainwork).unmarked := by
    rw [link, withBlock, Finmap.lookup_insert]
    rfl
  refine ⟨⟨⟨fun {blockHash record} hrecord => ?keyed, fun other hother => ?records⟩,
    fun {blockHash record} hrecord => ?works⟩, fun height => ?heights,
    fun {blockHash record} hrecord => ?marks⟩
  case keyed =>
    dsimp only [withBlock] at hrecord
    rcases eq_or_ne blockHash (block.header.blockHash crypto) with rfl | hne
    · rw [Finmap.lookup_insert] at hrecord
      cases hrecord
      rfl
    · rw [Finmap.lookup_insert_of_ne _ hne] at hrecord
      exact hlists.keyed hrecord
  case heights =>
    dsimp only [withBlock]
    rw [hhashes]
    rcases eq_or_ne height block.header.height with rfl | hne
    · rw [Finmap.lookup_insert, hheight, ← hlength, List.getElem?_concat_length]
    · have hnat : height.toNat ≠ full.length := by
        rw [← hheight]
        exact fun heq => hne (UInt64.toNat_inj.mp heq)
      rw [Finmap.lookup_insert_of_ne _ hne, hlists.heights]
      rcases Nat.lt_or_ge height.toNat full.length with hlt | hge
      · rw [List.getElem?_append_left (by omega)]
      · rw [List.getElem?_eq_none (by omega), List.getElem?_eq_none (by simp; omega)]
  case records =>
    rcases List.mem_append.mp hother with hother | hother
    · obtain ⟨record, hrecord, hplace⟩ := hlists.records other hother
      have hne : other.header.blockHash crypto ≠ block.header.blockHash crypto := by
        intro heq
        rw [heq, hnone] at hrecord
        cases hrecord
      exact ⟨record, by rw [withBlock, Finmap.lookup_insert_of_ne _ hne, hrecord], hplace⟩
    · obtain rfl := List.mem_singleton.mp hother
      exact ⟨_, Finmap.lookup_insert _, rfl, fun _ => rfl⟩
  case marks =>
    dsimp only [withBlock] at hrecord
    rw [hhashes, List.mem_append, List.mem_singleton]
    rcases eq_or_ne blockHash (block.header.blockHash crypto) with rfl | hne
    · rw [Finmap.lookup_insert] at hrecord
      cases hrecord
      exact ⟨fun _ => .inr rfl, fun _ => rfl⟩
    · rw [Finmap.lookup_insert_of_ne _ hne] at hrecord
      rw [hlists.marks hrecord, or_iff_left hne]
  case works =>
    rcases eq_or_ne blockHash (block.header.blockHash crypto) with rfl | hne
    · dsimp only [withBlock] at hrecord
      rw [Finmap.lookup_insert] at hrecord
      cases hrecord
      unfold archiveChainwork at hwork
      dsimp only at hwork
      split_ifs at hwork with hzero
      · rw [pure_eq_ok] at hwork
        subst hwork
        refine ⟨_, .root hnew hzero, ?_⟩
        simp [pathWork, archiveRecord, BlockArchiveRecord.unmarked]
      · simp only [bind_eq_ok, okOr_eq_ok, pure_eq_ok] at hwork
        obtain ⟨previous, hrecord, rfl⟩ := hwork
        obtain ⟨path, hdescends, hbelow⟩ := hlists.works hrecord
        refine ⟨_, .above hnew hzero (hdescends.mono hold), ?_⟩
        simp [pathWork, archiveRecord, BlockArchiveRecord.unmarked, hbelow, Nat.add_comm]
    · dsimp only [withBlock] at hrecord
      rw [Finmap.lookup_insert_of_ne _ hne] at hrecord
      obtain ⟨path, hdescends, hbelow⟩ := hlists.works hrecord
      exact ⟨path, hdescends.mono hold, hbelow⟩

/-- The chain without its last block, once the heights are rebuilt from the block
below it. -/
theorem rebuild (hlists : tables.Lists crypto full) (hnumbered : Numbered full)
    (hlinked : full.IsChain fun left right =>
      right.header.previousBlockHash = left.header.blockHash crypto)
    (hlength : full.length < 2 ^ 64) {last : Block} (hlast : full.dropLast.getLast? = some last)
    (htip : last.header.blockHash crypto ≠ .zero 48)
    (hrebuild : tables.rebuildHeightIndex (last.header.blockHash crypto) = .ok next) :
    next.Lists crypto full.dropLast := by
  have hhashes : blockHashes crypto full.dropLast =
      (blockHashes crypto full).take (full.length - 1) := by
    rw [blockHashes, List.dropLast_eq_take, List.map_take]
    rfl
  have hshort : 2 ≤ full.length := by
    have hne : full.dropLast ≠ [] := by
      rintro hnil
      rw [hnil] at hlast
      cases hlast
    have hpositive := List.length_pos_iff.mpr hne
    rw [List.length_dropLast] at hpositive
    omega
  have hblock : full[full.length - 2]? = some last := by
    rw [List.getLast?_eq_getElem?, List.length_dropLast, List.getElem?_dropLast,
      if_pos (by omega)] at hlast
    exact hlast
  obtain ⟨path, hdescends, hheights, hremarks⟩ := rebuildHeightIndex_ok htip hrebuild
  obtain ⟨path', hdescends', -, hvisited, hwritten⟩ :=
    hlists.descends hnumbered hlinked hlength hblock
  obtain rfl := hdescends.unique hdescends'
  rw [show full.length - 2 + 1 = full.length - 1 by omega, ← hhashes] at hvisited
  refine ⟨?_, fun height => ?_, fun {blockHash record'} hrecord' => ?_⟩
  · have hkept := hlists.toFiled.remark hremarks.blocks fun _ _ => rfl
    exact ⟨⟨hkept.keyed, fun block hmem =>
      hkept.records block (List.dropLast_subset full hmem)⟩, hkept.works⟩
  · rw [hheights, hwritten, hhashes, List.getElem?_take]
    split_ifs <;> first | rfl | omega
  · rw [hremarks.blocks, Option.map_eq_some_iff] at hrecord'
    obtain ⟨record, hrecord, rfl⟩ := hrecord'
    dsimp only
    rw [← hvisited]
    split_ifs with hpath hcurrent
    · simp [hpath]
    · simp [hpath]
    · -- A block without a height was not on the chain before.
      have hold : blockHash ∉ blockHashes crypto full := by
        intro hmem
        obtain ⟨index, hindex⟩ := List.mem_iff_getElem?.mp hmem
        have hlt : index < full.length := by
          have hbound := (List.getElem?_eq_some_iff.mp hindex).1
          rwa [blockHashes, List.length_map] at hbound
        refine hcurrent (mem_currentMainChainHashes.mpr ⟨UInt64.ofNat index, ?_⟩)
        rw [hlists.heights, UInt64.toNat_ofNat_of_lt' (hlt.trans hlength), hindex]
      rw [hlists.marks hrecord]
      exact iff_of_false hold hpath

theorem writeBlockArchives (hlists : tables.Lists crypto full)
    (honly : ∀ blockHash record, tables.blocks.lookup blockHash = some record →
      blockHash ∈ blockHashes crypto full)
    {archived : List (Block × BlockFileLocation)}
    (hnumbered : Numbered (full ++ archived.map Prod.fst))
    (hlinked : (full ++ archived.map Prod.fst).IsChain fun left right =>
      right.header.previousBlockHash = left.header.blockHash crypto)
    (hlength : (full ++ archived.map Prod.fst).length < 2 ^ 64)
    (hwrite : tables.writeBlockArchives crypto network archived = .ok next) :
    next.Lists crypto (full ++ archived.map Prod.fst) ∧
      ∀ blockHash record, next.blocks.lookup blockHash = some record →
        blockHash ∈ blockHashes crypto (full ++ archived.map Prod.fst) := by
  induction archived generalizing tables full with
  | nil =>
      cases hwrite
      rw [List.map_nil, List.append_nil]
      exact ⟨hlists, honly⟩
  | cons entry rest ih =>
      rw [Tables.writeBlockArchives, bind_eq_ok] at hwrite
      obtain ⟨middle, hfirst, hrest⟩ := hwrite
      have hbound : full.length < 2 ^ 64 := by
        rw [List.length_append] at hlength
        omega
      have hheight : entry.1.header.height.toNat = full.length := by
        have hnumber := hnumbered full.length entry.1 (by simp)
        omega
      rw [List.map_cons, List.append_cons] at hnumbered hlinked hlength ⊢
      rcases writeBlockArchive_ok hfirst with
        ⟨existing, hexisting, hsame, -⟩ | ⟨chainwork, hnone, hwork, rfl⟩
      · -- A block at another height of the chain would have the same hash.
        obtain ⟨other, hother, hhash⟩ := List.mem_map.mp (honly _ _ hexisting)
        obtain ⟨index, hindex⟩ := List.mem_iff_getElem?.mp hother
        obtain ⟨record, hlink, -, hplace, -⟩ :=
          hlists.visit hnumbered.left.left hbound hindex
        rw [hhash, link, hexisting, Option.map_some, Option.some.injEq] at hlink
        have hlt := (List.getElem?_eq_some_iff.mp hindex).1
        have hnat : existing.height = UInt64.ofNat index :=
          (congrArg BlockArchiveRecord.height hlink).trans hplace
        rw [hsame] at hnat
        rw [hnat, UInt64.toNat_ofNat_of_lt' (hlt.trans hbound)] at hheight
        omega
      · refine ih (hlists.push network entry.2 hheight (fun last hlast => ?_) hnone hwork) ?_ hnumbered hlinked
          hlength hrest
        · exact (List.isChain_append.mp hlinked.left_of_append).2.2 last hlast entry.1 rfl
        · intro blockHash record hrecord
          rw [blockHashes, List.map_append, List.mem_append]
          rcases of_lookup_withBlock hrecord with rfl | hold
          · exact .inr (by simp)
          · exact .inl (honly _ _ hold)

theorem rebase {first other : Block} {rest : List Block}
    (hlists : tables.Lists crypto (first :: rest)) (hheight : first.header.height = 0)
    (hother : other.header.height = 0)
    (hhash : first.header.blockHash crypto = other.header.blockHash crypto) :
    tables.Lists crypto (other :: rest) := by
  have hhashes : blockHashes crypto (other :: rest) = blockHashes crypto (first :: rest) := by
    simp only [blockHashes, List.map_cons, hhash]
  refine ⟨⟨⟨hlists.keyed, fun block hblock => ?_⟩, hlists.works⟩,
    fun height => by rw [hhashes, hlists.heights], fun hrecord => by
      rw [hhashes, hlists.marks hrecord]⟩
  rcases List.mem_cons.mp hblock with rfl | hblock
  · obtain ⟨record, hrecord, hplace, -⟩ := hlists.records first List.mem_cons_self
    exact ⟨record, hhash ▸ hrecord, by rw [hplace, hheight, hother], absurd hother⟩
  · exact hlists.records block (List.mem_cons_of_mem _ hblock)

end Lists

end Tables

/-! Histories. -/

/-- The hashes that have a record, and none once a block is archived that already has
one. -/
def archiveStep (crypto : Crypto) (network : Network) (hashes : List (Bytes 48)) :
    ChainEvent → Option (List (Bytes 48))
  | .connected block =>
      if hashes.contains (block.header.blockHash crypto) then none
      else some (block.header.blockHash crypto :: hashes)
  | .replaced blocks => some (genesisHash crypto network :: blockHashes crypto blocks)
  | .withdrawn _ | .clashed _ | .disconnected _ | .reinstated _ | .replaceFailed => some hashes

def archivedHashes (crypto : Crypto) (network : Network) (history : List ChainEvent) :
    Option (List (Bytes 48)) :=
  history.foldlM (archiveStep crypto network) [genesisHash crypto network]

/-- No block is archived twice, none is at the last height there is, and none has the
hash that stands for an empty chain. -/
structure Orderly (crypto : Crypto) (network : Network) (history : List ChainEvent) : Prop where
  novel : archivedHashes crypto network history ≠ none
  below : ∀ event ∈ history, ∀ block ∈ event.blocks,
    block.header.height < UInt64.ofNat (2 ^ 64 - 1)
  nonzero : ∀ event ∈ history, ∀ block ∈ event.blocks, block.header.blockHash crypto ≠ .zero 48
  genesis : genesisHash crypto network ≠ .zero 48

theorem archivedHashes_concat (crypto : Crypto) (network : Network) (history : List ChainEvent)
    (event : ChainEvent) :
    archivedHashes crypto network (history ++ [event]) =
      (archivedHashes crypto network history).bind fun hashes =>
        archiveStep crypto network hashes event := by
  rw [archivedHashes, List.foldlM_append]
  rcases hhashes : archivedHashes crypto network history with _ | hashes
  · rw [archivedHashes] at hhashes
    rw [hhashes]
    rfl
  · rw [archivedHashes] at hhashes
    rw [hhashes]
    simp

theorem Orderly.before {crypto : Crypto} {network : Network} {history : List ChainEvent}
    {event : ChainEvent} (horderly : Orderly crypto network (history ++ [event])) :
    Orderly crypto network history where
  novel hnone := by
    refine horderly.novel ?_
    rw [archivedHashes_concat, hnone]
    rfl
  below earlier hearlier := horderly.below earlier (List.mem_append_left _ hearlier)
  nonzero earlier hearlier := horderly.nonzero earlier (List.mem_append_left _ hearlier)
  genesis := horderly.genesis

theorem Orderly.of_append {crypto : Crypto} {network : Network} {history : List ChainEvent}
    (events : List ChainEvent)
    (horderly : Orderly crypto network (history ++ events)) : Orderly crypto network history := by
  induction events using List.reverseRecOn with
  | nil => rwa [List.append_nil] at horderly
  | append_singleton events event ih =>
      rw [← List.append_assoc] at horderly
      exact ih horderly.before

theorem mem_canonicalChain {history : List ChainEvent} {block : Block}
    (hblock : block ∈ canonicalChain [] history) : ∃ event ∈ history, block ∈ event.blocks := by
  induction history using List.reverseRecOn with
  | nil => cases hblock
  | append_singleton history event ih =>
      have hearlier : block ∈ canonicalChain [] history →
          ∃ event' ∈ history ++ [event], block ∈ event'.blocks := by
        intro hmem
        obtain ⟨earlier, hearlier, hmem⟩ := ih hmem
        exact ⟨earlier, List.mem_append_left _ hearlier, hmem⟩
      rw [canonicalChain_snoc] at hblock
      cases event with
      | connected added =>
          rcases List.mem_append.mp hblock with hmem | hmem
          · exact hearlier hmem
          · exact ⟨.connected added, by simp, hmem⟩
      | disconnected removed => exact hearlier (List.dropLast_subset _ hblock)
      | replaced blocks => exact ⟨.replaced blocks, by simp, hblock⟩
      | withdrawn | clashed | reinstated | replaceFailed => exact hearlier hblock

theorem canonicalChain_length_lt {crypto : Crypto} {network : Network}
    {history : List ChainEvent}
    (hbelow : ∀ event ∈ history, ∀ block ∈ event.blocks,
      block.header.height < UInt64.ofNat (2 ^ 64 - 1))
    (hnumbered : Numbered (genesisBlock crypto network :: canonicalChain [] history)) :
    (genesisBlock crypto network :: canonicalChain [] history).length < 2 ^ 64 := by
  rcases hchain : (canonicalChain [] history).getLast? with _ | last
  · rw [List.getLast?_eq_none_iff.mp hchain]
    simp
  · obtain ⟨event, hevent, hmem⟩ := mem_canonicalChain (List.mem_of_getLast? hchain)
    have hbelow := UInt64.lt_iff_toNat_lt.mp (hbelow event hevent last hmem)
    rw [UInt64.toNat_ofNat_of_lt' (by decide)] at hbelow
    have hlast : (genesisBlock crypto network :: canonicalChain [] history).getLast? =
        some last := by
      rw [List.getLast?_cons, hchain]
      rfl
    have hnumber := hnumbered.getLast? hlast
    omega

theorem Orderly.length_lt {crypto : Crypto} {network : Network} {history : List ChainEvent}
    (horderly : Orderly crypto network history)
    (hnumbered : Numbered (genesisBlock crypto network :: canonicalChain [] history)) :
    (genesisBlock crypto network :: canonicalChain [] history).length < 2 ^ 64 :=
  canonicalChain_length_lt horderly.below hnumbered

namespace Chainstate

/-- The database holds the image of the state: the tables list its canonical chain,
and the unspent outputs and the snapshot are those in memory. -/
structure Imaged (crypto : Crypto) (network : Network) (state : Chainstate Database)
    (db : Database) : Prop where
  storage : state.storage = some db
  lists : db.tables.Lists crypto
    (genesisBlock crypto network :: canonicalChain [] state.history)
  length : (canonicalChain [] state.history).length = state.height.toNat
  utxos : db.tables.utxos = state.utxos.entries
  snapshot : db.tables.snapshot = some state.snapshot

/-- The image together with what keeps it. -/
structure Upholds (crypto : Crypto) (target : Option Nat) (pruneDepth reorgDepth : Option UInt64)
    (network : Network) (state : Chainstate Database) (db : Database) : Prop
    extends Mirrors crypto target pruneDepth reorgDepth network state db where
  lists : db.tables.Lists crypto
    (genesisBlock crypto network :: canonicalChain [] state.history)
  archived : ∃ hashes, archivedHashes crypto network state.history = some hashes ∧
    ∀ blockHash ∉ hashes, db.tables.blocks.lookup blockHash = none

section

variable {crypto : Crypto} {target : Option Nat} {pruneDepth reorgDepth : Option UInt64}
  {network : Network} {now : UInt64} {state next : Chainstate Database} {db written : Database}

theorem RecallsHistory.height_eq {host : Host Database}
    (hrecalls : state.RecallsHistory host network [])
    (hlength : (genesisBlock host.crypto network :: canonicalChain [] state.history).length <
      2 ^ 64) : (canonicalChain [] state.history).length = state.height.toNat := by
  obtain ⟨last, hlast, -, -, hheight⟩ := hrecalls.tip
  have hnumber := hrecalls.numbered.getLast? hlast
  rw [List.length_cons] at hlength
  rw [hheight, hnumber, List.length_cons]
  omega

theorem Upholds.imaged (hupholds : Upholds crypto target pruneDepth reorgDepth network state db)
    (horderly : Orderly crypto network state.history) : Imaged crypto network state db :=
  ⟨hupholds.storage, hupholds.lists,
    hupholds.recalls.height_eq (horderly.length_lt hupholds.recalls.numbered), hupholds.utxos,
    hupholds.snapshot⟩

theorem Upholds.of_written {stored : Database} {hashes : List (Bytes 48)}
    (hmirrors : Mirrors crypto target pruneDepth reorgDepth network next stored)
    (hprune : written.Prunes target stored)
    (hlists : written.tables.Lists crypto
      (genesisBlock crypto network :: canonicalChain [] next.history))
    (hhashes : archivedHashes crypto network next.history = some hashes)
    (harchived : ∀ blockHash ∉ hashes, written.tables.blocks.lookup blockHash = none) :
    Upholds crypto target pruneDepth reorgDepth network next stored := by
  obtain ⟨hpruned, hrecords⟩ := hlists.prune hprune
  exact ⟨hmirrors, hpruned, hashes, hhashes, fun blockHash hnew =>
    (hrecords blockHash).mpr (harchived blockHash hnew)⟩

theorem Upholds.connected {block : Block} {snapshot : ChainstateSnapshot} {stored : Database}
    (hupholds : Upholds crypto target pruneDepth reorgDepth network state db)
    (hcommit : db.commitChainstate crypto snapshot none (some (block.header.height, block)) =
      (.ok (), written))
    (hprune : written.Prunes target stored)
    (hmirrors : Mirrors crypto target pruneDepth reorgDepth network next stored)
    (hhistory : next.history = state.history ++ [.connected block])
    (horderly : Orderly crypto network next.history) :
    Upholds crypto target pruneDepth reorgDepth network next stored := by
  obtain ⟨hashes, hhashes, hknown⟩ := hupholds.archived
  have hstep : archivedHashes crypto network next.history =
      archiveStep crypto network hashes (.connected block) := by
    rw [hhistory, archivedHashes_concat, hhashes]
    rfl
  have hnovel : block.header.blockHash crypto ∉ hashes := by
    intro hmem
    refine horderly.novel ?_
    rw [hstep, archiveStep, if_pos (List.contains_iff_mem.mpr hmem)]
  rw [archiveStep, if_neg fun hmem => hnovel (List.contains_iff_mem.mp hmem)] at hstep
  have hfull : Recalls crypto (genesisBlock crypto network :: canonicalChain [] next.history)
      next.toChainMemory := hmirrors.recalls
  have hlength := horderly.length_lt hfull.numbered
  have hchain : genesisBlock crypto network :: canonicalChain [] next.history =
      (genesisBlock crypto network :: canonicalChain [] state.history) ++ [block] := by
    rw [hhistory, canonicalChain_snoc]
    rfl
  rw [hchain] at hfull hlength
  have hheight : block.header.height.toNat =
      (genesisBlock crypto network :: canonicalChain [] state.history).length := by
    have hnumber := hfull.numbered _ block List.getElem?_concat_length
    rw [List.length_append] at hlength
    omega
  cases Database.commitChainstate_ok hcommit with
  | known hblock hexisting hdelta htables =>
      rw [hknown _ hnovel] at hexisting
      cases hexisting
  | @fresh _ _ location chainwork changed hblock hnone hwork hdelta htables hholds =>
      have hlists := hupholds.lists.push db.network location hheight
        (fun last hlast => (List.isChain_append.mp hfull.linked).2.2 last hlast block rfl)
        hnone hwork
      refine .of_written hmirrors hprune ?_ hstep fun blockHash hnew => ?_
      · rw [hchain, htables]
        exact hlists.congr rfl rfl
      · rw [List.mem_cons, not_or] at hnew
        rw [htables]
        exact (Finmap.lookup_insert_of_ne _ hnew.1).trans (hknown _ hnew.2)

theorem Upholds.disconnected {removed : Block} {utxos : UtxoSet}
    (hupholds : Upholds crypto target pruneDepth reorgDepth network state db)
    (hcommit : db.commitChainstate crypto next.snapshot (some utxos) none = (.ok (), written))
    (hmirrors : Mirrors crypto target pruneDepth reorgDepth network next written)
    (hhistory : next.history = state.history ++ [.disconnected removed])
    (hne : canonicalChain [] state.history ≠ [])
    (horderly : Orderly crypto network next.history) :
    Upholds crypto target pruneDepth reorgDepth network next written := by
  have hbefore : Recalls crypto (genesisBlock crypto network ::
      canonicalChain [] state.history) state.toChainMemory := hupholds.recalls
  have hfull : Recalls crypto (genesisBlock crypto network :: canonicalChain [] next.history)
      next.toChainMemory := hmirrors.recalls
  have hchain : genesisBlock crypto network :: canonicalChain [] next.history =
      (genesisBlock crypto network :: canonicalChain [] state.history).dropLast := by
    rw [hhistory, canonicalChain_snoc, List.dropLast_cons_of_ne_nil hne]
    rfl
  obtain ⟨last, hlast, -, htipHash, -⟩ := hfull.tip
  have htip : last.header.blockHash crypto ≠ .zero 48 := by
    rcases List.mem_cons.mp (List.mem_of_getLast? hlast) with rfl | hmem
    · exact horderly.genesis
    · obtain ⟨event, hevent, hblock⟩ := mem_canonicalChain hmem
      exact horderly.nonzero event hevent last hblock
  rw [hchain] at hlast
  obtain ⟨hrebuild⟩ := Database.commitChainstate_ok hcommit
  have hold : Tables.Lists crypto (genesisBlock crypto network ::
      canonicalChain [] state.history)
      { db.tables with
        snapshot := some next.snapshot
        utxos := ((some utxos).map UtxoSet.entries).getD ∅ } :=
    hupholds.lists.congr rfl rfl
  obtain ⟨mark, hremarks⟩ := Tables.rebuildHeightIndex_remarks hrebuild
  rw [show ChainstateSnapshot.tipHash _ = _ from htipHash] at hrebuild
  obtain ⟨hashes, hhashes, hknown⟩ := hupholds.archived
  rw [hhistory] at horderly
  refine .of_written hmirrors (.inl rfl) ?_
    (by rw [hhistory, archivedHashes_concat, hhashes]; rfl) fun blockHash hnew => ?_
  · rw [hchain]
    exact hold.rebuild hbefore.numbered hbefore.linked
      (horderly.before.length_lt hbefore.numbered) hlast htip hrebuild
  · rw [hremarks.blocks, Option.map_eq_none_iff]
    exact hknown blockHash hnew

theorem validateReplacementChain_first {host : Host σ} {blocks : List Block}
    {validated : Chainstate σ}
    (hvalidated : validateReplacementChain host now network blocks = .ok validated) :
    ∃ first rest, blocks = first :: rest ∧ first.header.height = 0 ∧
      first.header.blockHash host.crypto = genesisHash host.crypto network := by
  rcases blocks with _ | ⟨first, rest⟩
  · cases hvalidated
  · simp only [validateReplacementChain, bind_eq_ok, rejectWhen_eq_ok, decide_eq_false_iff_not,
      not_or, ne_eq, not_not] at hvalidated
    obtain ⟨-, hfirst, -⟩ := hvalidated
    exact ⟨first, rest, rfl, hfirst⟩

theorem Upholds.replaced {snapshot : ChainstateSnapshot} {utxos : UtxoSet} {first : Block}
    {rest : List Block} {stored : Database}
    (hupholds : Upholds crypto target pruneDepth reorgDepth network state db)
    (hheight : first.header.height = 0)
    (hhash : first.header.blockHash crypto = genesisHash crypto network)
    (hreplace : db.replaceChainstate crypto snapshot utxos (first :: rest) = (.ok (), written))
    (hprune : written.Prunes target stored)
    (hmirrors : Mirrors crypto target pruneDepth reorgDepth network next stored)
    (hhistory : next.history = state.history ++ [.replaced rest])
    (horderly : Orderly crypto network next.history) :
    Upholds crypto target pruneDepth reorgDepth network next stored := by
  have hfull : Recalls crypto (genesisBlock crypto network :: canonicalChain [] next.history)
      next.toChainMemory := hmirrors.recalls
  have hlength := horderly.length_lt hfull.numbered
  have hchain : canonicalChain [] next.history = rest := by
    rw [hhistory, canonicalChain_snoc]
    rfl
  rw [hchain] at hfull hlength
  have hnumbered : Numbered (first :: rest) := by
    intro index block hblock
    cases index with
    | zero =>
        cases hblock
        simp [hheight]
    | succ index => exact hfull.numbered (index + 1) block hblock
  have hlinked : (first :: rest).IsChain fun left right =>
      right.header.previousBlockHash = left.header.blockHash crypto := by
    rcases rest with _ | ⟨second, rest⟩
    · exact .singleton _
    · obtain ⟨hsecond, hrest⟩ := List.isChain_cons_cons.mp hfull.linked
      exact List.isChain_cons_cons.mpr ⟨hsecond.trans hhash.symm, hrest⟩
  obtain ⟨-, locations, harchive, hwritten⟩ := Database.replaceChainstate_ok hreplace
  obtain ⟨-, -, hholds⟩ := Database.archiveBlocks_ok harchive
  have hentries : ((first :: rest).zip locations).map Prod.fst = first :: rest :=
    List.map_fst_zip (Nat.le_of_eq hholds.length_eq)
  simp only [Tables.replace, bind_eq_ok, pure_eq_ok] at hwritten
  obtain ⟨tables, hwrite, htables⟩ := hwritten
  obtain ⟨hlists, honly⟩ := (Tables.Lists.empty crypto db.tables.snapshot).writeBlockArchives
    (by simp [Tables.empty]) (by simpa [hentries] using hnumbered)
    (by simpa [hentries] using hlinked) (by simpa [hentries] using hlength) hwrite
  rw [hentries, List.nil_append] at hlists honly
  obtain ⟨hashes, hhashes, -⟩ := hupholds.archived
  refine .of_written hmirrors hprune ?_
    (by rw [hhistory, archivedHashes_concat, hhashes]; rfl) fun blockHash hnew => ?_
  · rw [hchain, ← htables]
    exact (hlists.rebase hheight rfl hhash).congr rfl rfl
  · rw [← htables, Option.eq_none_iff_forall_ne_some]
    intro record hrecord
    have hmem := honly blockHash record hrecord
    rw [blockHashes, List.map_cons, hhash] at hmem
    exact hnew hmem

theorem Upholds.step (hupholds : Upholds crypto target pruneDepth reorgDepth network state db)
    (hstep : DatabaseStep crypto target pruneDepth reorgDepth now state db (.ok ()) next)
    (horderly : Orderly crypto network next.history) :
    ∃ stored, Upholds crypto target pruneDepth reorgDepth network next stored := by
  have hmirrors : ∀ {stored}, next.storage = some stored →
      Mirrors crypto target pruneDepth reorgDepth network next stored :=
    fun hstored => hupholds.toMirrors.step hstep hstored
  cases hstep with
  | connected hvalid happly hcommit hprune =>
      exact ⟨_, hupholds.connected hcommit hprune (hmirrors rfl) rfl horderly⟩
  | @disconnected undo removed written hundo hremoved hcommit =>
      have hne : canonicalChain [] state.history ≠ [] := by
        intro hnil
        obtain ⟨last, hlast, -⟩ := (hupholds.recalls.pop hundo removed).tip
        rw [hnil] at hlast
        cases hlast
      exact ⟨_, hupholds.disconnected hcommit (hmirrors rfl) rfl hne horderly⟩
  | replaced hcanonical hblocks hvalidated hreplace hprune =>
      rw [hupholds.network_eq] at hvalidated
      obtain ⟨first, rest, rfl, hheight, hhash⟩ := validateReplacementChain_first hvalidated
      exact ⟨_, hupholds.replaced hheight hhash hreplace hprune (hmirrors rfl) rfl horderly⟩

theorem Upholds.proceeds
    (hproceeds : Proceeds (Database.host crypto target pruneDepth reorgDepth) now state next)
    (hupholds : Upholds crypto target pruneDepth reorgDepth network state db)
    (horderly : Orderly crypto network next.history) :
    ∃ stored, Upholds crypto target pruneDepth reorgDepth network next stored := by
  induction hproceeds with
  | refl => exact ⟨db, hupholds⟩
  | @tail middle next _ hoperation ih =>
      -- The histories before are orderly because the last one is.
      obtain ⟨events, hevents⟩ := hoperation.steps.history_append
      obtain ⟨before, hbefore⟩ := ih (by
        rw [hevents] at horderly
        exact horderly.of_append events)
      rcases hoperation.databaseStep hbefore.storage with ⟨-, err, herr⟩ | hstep
      · cases herr
      · exact hbefore.step hstep horderly

theorem Upholds.create {faults : List (Option WriteFault)}
    (hcreate : Chainstate.create (Database.host crypto target pruneDepth reorgDepth) network
      (.empty network faults) = (.ok (), next)) :
    ∃ stored, Upholds crypto target pruneDepth reorgDepth network next stored := by
  obtain ⟨stored, hmirrors, hhistory, hcommit⟩ := Mirrors.create hcreate
  refine ⟨stored, ?_⟩
  cases Database.commitChainstate_ok hcommit with
  | known hblock hexisting hdelta htables => simp [Database.empty, Tables.empty] at hexisting
  | @fresh _ _ location chainwork changed hblock hnone hwork hdelta htables hholds =>
      have hlists := (Tables.Lists.empty crypto none).push network location rfl (by simp) hnone
        hwork
      refine .of_written hmirrors (.inl rfl) ?_ (by rw [hhistory]; rfl) fun blockHash hnew => ?_
      · rw [htables, hhistory]
        exact hlists.congr rfl rfl
      · rw [List.mem_singleton] at hnew
        rw [htables]
        exact (Finmap.lookup_insert_of_ne _ hnew).trans (Finmap.lookup_empty _)

theorem Upholds.run {calls : List (UInt64 × Call)}
    (hupholds : Upholds crypto target pruneDepth reorgDepth network state db)
    (hcompletes : state.completes (Database.host crypto target pruneDepth reorgDepth) calls = true)
    (horderly : Orderly crypto network
      (state.run (Database.host crypto target pruneDepth reorgDepth) calls).history) :
    ∃ stored, Upholds crypto target pruneDepth reorgDepth network
      (state.run (Database.host crypto target pruneDepth reorgDepth) calls) stored := by
  induction calls generalizing state db with
  | nil => exact ⟨db, hupholds⟩
  | cons timed calls ih =>
      rw [completes, Bool.and_eq_true] at hcompletes
      obtain ⟨events, hevents⟩ := (run_reaches (Database.host crypto target pruneDepth reorgDepth)
        (state.call _ timed.1 timed.2) calls).history_append
      have hfirst : Orderly crypto network
          (state.call (Database.host crypto target pruneDepth reorgDepth) timed.1
            timed.2).history := by
        refine Orderly.of_append events ?_
        rw [← hevents]
        exact horderly
      obtain ⟨middle, hmiddle⟩ := hupholds.proceeds (call_proceeds hcompletes.1) hfirst
      exact ih hmiddle hcompletes.2 horderly

end

/-- After any run of calls that succeed, the database holds the image of the state,
as long as no block is connected again that is still in the archive. -/
theorem persisted_image (crypto : Crypto) (target : Option Nat)
    (pruneDepth reorgDepth : Option UInt64) (network : Network)
    (faults : List (Option WriteFault)) (start : Chainstate Database)
    (calls : List (UInt64 × Call))
    (hcreate : Chainstate.create (Database.host crypto target pruneDepth reorgDepth) network
      (.empty network faults) = (.ok (), start))
    (hcompletes : start.completes (Database.host crypto target pruneDepth reorgDepth) calls = true)
    (horderly : Orderly crypto network
      (start.run (Database.host crypto target pruneDepth reorgDepth) calls).history) :
    ∃ db, Imaged crypto network
      (start.run (Database.host crypto target pruneDepth reorgDepth) calls) db := by
  obtain ⟨created, hstart⟩ := Upholds.create hcreate
  obtain ⟨stored, hfinal⟩ := hstart.run hcompletes horderly
  exact ⟨stored, hfinal.imaged horderly⟩

def regnetHost : Host Database :=
  Database.host .hashing none none none

def storedRegnet : Chainstate Database :=
  (Chainstate.create regnetHost .regnet (.empty .regnet [])).2

def siblingCalls : List (UInt64 × Call) :=
  [(exampleClock, .connectBlock firstBlock), (exampleClock, .disconnectLastBlock),
    (exampleClock, .selectBranch [Database.siblingBlock])]

/-- A block makes way for its sibling. -/
theorem siblings_imaged :
    ∃ db, Imaged .hashing .regnet (storedRegnet.run regnetHost siblingCalls) db := by
  have hcreate : Chainstate.create regnetHost .regnet (.empty .regnet []) =
      (.ok (), storedRegnet) := by
    have hok : (Chainstate.create regnetHost .regnet (.empty .regnet [])).1 = .ok () := by
      decide +kernel
    rw [storedRegnet, ← hok]
  obtain ⟨hcompletes, hhistory⟩ :
      storedRegnet.completes regnetHost siblingCalls = true ∧
        (storedRegnet.run regnetHost siblingCalls).history =
          [.connected firstBlock, .disconnected firstBlock,
            .connected Database.siblingBlock] := by
    decide +kernel
  have horderly : Orderly .hashing .regnet
      (storedRegnet.run regnetHost siblingCalls).history := by
    rw [hhistory]
    exact ⟨by decide +kernel, by decide +kernel, by decide +kernel, by decide +kernel⟩
  exact persisted_image .hashing none none none .regnet [] storedRegnet siblingCalls hcreate
    hcompletes horderly

def reconnectingCalls : List (UInt64 × Call) :=
  [(exampleClock, .connectBlock firstBlock), (exampleClock, .disconnectLastBlock),
    (exampleClock, .connectBlock firstBlock)]

/-- A block that is connected again is neither listed by its height nor marked. -/
theorem reconnected_block_unlisted :
    (Chainstate.create regnetHost .regnet (.empty .regnet [])).1 = .ok () ∧
    storedRegnet.completes regnetHost reconnectingCalls = true ∧
    canonicalChain [] (storedRegnet.run regnetHost reconnectingCalls).history = [firstBlock] ∧
    (storedRegnet.run regnetHost reconnectingCalls).storage.map (fun db =>
      (db.tables.blockHeights.lookup 1,
        (db.tables.blocks.lookup (firstBlock.header.blockHash .hashing)).map
          fun record => record.mainChain)) = some (none, some false) := by
  decide +kernel

end Chainstate

end Atho
