import Atho.Library.BigUint
import Atho.Library.Forall2
import Atho.Library.TakeThrough
import Atho.P2p.SyncState
import Atho.Storage.Finality
import Atho.Storage.Image

/-! Serving headers: the locator a node sends of its chain, and the headers another node
answers with from its own. -/

namespace Atho

/-- The environment is never mapped larger. -/
def maxMapSize : Nat := 2 ^ 40

def Database.loadBlockRecordByHeight (db : Database) (height : UInt64) :
    Option BlockArchiveRecord :=
  (db.tables.blockHeights.lookup height).bind db.tables.blocks.lookup

namespace Chainstate

/-! The server. -/

def canonicalLocatorHeight (crypto : Crypto) (state : Chainstate Database)
    (blockHash : Bytes 48) : Option UInt64 :=
  match state.blocks.find? fun block => block.header.blockHash crypto == blockHash with
  | some block => some block.header.height
  | none => do
      let db ← state.storage
      let record ← db.tables.blocks.lookup blockHash
      let canonicalHash ← db.tables.blockHeights.lookup record.height
      if canonicalHash = blockHash then some record.height else none

/-- A stop hash of zeros stops nothing. -/
def stopsAt (stopHash blockHash : Bytes 48) : Bool :=
  stopHash != .zero 48 && blockHash == stopHash

/-- The loop over the stored heights; `limit` is the number of headers still to come. -/
def headersFrom (db : Database) (tipHeight : UInt64) (stopHash : Bytes 48) :
    (limit : Nat) → (nextHeight : UInt64) → List BlockHeader
  | 0, _ => []
  | limit + 1, nextHeight =>
      if nextHeight ≤ tipHeight then
        match db.loadBlockRecordByHeight nextHeight with
        | none => []
        | some record =>
            record.header ::
              if stopsAt stopHash record.blockHash then []
              else headersFrom db tipHeight stopHash limit (nextHeight.saturatingAdd 1)
      else []

/-- Reading the database does not fail. -/
def headersAfterLocator (crypto : Crypto) (state : Chainstate Database)
    (locatorHashes : List (Bytes 48)) (stopHash : Bytes 48) (maxHeaders : Nat) :
    List BlockHeader :=
  if maxHeaders = 0 then []
  else
    match state.storage with
    | none =>
        let headersAt (startIndex : Nat) : List BlockHeader :=
          ((state.blocks.drop startIndex).takeThrough
            (fun block => stopsAt stopHash (block.header.blockHash crypto)) maxHeaders).map
              Block.header
        match locatorHashes.findSome? fun blockHash =>
            (state.blocks.findIdx? fun block => block.header.blockHash crypto == blockHash).map
              (· + 1) with
        | some startIndex => headersAt startIndex
        | none => if locatorHashes.isEmpty then headersAt 0 else []
    | some db =>
        match locatorHashes.findSome? fun blockHash =>
            (state.canonicalLocatorHeight crypto blockHash).map (·.saturatingAdd 1) with
        | some startHeight => headersFrom db state.height stopHash maxHeaders startHeight
        | none =>
            if locatorHashes.isEmpty then headersFrom db state.height stopHash maxHeaders 0
            else []

/-! The client. -/

def blockRecordByHash (state : Chainstate Database) (blockHash : Bytes 48) :
    Option BlockArchiveRecord :=
  state.storage.bind fun db => db.tables.blocks.lookup blockHash

def blockRecordByHeight (crypto : Crypto) (state : Chainstate Database) (height : UInt64) :
    Option BlockArchiveRecord :=
  match state.memoryBlockIndexForHeight height with
  | some index =>
      state.blocks[index]?.bind fun block =>
        state.blockRecordByHash (block.header.blockHash crypto)
  | none => state.storage.bind (·.loadBlockRecordByHeight height)

def linearRecentHashes : Nat := 10

/-- The hash that one round of the locator has for its height. -/
def locatorHash (crypto : Crypto) (state : Chainstate Database) (height : UInt64) :
    Option (Bytes 48) :=
  match state.blockRecordByHeight crypto height with
  | some record => some record.blockHash
  | none => if height = state.height then some state.tipHash else none

def pushLocator (locator : List (Bytes 48)) (blockHash : Bytes 48) : List (Bytes 48) :=
  if locator.getLast? = some blockHash then locator else locator ++ [blockHash]

/-- The rounds of the locator; the height falls in each of them, so that there are never
more rounds than heights. -/
def locatorFrom (crypto : Crypto) (state : Chainstate Database) :
    (rounds : Nat) → (height step : UInt64) → List (Bytes 48) → List (Bytes 48)
  | 0, _, _, locator => locator
  | rounds + 1, height, step, locator =>
      let locator := (state.locatorHash crypto height).elim locator (pushLocator locator)
      if height = 0 ∨ maxLocatorHashes ≤ locator.length + 1 then locator
      else
        let step := if linearRecentHashes ≤ locator.length then step.saturatingMul 2 else step
        locatorFrom crypto state rounds (height.saturatingSub step) step locator

def blockLocatorHashes (crypto : Crypto) (state : Chainstate Database) : List (Bytes 48) :=
  let locator := locatorFrom crypto state (state.height.toNat + 1) state.height 1 []
  if locator.getLast? = some (genesisHash crypto state.network) then locator
  else
    (if maxLocatorHashes ≤ locator.length then locator.dropLast else locator) ++
      [genesisHash crypto state.network]

/-! What they serve. -/

/-- The memory is one of the chain `full`, which starts at the genesis block of the
network and has one block at a height. -/
structure HoldsChain (crypto : Crypto) (full : List Block) (state : Chainstate Database) :
    Prop extends Recalls crypto full state.toChainMemory where
  genesis : full.head? = some (genesisBlock crypto state.network)
  length_le : full.length ≤ 2 ^ 64

/-- The height index is that of the chain `full`, whose records are those of its blocks.
Every block takes up some of the map. -/
structure Indexes (crypto : Crypto) (full : List Block) (db : Database) : Prop where
  heights : ∀ height, db.tables.blockHeights.lookup height =
    (blockHashes crypto full)[height.toNat]?
  records : ∀ block ∈ full, ∃ record,
    db.tables.blocks.lookup (block.header.blockHash crypto) = some record ∧
      record.blockHash = block.header.blockHash crypto ∧ record.header = block.header
  fits : full.length < maxMapSize

/-- The records that the state finds are those of its chain: it has no database, and no
two blocks share a hash, or it has one that indexes the chain. -/
def Recorded (crypto : Crypto) (own : List Block) (state : Chainstate Database) : Prop :=
  (state.storage = none ∧ (blockHashes crypto own).Nodup) ∨
    ∃ db, state.storage = some db ∧ Indexes crypto own db

/-- The blocks `run` are the next ones of the chain from the height `start` on, up to the
stop hash, the limit or the tip. -/
structure HeaderRun (crypto : Crypto) (full : List Block) (start : Nat) (stopHash : Bytes 48)
    (limit : Nat) (run : List Block) : Prop where
  isPrefix : run <+: full.drop start
  heights : ∀ index block, run[index]? = some block →
    block.header.height.toNat = start + index
  length_le : run.length ≤ limit
  ends : run.length = limit ∨ run = full.drop start ∨ ∃ last, run.getLast? = some last ∧
    stopsAt stopHash (last.header.blockHash crypto) = true
  goes_on : ∀ block ∈ run.dropLast, stopsAt stopHash (block.header.blockHash crypto) = false

/-- The answer to a locator: nothing when none of its hashes is canonical, and otherwise
the run after the first that is. -/
inductive ServesAfter (crypto : Crypto) (full : List Block) (locator : List (Bytes 48))
    (stopHash : Bytes 48) (limit : Nat) : List BlockHeader → Prop where
  | unknown (hunknown : ∀ blockHash ∈ locator, blockHash ∉ blockHashes crypto full) :
      ServesAfter crypto full locator stopHash limit []
  | after {before behind : List (Bytes 48)} {blockHash : Bytes 48} {height : Nat}
      {run : List Block} (hlocator : locator = before ++ blockHash :: behind)
      (hunknown : ∀ other ∈ before, other ∉ blockHashes crypto full)
      (hknown : (blockHashes crypto full)[height]? = some blockHash)
      (hrun : HeaderRun crypto full (height + 1) stopHash limit run) :
      ServesAfter crypto full locator stopHash limit (run.map Block.header)

/-- The locator lists hashes of the chain `own` at descending heights, from the tip to
genesis. -/
structure IsLocator (crypto : Crypto) (own : List Block) (locator : List (Bytes 48))
    (heights : List Nat) : Prop where
  hashes : List.Forall₂
    (fun blockHash height => (blockHashes crypto own)[height]? = some blockHash) locator heights
  descending : heights.Pairwise (· > ·)
  tip : heights.head? = some (own.length - 1)
  genesis : heights.getLast? = some 0
  length_le : locator.length ≤ maxLocatorHashes

variable {crypto : Crypto} {full own : List Block} {state server client : Chainstate Database}
  {db : Database}

/-! The chain by its heights. -/

namespace HoldsChain

theorem mem_of_mem_blocks (hholds : HoldsChain crypto full state) {block : Block}
    (hblock : block ∈ state.blocks) : block ∈ full := by
  obtain ⟨kept, dropped, hblocks, -, hkept⟩ := hholds.blocks
  rw [hblocks, List.mem_append, Option.mem_toList] at hblock
  rcases hblock with hblock | hblock
  · obtain ⟨index, -, hindex⟩ := hkept block hblock
    exact List.mem_of_getElem? hindex
  · exact List.mem_of_mem_drop hblock

theorem height_of_getElem? (hholds : HoldsChain crypto full state) {index : Nat} {block : Block}
    (hblock : full[index]? = some block) : block.header.height.toNat = index := by
  have hlt := (List.getElem?_eq_some_iff.mp hblock).1
  have hlength := hholds.length_le
  rw [hholds.numbered index block hblock]
  omega

theorem getElem?_height (hholds : HoldsChain crypto full state) {block : Block}
    (hblock : block ∈ full) : full[block.header.height.toNat]? = some block := by
  obtain ⟨index, hindex⟩ := List.mem_iff_getElem?.mp hblock
  rw [hholds.height_of_getElem? hindex, hindex]

theorem getElem?_tip (hholds : HoldsChain crypto full state) :
    full.length = state.height.toNat + 1 ∧
      (blockHashes crypto full)[state.height.toNat]? = some state.tipHash := by
  obtain ⟨last, hlast, -, htipHash, hheight⟩ := hholds.tip
  rw [List.getLast?_eq_getElem?] at hlast
  have hindex := hholds.height_of_getElem? hlast
  have hlt := (List.getElem?_eq_some_iff.mp hlast).1
  rw [hheight, hindex, blockHashes, List.getElem?_map, hlast, htipHash]
  exact ⟨by omega, rfl⟩

theorem getElem?_genesis (hholds : HoldsChain crypto full state) :
    (blockHashes crypto full)[0]? = some (genesisHash crypto state.network) := by
  rw [← List.head?_eq_getElem?, blockHashes, List.head?_map, hholds.genesis]
  rfl

end HoldsChain

theorem getElem?_blockHashes {index : Nat} {blockHash : Bytes 48} :
    (blockHashes crypto full)[index]? = some blockHash ↔
      ∃ block, full[index]? = some block ∧ block.header.blockHash crypto = blockHash := by
  rw [blockHashes, List.getElem?_map, Option.map_eq_some_iff]

namespace Indexes

theorem header_eq (hindexes : Indexes crypto full db) {left right : Block} (hleft : left ∈ full)
    (hright : right ∈ full)
    (hhash : left.header.blockHash crypto = right.header.blockHash crypto) :
    left.header = right.header := by
  obtain ⟨record, hrecord, -, hheader⟩ := hindexes.records left hleft
  obtain ⟨record', hrecord', -, hheader'⟩ := hindexes.records right hright
  rw [hhash, hrecord'] at hrecord
  cases hrecord
  rw [← hheader, ← hheader']

theorem loadBlockRecordByHeight (hindexes : Indexes crypto full db) {height : UInt64}
    {block : Block} (hblock : full[height.toNat]? = some block) :
    ∃ record, db.loadBlockRecordByHeight height = some record ∧
      record.blockHash = block.header.blockHash crypto ∧ record.header = block.header := by
  obtain ⟨record, hrecord, hhash, hheader⟩ :=
    hindexes.records block (List.mem_of_getElem? hblock)
  refine ⟨record, ?_, hhash, hheader⟩
  rw [Database.loadBlockRecordByHeight, hindexes.heights,
    getElem?_blockHashes.mpr ⟨block, hblock, rfl⟩, Option.bind_some, hrecord]

theorem blockHashes_nodup (hindexes : Indexes crypto full db)
    (hholds : HoldsChain crypto full state) : (blockHashes crypto full).Nodup := by
  rw [List.nodup_iff_getElem?_ne_getElem?]
  intro first second hlt hlength heq
  obtain ⟨right, hright, hhash⟩ := getElem?_blockHashes.mp (List.getElem?_eq_getElem hlength)
  rw [List.getElem?_eq_getElem hlength, ← hhash] at heq
  obtain ⟨left, hleft, hsame⟩ := getElem?_blockHashes.mp heq
  have hheader := hindexes.header_eq (List.mem_of_getElem? hleft)
    (List.mem_of_getElem? hright) hsame
  have hfirst := hholds.height_of_getElem? hleft
  rw [hheader, hholds.height_of_getElem? hright] at hfirst
  omega

end Indexes

theorem Recorded.blockHashes_nodup (hrecorded : Recorded crypto own client)
    (hholds : HoldsChain crypto own client) : (blockHashes crypto own).Nodup := by
  rcases hrecorded with ⟨-, hnodup⟩ | ⟨db, -, hindexes⟩
  · exact hnodup
  · exact hindexes.blockHashes_nodup hholds

/-! The search for the locator. -/

theorem canonicalLocatorHeight_eq_some (hholds : HoldsChain crypto full server)
    (hstorage : server.storage = some db) (hindexes : Indexes crypto full db)
    {blockHash : Bytes 48} {height : UInt64} :
    server.canonicalLocatorHeight crypto blockHash = some height ↔
      (blockHashes crypto full)[height.toNat]? = some blockHash := by
  rw [getElem?_blockHashes, canonicalLocatorHeight]
  split
  · next block hfound =>
      have hmem := hholds.mem_of_mem_blocks (List.mem_of_find?_eq_some hfound)
      have hhash : block.header.blockHash crypto = blockHash := by
        simpa using List.find?_some hfound
      constructor
      · rintro ⟨⟩
        exact ⟨block, hholds.getElem?_height hmem, hhash⟩
      · rintro ⟨other, hother, hotherHash⟩
        rw [hindexes.header_eq hmem (List.mem_of_getElem? hother) (hhash.trans hotherHash.symm),
          Option.some.injEq, ← UInt64.toNat_inj, hholds.height_of_getElem? hother]
  · rw [hstorage, Option.bind_eq_bind, Option.bind_some]
    simp only [Option.bind_eq_bind, Option.bind_eq_some_iff, Option.ite_none_right_eq_some,
      Option.some.injEq, hindexes.heights]
    constructor
    · rintro ⟨record, -, canonicalHash, hcanonical, rfl, rfl⟩
      exact getElem?_blockHashes.mp hcanonical
    · rintro ⟨block, hblock, rfl⟩
      obtain ⟨record, hrecord, -, hheader⟩ :=
        hindexes.records block (List.mem_of_getElem? hblock)
      have hheight : record.height = height := by
        rw [← UInt64.toNat_inj, ← hholds.height_of_getElem? hblock, ← hheader]
        rfl
      refine ⟨record, hrecord, _, ?_, rfl, hheight⟩
      rw [hheight]
      exact getElem?_blockHashes.mpr ⟨block, hblock, rfl⟩

theorem canonicalLocatorHeight_eq_none (hholds : HoldsChain crypto full server)
    (hstorage : server.storage = some db) (hindexes : Indexes crypto full db)
    {blockHash : Bytes 48} :
    server.canonicalLocatorHeight crypto blockHash = none ↔
      blockHash ∉ blockHashes crypto full := by
  rw [Option.eq_none_iff_forall_ne_some, List.mem_iff_getElem?, not_exists]
  constructor
  · intro hnone index hindex
    obtain ⟨block, hblock, -⟩ := getElem?_blockHashes.mp hindex
    refine hnone block.header.height
      ((canonicalLocatorHeight_eq_some hholds hstorage hindexes).mpr ?_)
    rwa [hholds.height_of_getElem? hblock]
  · exact fun hnone height hheight => hnone height.toNat
      ((canonicalLocatorHeight_eq_some hholds hstorage hindexes).mp hheight)

/-! The loop over the heights. -/

theorem headersFrom_eq (hholds : HoldsChain crypto full server)
    (hindexes : Indexes crypto full db) (stopHash : Bytes 48) (limit : Nat)
    (nextHeight : UInt64) :
    headersFrom db server.height stopHash limit nextHeight =
      ((full.drop nextHeight.toNat).takeThrough
        (fun block => stopsAt stopHash (block.header.blockHash crypto)) limit).map
          Block.header := by
  obtain ⟨hlength, -⟩ := hholds.getElem?_tip
  induction limit generalizing nextHeight with
  | zero => rfl
  | succ limit ih =>
      rw [headersFrom]
      split
      · next hle =>
          rw [UInt64.le_iff_toNat_le] at hle
          have hlt : nextHeight.toNat < full.length := by omega
          obtain ⟨record, hrecord, hhash, hheader⟩ :=
            hindexes.loadBlockRecordByHeight (List.getElem?_eq_getElem hlt)
          have hnext : (nextHeight.saturatingAdd 1).toNat = nextHeight.toNat + 1 := by
            have hfits := hindexes.fits
            rw [maxMapSize] at hfits
            rw [UInt64.toNat_saturatingAdd, UInt64.toNat_one]
            omega
          rw [List.drop_eq_getElem_cons hlt, List.takeThrough, List.map_cons, hrecord]
          simp only [hhash, hheader, ih, hnext]
          split <;> rfl
      · next hgt =>
          rw [UInt64.le_iff_toNat_le] at hgt
          rw [List.drop_eq_nil_of_le (by omega)]
          rfl

theorem headerRun_takeThrough (hholds : HoldsChain crypto full server) (start : Nat)
    (stopHash : Bytes 48) (limit : Nat) :
    HeaderRun crypto full start stopHash limit ((full.drop start).takeThrough
      (fun block => stopsAt stopHash (block.header.blockHash crypto)) limit) where
  isPrefix := List.takeThrough_isPrefix limit _
  heights index block hblock := by
    refine hholds.height_of_getElem? ?_
    obtain ⟨hlt, rfl⟩ := List.getElem?_eq_some_iff.mp hblock
    rw [← List.getElem?_drop]
    exact List.prefix_iff_getElem?.mp (List.takeThrough_isPrefix limit _) index hlt
  length_le := List.length_takeThrough_le limit _
  ends := List.takeThrough_ends limit _
  goes_on := List.not_stops_of_mem_dropLast limit _

theorem headersAfterLocator_serves (hholds : HoldsChain crypto full server)
    (hstorage : server.storage = some db) (hindexes : Indexes crypto full db)
    {locator : List (Bytes 48)} {limit : Nat} (hlocator : locator ≠ []) (hlimit : 0 < limit)
    (stopHash : Bytes 48) :
    ServesAfter crypto full locator stopHash limit
      (server.headersAfterLocator crypto locator stopHash limit) := by
  rw [headersAfterLocator, if_neg (by omega), hstorage]
  dsimp only
  split
  · next startHeight hfound =>
      obtain ⟨before, blockHash, behind, rfl, hstart, hnone⟩ :=
        List.findSome?_eq_some_iff.mp hfound
      obtain ⟨height, hheight, rfl⟩ := Option.map_eq_some_iff.mp hstart
      have hknown := (canonicalLocatorHeight_eq_some hholds hstorage hindexes).mp hheight
      have hstart : (height.saturatingAdd 1).toNat = height.toNat + 1 := by
        have hlt := (List.getElem?_eq_some_iff.mp hknown).1
        have hfits := hindexes.fits
        rw [blockHashes, List.length_map] at hlt
        rw [maxMapSize] at hfits
        rw [UInt64.toNat_saturatingAdd, UInt64.toNat_one]
        omega
      rw [headersFrom_eq hholds hindexes, hstart]
      refine .after rfl (fun other hother => ?_) hknown (headerRun_takeThrough hholds _ _ _)
      exact (canonicalLocatorHeight_eq_none hholds hstorage hindexes).mp
        (Option.map_eq_none_iff.mp (hnone other hother))
  · next hfound =>
      rw [if_neg (by simpa using hlocator)]
      refine .unknown fun blockHash hmem => ?_
      exact (canonicalLocatorHeight_eq_none hholds hstorage hindexes).mp
        (Option.map_eq_none_iff.mp (List.findSome?_eq_none_iff.mp hfound blockHash hmem))

/-! The rounds of the locator. -/

theorem blockRecordByHeight_eq_some (hholds : HoldsChain crypto own client)
    (hrecorded : Recorded crypto own client) {height : UInt64} {record : BlockArchiveRecord}
    (hrecord : client.blockRecordByHeight crypto height = some record) :
    (blockHashes crypto own)[height.toNat]? = some record.blockHash := by
  rw [blockRecordByHeight] at hrecord
  rcases hrecorded with ⟨hstorage, -⟩ | ⟨stored, hstorage, hindexes⟩
  · split at hrecord <;> simp [blockRecordByHash, hstorage] at hrecord
  · split at hrecord
    · next index hindex =>
        obtain ⟨block, hblock, hheight⟩ := memoryBlockIndexForHeight_eq_some hindex
        rw [hblock, Option.bind_some, blockRecordByHash, hstorage, Option.bind_some] at hrecord
        have hmem := hholds.mem_of_mem_blocks (List.mem_of_getElem? hblock)
        obtain ⟨found, hfound, hhash, -⟩ := hindexes.records block hmem
        rw [hfound] at hrecord
        cases hrecord
        rw [← hheight]
        exact getElem?_blockHashes.mpr ⟨block, hholds.getElem?_height hmem, hhash.symm⟩
    · rw [hstorage, Option.bind_some, Database.loadBlockRecordByHeight, hindexes.heights,
        Option.bind_eq_some_iff] at hrecord
      obtain ⟨blockHash, hindex, hlookup⟩ := hrecord
      obtain ⟨block, hblock, rfl⟩ := getElem?_blockHashes.mp hindex
      obtain ⟨found, hfound, hhash, -⟩ := hindexes.records block (List.mem_of_getElem? hblock)
      rw [hfound] at hlookup
      cases hlookup
      rw [hindex, hhash]

theorem locatorHash_spec (hholds : HoldsChain crypto own client)
    (hrecorded : Recorded crypto own client) (height : UInt64) :
    (∀ blockHash, client.locatorHash crypto height = some blockHash →
      (blockHashes crypto own)[height.toNat]? = some blockHash) ∧
      (height = client.height → client.locatorHash crypto height ≠ none) := by
  rw [locatorHash]
  split
  · next record hrecord =>
      refine ⟨?_, by simp⟩
      rintro _ ⟨⟩
      exact blockRecordByHeight_eq_some hholds hrecorded hrecord
  · split
    · next htip =>
        refine ⟨?_, by simp⟩
        rintro _ ⟨⟩
        rw [htip, hholds.getElem?_tip.2]
    · next htip => exact ⟨by simp, fun heq => absurd heq htip⟩

/-- A locator under way: hashes of the chain at descending heights, none below `floor`. -/
structure Descending (crypto : Crypto) (own : List Block) (floor : Nat)
    (locator : List (Bytes 48)) (heights : List Nat) : Prop where
  hashes : List.Forall₂
    (fun blockHash height => (blockHashes crypto own)[height]? = some blockHash) locator heights
  descending : heights.Pairwise (· > ·)
  floor_le : ∀ height ∈ heights, floor ≤ height

namespace Descending

variable {floor height : Nat} {locator : List (Bytes 48)} {heights : List Nat}
  {blockHash : Bytes 48}

theorem mono {lower : Nat} (hunder : Descending crypto own floor locator heights)
    (hle : lower ≤ floor) : Descending crypto own lower locator heights :=
  { hunder with floor_le := fun height hheight => hle.trans (hunder.floor_le height hheight) }

theorem concat (hunder : Descending crypto own (height + 1) locator heights)
    (hhash : (blockHashes crypto own)[height]? = some blockHash) :
    Descending crypto own height (locator ++ [blockHash]) (heights ++ [height]) where
  hashes := List.rel_append hunder.hashes (.cons hhash .nil)
  descending := by
    rw [List.pairwise_append]
    refine ⟨hunder.descending, List.pairwise_singleton _ _, fun above habove below hbelow => ?_⟩
    rw [List.mem_singleton.mp hbelow]
    exact hunder.floor_le above habove
  floor_le above habove := by
    rcases List.mem_append.mp habove with habove | habove
    · exact Nat.le_of_succ_le (hunder.floor_le above habove)
    · rw [List.mem_singleton.mp habove]

theorem push (hunder : Descending crypto own (height + 1) locator heights)
    (hhash : (blockHashes crypto own)[height]? = some blockHash) :
    ∃ heights', Descending crypto own height (pushLocator locator blockHash) heights' ∧
      heights'.head? = some (heights.head?.getD height) := by
  rw [pushLocator]
  split
  · next hlast =>
      refine ⟨heights, hunder.mono (Nat.le_succ height), ?_⟩
      cases hunder.hashes with
      | nil => cases hlast
      | cons _ _ => rfl
  · exact ⟨heights ++ [height], hunder.concat hhash, by cases heights <;> rfl⟩

end Descending

theorem length_pushLocator_le (locator : List (Bytes 48)) (blockHash : Bytes 48) :
    (pushLocator locator blockHash).length ≤ locator.length + 1 := by
  rw [pushLocator]
  split <;> simp

theorem locatorRound_descending (hholds : HoldsChain crypto own client)
    (hrecorded : Recorded crypto own client) {height : UInt64} {locator : List (Bytes 48)}
    {heights : List Nat} (hunder : Descending crypto own (height.toNat + 1) locator heights)
    (htip : locator = [] ∧ height = client.height ∨
      heights.head? = some client.height.toNat) :
    ∃ heights', Descending crypto own height.toNat
        ((client.locatorHash crypto height).elim locator (pushLocator locator)) heights' ∧
      heights'.head? = some client.height.toNat := by
  obtain ⟨hsound, hfirst⟩ := locatorHash_spec hholds hrecorded height
  cases hhash : client.locatorHash crypto height with
  | none =>
      rcases htip with ⟨-, hheight⟩ | hhead
      · exact absurd hhash (hfirst hheight)
      · exact ⟨heights, hunder.mono (Nat.le_succ _), hhead⟩
  | some blockHash =>
      obtain ⟨heights', hpushed, hhead⟩ := hunder.push (hsound blockHash hhash)
      refine ⟨heights', hpushed, ?_⟩
      rw [hhead]
      rcases htip with ⟨rfl, rfl⟩ | htip
      · cases hunder.hashes
        rfl
      · rw [htip, Option.getD_some]

theorem locatorFrom_descending (hholds : HoldsChain crypto own client)
    (hrecorded : Recorded crypto own client) {rounds : Nat} {height step : UInt64}
    {locator : List (Bytes 48)} {heights : List Nat} (hrounds : height.toNat < rounds)
    (hstep : 0 < step.toNat)
    (hunder : Descending crypto own (height.toNat + 1) locator heights)
    (htip : locator = [] ∧ height = client.height ∨
      heights.head? = some client.height.toNat)
    (hlength : locator.length + 1 < maxLocatorHashes) :
    ∃ heights', Descending crypto own 0 (locatorFrom crypto client rounds height step locator)
        heights' ∧
      heights'.head? = some client.height.toNat ∧
      (locatorFrom crypto client rounds height step locator).length < maxLocatorHashes := by
  induction rounds generalizing height step locator heights with
  | zero => omega
  | succ rounds ih =>
      obtain ⟨heights', hround, hhead⟩ :=
        locatorRound_descending hholds hrecorded hunder htip
      have hgrown : ((client.locatorHash crypto height).elim locator
          (pushLocator locator)).length ≤ locator.length + 1 := by
        cases client.locatorHash crypto height with
        | none => exact Nat.le_succ _
        | some blockHash => exact length_pushLocator_le locator blockHash
      rw [locatorFrom]
      generalize (client.locatorHash crypto height).elim locator (pushLocator locator) =
        grown at hround hgrown
      dsimp only
      split
      · exact ⟨heights', hround.mono (Nat.zero_le _), hhead, by omega⟩
      · next hgoes =>
          rw [not_or, not_le] at hgoes
          have hheight : 0 < height.toNat := by
            rw [Nat.pos_iff_ne_zero]
            exact fun hzero => hgoes.1 (UInt64.toNat_inj.mp hzero)
          have hstep' : 0 < (if linearRecentHashes ≤ grown.length then step.saturatingMul 2
              else step).toNat := by
            split
            · rw [UInt64.toNat_saturatingMul, show (2 : UInt64).toNat = 2 from rfl]
              omega
            · exact hstep
          refine ih ?_ hstep' (hround.mono ?_) (.inr hhead) hgoes.2 <;>
          · rw [UInt64.toNat_saturatingSub]
            omega

theorem blockLocatorHashes_isLocator (hholds : HoldsChain crypto own client)
    (hrecorded : Recorded crypto own client) :
    ∃ heights, IsLocator crypto own (client.blockLocatorHashes crypto) heights := by
  obtain ⟨heights, hunder, hhead, hlength⟩ :=
    locatorFrom_descending hholds hrecorded (Nat.lt_succ_self client.height.toNat)
      (by decide : 0 < (1 : UInt64).toNat) ⟨.nil, .nil, by simp⟩ (.inl ⟨rfl, rfl⟩) (by decide)
  have htip : own.length - 1 = client.height.toNat := by
    rw [hholds.getElem?_tip.1, Nat.add_sub_cancel]
  have hgenesis := hholds.getElem?_genesis
  rw [blockLocatorHashes]
  generalize locatorFrom crypto client (client.height.toNat + 1) client.height 1 [] = locator
    at hunder hlength
  split
  · next hlast =>
      refine ⟨heights, hunder.hashes, hunder.descending, by rw [hhead, htip], ?_, hlength.le⟩
      obtain ⟨lowest, hlowest, hhash⟩ := getLast?_of_forall₂ hunder.hashes hlast
      have hzero : lowest = 0 := by
        have hlt := (List.getElem?_eq_some_iff.mp hhash).1
        exact (List.getElem?_inj hlt (hrecorded.blockHashes_nodup hholds)).mp
          (hhash.trans hgenesis.symm)
      rw [hlowest, hzero]
  · next hlast =>
      -- genesis is not listed yet, so that every height is above it
      have habove : ∀ height ∈ heights, 0 + 1 ≤ height := by
        intro height hheight
        by_contra hlow
        obtain rfl : height = 0 := by omega
        obtain ⟨before, behind, rfl⟩ := List.append_of_mem hheight
        have hbehind : behind = [] := by
          have hbelow := (List.pairwise_cons.mp (List.pairwise_append.mp hunder.descending).2.1).1
          exact List.eq_nil_iff_forall_not_mem.mpr fun lower hlower =>
            Nat.not_lt_zero lower (hbelow lower hlower)
        subst hbehind
        obtain ⟨blockHash, hfound, hhash⟩ :=
          getLast?_of_forall₂ hunder.hashes.flip (List.getLast?_concat)
        rw [hgenesis] at hhash
        cases hhash
        exact hlast hfound
      rw [if_neg (Nat.not_le.mpr hlength)]
      have hdone := Descending.concat { hunder with floor_le := habove } hgenesis
      refine ⟨heights ++ [0], hdone.hashes, hdone.descending, ?_, List.getLast?_concat, ?_⟩
      · rw [List.head?_append, hhead, htip]
        rfl
      · rw [List.length_append]
        exact hlength

theorem mem_blockLocatorHashes_genesis (crypto : Crypto) (client : Chainstate Database) :
    genesisHash crypto client.network ∈ client.blockLocatorHashes crypto := by
  rw [blockLocatorHashes]
  split
  · next hlast => exact List.mem_of_getLast? hlast
  · exact List.mem_append_right _ List.mem_cons_self

/-! Both together. -/

theorem HeaderRun.previousBlockHash_eq (hholds : HoldsChain crypto full server)
    {height limit : Nat} {blockHash stopHash : Bytes 48} {first : Block} {rest : List Block}
    (hrun : HeaderRun crypto full (height + 1) stopHash limit (first :: rest))
    (hknown : (blockHashes crypto full)[height]? = some blockHash) :
    first.header.previousBlockHash = blockHash := by
  obtain ⟨parent, hparent, rfl⟩ := getElem?_blockHashes.mp hknown
  have hfirst : full[height + 1]? = some first := by
    have hhead := List.prefix_iff_getElem?.mp hrun.isPrefix 0 (Nat.zero_lt_succ _)
    rwa [List.getElem?_drop] at hhead
  obtain ⟨hlt, rfl⟩ := List.getElem?_eq_some_iff.mp hparent
  obtain ⟨hnext, rfl⟩ := List.getElem?_eq_some_iff.mp hfirst
  exact List.isChain_iff_getElem.mp hholds.linked height hnext

theorem acceptHeadersWithLocator_of_mem {headers : List BlockHeader}
    {locator : List (Bytes 48)}
    (hlocated : ∀ first ∈ headers.head?, first.previousBlockHash ∈ locator)
    (network : Network) (sync : SyncState) :
    sync.acceptHeadersWithLocator crypto network headers locator =
      sync.acceptHeadersWithLocator crypto network headers [] := by
  have hchecked : (headers.head?.any fun first => !locator.isEmpty &&
      !locator.contains first.previousBlockHash) = false := by
    cases hhead : headers.head? with
    | none => rfl
    | some first => simp [hlocated first hhead]
  rw [SyncState.acceptHeadersWithLocator, SyncState.acceptHeadersWithLocator, hchecked]
  simp

/-- The first header of the answer to a locator builds on the highest block of the locator
that the two chains share. -/
def AnswersAt (crypto : Crypto) (full own : List Block) (heights : List Nat)
    (first : BlockHeader) : Prop :=
  ∃ height ∈ heights,
    (blockHashes crypto own)[height]? = some first.previousBlockHash ∧
      first.previousBlockHash ∈ blockHashes crypto full ∧
      ∀ higher ∈ heights, height < higher → ∀ blockHash,
        (blockHashes crypto own)[higher]? = some blockHash → blockHash ∉ blockHashes crypto full

theorem ServesAfter.answersAt (hholds : HoldsChain crypto full server)
    {locator : List (Bytes 48)} {heights : List Nat}
    (hlocator : IsLocator crypto own locator heights) {stopHash : Bytes 48} {limit : Nat}
    {headers : List BlockHeader}
    (hserves : ServesAfter crypto full locator stopHash limit headers) {first : BlockHeader}
    (hfirst : headers.head? = some first) :
    AnswersAt crypto full own heights first ∧ first.previousBlockHash ∈ locator := by
  cases hserves with
  | unknown _ => cases hfirst
  | @after before behind blockHash height run hsplit hunknown hknown hrun =>
      cases run with
      | nil => cases hfirst
      | cons block rest =>
          cases hfirst
          have hprevious := hrun.previousBlockHash_eq hholds hknown
          have hhashes := hlocator.hashes
          rw [hsplit] at hhashes
          obtain ⟨above, shared, below, hheights, habove, hshared⟩ := forall₂_split hhashes
          rw [hprevious]
          refine ⟨⟨shared, by rw [hheights]; simp, by rw [hprevious, hshared], ?_, ?_⟩,
            by rw [hsplit]; simp⟩
          · rw [hprevious]
            exact List.mem_of_getElem? hknown
          · intro higher hhigher hlt otherHash hother
            have hdescending := hlocator.descending
            rw [hheights] at hhigher hdescending
            have hhigher : higher ∈ above := by
              obtain ⟨-, hrest, -⟩ := List.pairwise_append.mp hdescending
              rcases List.mem_append.mp hhigher with habove | hrest'
              · exact habove
              · rcases List.mem_cons.mp hrest' with rfl | hbelow
                · exact absurd hlt (Nat.lt_irrefl _)
                · exact absurd hlt ((List.pairwise_cons.mp hrest).1 higher hbelow).not_gt
            obtain ⟨found, hfound, hhash⟩ := exists_of_mem_forall₂ habove hhigher
            rw [hhash] at hother
            cases hother
            exact hunknown _ hfound

section Upheld

variable {target : Option Nat} {pruneDepth reorgDepth : Option UInt64} {network : Network}

theorem Upholds.holdsChain
    (hupholds : Upholds crypto target pruneDepth reorgDepth network state db)
    (horderly : Orderly crypto network state.history) :
    HoldsChain crypto (genesisBlock crypto network :: canonicalChain [] state.history) state where
  toRecalls := hupholds.recalls
  genesis := by rw [hupholds.network_eq, List.head?_cons]
  length_le := (horderly.length_lt hupholds.recalls.numbered).le

theorem Upholds.indexes
    (hupholds : Upholds crypto target pruneDepth reorgDepth network state db)
    (hheaders : ∀ block ∈ genesisBlock crypto network :: canonicalChain [] state.history,
      ∀ record ∈ db.tables.blocks.lookup (block.header.blockHash crypto),
        record.header = block.header)
    (hfits : (genesisBlock crypto network :: canonicalChain [] state.history).length <
      maxMapSize) :
    Indexes crypto (genesisBlock crypto network :: canonicalChain [] state.history) db where
  heights := hupholds.lists.heights
  records block hblock := by
    obtain ⟨record, hrecord, -⟩ := hupholds.lists.records block hblock
    exact ⟨record, hrecord, hupholds.lists.keyed hrecord, hheaders block hblock record hrecord⟩
  fits := hfits

end Upheld

def firstCalls : List (UInt64 × Call) := [(exampleClock, .connectBlock firstBlock)]

def firstServer : Chainstate Database := storedRegnet.run regnetHost firstCalls

def newClient : Chainstate Database := fresh regnetHost .regnet

end Chainstate

end Atho
