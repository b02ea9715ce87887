import Atho.Core.BranchWork
import Atho.Library.ParentWalk
import Atho.Node.Node
import Atho.Node.SideBranchPool
import Atho.Storage.ForkChoice

/-! Which of the branches in the pool the node goes for, and when that is the heaviest chain. -/

namespace Atho

open ParentWalk

variable {σ : Type}

/-! What the node knows of its chain. -/

/-- The flag of an archived record is passed in. -/
def Chainstate.isCanonicalBlock (host : Host σ) (mainChain : σ → Bytes 48 → Bool)
    (state : Chainstate σ) (blockHash : Bytes 48) : Except StorageError Bool :=
  if (state.blockIndexByHash.lookup blockHash).isSome then .ok true
  else
    match state.storage with
    | none => .ok false
    | some storage => do
        match ← host.loadBlockRecordHeight storage blockHash with
        | none => .ok false
        | some height =>
            if !mainChain storage blockHash then .ok false
            else
              let canonical ← host.loadBlockHashByHeight storage height
              .ok (canonical = some blockHash)

def Chainstate.blockByHash (host : Host σ) (state : Chainstate σ) (blockHash : Bytes 48) :
    Except StorageError (Option Block) :=
  match state.blockIndexByHash.lookup blockHash with
  | some index => .ok state.blocks[index]?
  | none =>
      match state.storage with
      | none => .ok none
      | some storage => host.loadBlock storage blockHash

namespace Node

section

variable (host : Host σ) (mainChain : σ → Bytes 48 → Bool) (node : Node σ)

def isCanonicalBlock (blockHash : Bytes 48) : Bool :=
  match node.chainstate.isCanonicalBlock host mainChain blockHash with
  | .ok canonical => canonical
  | .error _ => false

def blockByHash (blockHash : Bytes 48) : Option Block :=
  match node.chainstate.blockByHash host blockHash with
  | .ok block => block
  | .error _ => none

def blockByHeight (height : UInt64) : Option Block :=
  match node.chainstate.blockByHeight host height with
  | .ok block => block
  | .error _ => none

/-- The canonical blocks above the one with the given hash, if they can all be read. -/
def currentBranch (previousHash : Bytes 48) : Option (List Block) := do
  let forkHeight ← node.chainstate.knownBlockHeight host previousHash
  let forkBlock ← node.blockByHeight host forkHeight
  if forkBlock.header.blockHash host.crypto ≠ previousHash then none
  else
    let first := (forkHeight.saturatingAdd 1).toNat
    (List.range (node.chainstate.height.toNat + 1 - first)).mapM fun offset =>
      node.blockByHeight host (UInt64.ofNat (first + offset))

def branchIsPreferredOverCurrent (branch : List Block) : Bool :=
  match branch.head? with
  | none => false
  | some first =>
      (node.currentBranch host first.header.previousBlockHash).any
        (branchIsPreferred host.crypto branch)

end

end Node

/-! Branches of the pool. -/

namespace SideBranchPool

def get (pool : SideBranchPool) (blockHash : Bytes 48) : Option Block :=
  pool.blocks[blockHash]?.map SideBranchBlock.block

/-- All blocks when each of them has a child. -/
def leafHashes (pool : SideBranchPool) : List (Bytes 48) :=
  let leaves := pool.blocks.keys.filter pool.isLeaf
  if leaves.isEmpty then pool.blocks.keys else leaves

section

variable (host : Host σ) (mainChain : σ → Bytes 48 → Bool) (node : Node σ) (pool : SideBranchPool)

/-- Every turn visits another block of the pool, so its size bounds their number. -/
def bufferedBranchFromTip (tipHash : Bytes 48) : Option (List Block) :=
  walkBack pool.get (fun block => block.header.previousBlockHash)
    (node.isCanonicalBlock host mainChain) pool.blocks.size [] tipHash []

def bestBufferedBranch : Option (List Block) :=
  pool.leafHashes.foldl (fun best tipHash =>
    match pool.bufferedBranchFromTip host mainChain node tipHash with
    | none => best
    | some candidate =>
        if !node.branchIsPreferredOverCurrent host candidate then best
        else
          match best with
          | none => some candidate
          | some current =>
              if branchIsPreferred host.crypto candidate current then some candidate
              else some current) none

end

end SideBranchPool

/-! Comparing branches. -/

theorem compareBranchWork_congr {crypto : Crypto} {left other right : List Block}
    (hheaders : left.map Block.header = other.map Block.header) :
    compareBranchWork crypto left right = compareBranchWork crypto other right := by
  have hwork : ∀ blocks : List Block, accumulatedChainWork blocks =
      ((blocks.map Block.header).map fun header => blockProof header.difficultyTargetOrBits).sum := by
    intro blocks
    rw [List.map_map]
    rfl
  have hlast : ∀ (blocks : List Block) {α : Type} (view : BlockHeader → α),
      (blocks.getLast?.map fun block => view block.header) =
        (blocks.map Block.header).getLast?.map view := by
    intro blocks α view
    rw [List.getLast?_map, Option.map_map]
    rfl
  unfold compareBranchWork
  dsimp only
  rw [hwork left, hlast left fun header => header.height,
    hlast left fun header => header.blockHash crypto, hheaders, ← hwork, ← hlast, ← hlast]

theorem isGT_of_work_lt {crypto : Crypto} {left right : List Block}
    (hlt : accumulatedChainWork right < accumulatedChainWork left) :
    (compareBranchWork crypto left right).isGT = true := by
  unfold compareBranchWork
  dsimp only
  rw [Nat.compare_eq_gt.mpr hlt]
  rfl

theorem work_le_of_isLE {crypto : Crypto} {left right : List Block}
    (hle : (compareBranchWork crypto left right).isLE = true) :
    accumulatedChainWork left ≤ accumulatedChainWork right := by
  by_contra hgreater
  have hgt := @isGT_of_work_lt crypto left right (not_le.mp hgreater)
  rw [Ordering.isGT_iff_eq_gt.mp hgt] at hle
  cases hle

theorem work_le_of_isGT {crypto : Crypto} {left right : List Block}
    (hgt : (compareBranchWork crypto left right).isGT = true) :
    accumulatedChainWork right ≤ accumulatedChainWork left := by
  apply @work_le_of_isLE crypto
  rw [Ordering.isGT_iff_eq_gt, Std.OrientedCmp.gt_iff_lt] at hgt
  exact Ordering.isLE_of_eq_lt hgt

theorem not_isGT_take {crypto : Crypto} {chain : List Block} {start count : Nat}
    (hnumbered : Numbered chain) (hlength : chain.length < 2 ^ 64) (hcount : 0 < count)
    (hle : start + count ≤ chain.length) :
    (compareBranchWork crypto ((chain.drop start).take count) (chain.drop start)).isGT = false := by
  rcases Nat.lt_or_eq_of_le hle with hless | hall
  · have hwork : accumulatedChainWork ((chain.drop start).take count) ≤
        accumulatedChainWork (chain.drop start) := by
      conv_rhs => rw [← List.take_append_drop count (chain.drop start)]
      rw [accumulatedChainWork_append]
      exact Nat.le_add_right _ _
    have hlast : (((chain.drop start).take count).getLast?.map fun block => block.header.height) =
        some chain[start + count - 1].header.height := by
      have hlength : ((chain.drop start).take count).length = count := by
        rw [List.length_take, List.length_drop]
        omega
      rw [List.getLast?_eq_getElem?, hlength, List.getElem?_take_of_lt (by omega),
        List.getElem?_drop, List.getElem?_eq_getElem (by omega)]
      simp [Nat.add_sub_assoc (Nat.succ_le_of_lt hcount)]
    have hend : ((chain.drop start).getLast?.map fun block => block.header.height) =
        some chain[chain.length - 1].header.height := by
      rw [List.getLast?_drop, if_neg (by omega), List.getLast?_eq_getElem?,
        List.getElem?_eq_getElem (by omega)]
      rfl
    have hheight : chain[start + count - 1].header.height <
        chain[chain.length - 1].header.height := by
      have hlow := hnumbered (start + count - 1) _ (List.getElem?_eq_getElem (by omega))
      have hhigh := hnumbered (chain.length - 1) _ (List.getElem?_eq_getElem (by omega))
      rw [UInt64.lt_iff_toNat_lt, hlow, hhigh]
      omega
    unfold compareBranchWork
    dsimp only
    rw [hlast, hend]
    rcases Nat.lt_or_eq_of_le hwork with hlt | heq
    · rw [Nat.compare_eq_lt.mpr hlt]
      rfl
    · have hcompare : compare (some chain[start + count - 1].header.height)
          (some chain[chain.length - 1].header.height) = .lt :=
        if_pos hheight
      rw [heq, hcompare, Nat.compare_eq_eq.mpr rfl]
      rfl
  · have hwhole : (chain.drop start).take count = chain.drop start :=
      List.take_of_length_le (by rw [List.length_drop]; omega)
    have hself : compareBranchWork crypto (chain.drop start) (chain.drop start) = .eq :=
      Std.ReflCmp.compare_self
    rw [hwhole, hself]
    rfl

theorem Node.branchIsPreferredOverCurrent_eq_true {host : Host σ} {node : Node σ}
    {branch : List Block} :
    node.branchIsPreferredOverCurrent host branch = true ↔
      ∃ first current, branch.head? = some first ∧
        node.currentBranch host first.header.previousBlockHash = some current ∧
        branchIsPreferred host.crypto branch current = true := by
  unfold branchIsPreferredOverCurrent
  cases branch.head? with
  | none => simp
  | some first => simp [Option.any_eq_true]

/-! The chain that the node serves. -/

theorem mapM_eq_some_iff {α β : Type} {read : α → Option β} {items : List α} {results : List β} :
    items.mapM read = some results ↔ items.map read = results.map some := by
  induction items generalizing results with
  | nil => cases results <;> simp
  | cons item items ih =>
      rw [List.mapM_cons, List.map_cons]
      simp only [Option.bind_eq_bind, Option.pure_def, Option.bind_eq_some_iff, ih,
        Option.some.injEq]
      constructor
      · rintro ⟨result, hresult, rest, hrest, rfl⟩
        rw [hresult, hrest, List.map_cons]
      · intro heq
        cases results with
        | nil => cases heq
        | cons result results =>
            rw [List.map_cons, List.cons.injEq] at heq
            exact ⟨result, heq.1, results, heq.2, rfl⟩

theorem eq_drop_of_mapM_range {α : Type} {read : Nat → Option α} {items results : List α}
    {first count : Nat} (hmapM : (List.range count).mapM read = some results)
    (hread : ∀ offset < count, ∀ result, read offset = some result →
      items[first + offset]? = some result)
    (hlength : items.length = first + count) : results = items.drop first := by
  rw [mapM_eq_some_iff] at hmapM
  have hcount := congrArg List.length hmapM
  rw [List.length_map, List.length_range, List.length_map] at hcount
  apply List.ext_getElem?
  intro offset
  rw [List.getElem?_drop]
  by_cases hoffset : offset < count
  · have hfound := congrArg (fun found => found[offset]?) hmapM
    simp only [List.getElem?_map, List.getElem?_range hoffset,
      List.getElem?_eq_getElem (hcount ▸ hoffset), Option.map_some, Option.some.injEq] at hfound
    rw [List.getElem?_eq_getElem (hcount ▸ hoffset), hread offset hoffset _ hfound]
  · rw [List.getElem?_eq_none (by omega), List.getElem?_eq_none (by omega)]

/-- What the node says about its chain is true of these blocks. It may have pruned some of them. -/
structure Node.Serves (host : Host σ) (mainChain : σ → Bytes 48 → Bool) (node : Node σ)
    (chain : List Block) : Prop where
  height : node.chainstate.height.toNat + 1 = chain.length
  length_lt : chain.length < 2 ^ 64
  byHeight : ∀ height block, node.blockByHeight host height = some block →
    chain[height.toNat]? = some block
  canonical : ∀ hash, node.isCanonicalBlock host mainChain hash = true →
    hash ∈ blockHashes host.crypto chain
  numbered : Numbered chain
  linked : chain.IsChain fun left right =>
    right.header.previousBlockHash = left.header.blockHash host.crypto
  nodup : (blockHashes host.crypto chain).Nodup

/-- The place of the block with the given hash. -/
def forkIndex (crypto : Crypto) (chain : List Block) (hash : Bytes 48) : Nat :=
  chain.findIdx fun block => block.header.blockHash crypto = hash

/-- The chain through the block with the given hash. -/
def canonicalThrough (crypto : Crypto) (chain : List Block) (hash : Bytes 48) : List Block :=
  chain.take (forkIndex crypto chain hash + 1)

theorem forkIndex_eq {crypto : Crypto} {chain : List Block} {index : Nat} {block : Block}
    (hnodup : (blockHashes crypto chain).Nodup)
    (hblock : chain[index]? = some block) :
    forkIndex crypto chain (block.header.blockHash crypto) = index := by
  obtain ⟨hlt, rfl⟩ := List.getElem?_eq_some_iff.mp hblock
  rw [forkIndex, List.findIdx_eq hlt]
  refine ⟨decide_eq_true rfl, fun other hother => decide_eq_false fun heq => ?_⟩
  refine List.nodup_iff_getElem?_ne_getElem?.mp hnodup other index hother
    (by rwa [blockHashes, List.length_map]) ?_
  rw [blockHashes, List.getElem?_map, List.getElem?_map, List.getElem?_eq_getElem hlt,
    List.getElem?_eq_getElem (hother.trans hlt), Option.map_some, Option.map_some, heq]

theorem Node.Serves.currentBranch_eq {host : Host σ} {mainChain : σ → Bytes 48 → Bool}
    {node : Node σ} {chain current : List Block} {previousHash : Bytes 48}
    (hserves : node.Serves host mainChain chain)
    (hcurrent : node.currentBranch host previousHash = some current) :
    current = chain.drop (forkIndex host.crypto chain previousHash + 1) := by
  simp only [Node.currentBranch, Option.bind_eq_bind, Option.bind_eq_some_iff] at hcurrent
  obtain ⟨forkHeight, -, forkBlock, hfork, hcurrent⟩ := hcurrent
  split at hcurrent
  · cases hcurrent
  · next hhash =>
      have hat := hserves.byHeight forkHeight forkBlock hfork
      rw [← not_not.mp hhash, forkIndex_eq hserves.nodup hat]
      have hlt := (List.getElem?_eq_some_iff.mp hat).1
      have hfirst : (forkHeight.saturatingAdd 1).toNat = forkHeight.toNat + 1 := by
        rw [UInt64.toNat_saturatingAdd]
        have hlength := hserves.length_lt
        have hone : (1 : UInt64).toNat = 1 := rfl
        omega
      rw [hfirst, hserves.height] at hcurrent
      refine eq_drop_of_mapM_range hcurrent (fun offset hoffset block hread => ?_) (by omega)
      have hfound := hserves.byHeight _ _ hread
      have hheight : (UInt64.ofNat (forkHeight.toNat + 1 + offset)).toNat =
          forkHeight.toNat + 1 + offset := by
        have hbound := hserves.length_lt
        exact UInt64.toNat_ofNat_of_lt (by rw [UInt64.size]; omega)
      rwa [hheight] at hfound

/-! Blocks of the pool under their hashes. -/

namespace SideBranchPool

/-- Every block is filed under its hash. -/
def Keyed (crypto : Crypto) (pool : SideBranchPool) : Prop :=
  ∀ (hash : Bytes 48) entry, pool.blocks[hash]? = some entry →
    entry.block.header.blockHash crypto = hash

variable {crypto : Crypto} {pool : SideBranchPool}

theorem Keyed.remove (hkeyed : pool.Keyed crypto) (hash : Bytes 48) :
    (pool.remove hash).2.Keyed crypto := by
  intro other entry hentry
  rw [getElem?_remove] at hentry
  split at hentry
  · cases hentry
  · exact hkeyed other entry hentry

theorem Removals.keyed {before after : SideBranchPool} (hremovals : Removals before after)
    (hkeyed : before.Keyed crypto) : after.Keyed crypto := by
  induction hremovals with
  | refl => exact hkeyed
  | tail _ hremove ih =>
      obtain ⟨hash, rfl⟩ := hremove
      exact ih.remove hash

theorem Keyed.insert (hkeyed : pool.Keyed crypto) (peer : String) (block : Block) :
    (pool.insert crypto peer block).Keyed crypto := by
  simp only [SideBranchPool.insert]
  split
  · next entry hentry =>
      intro hash found hfound
      simp only [Std.TreeMap.getElem?_insert, Std.LawfulEqOrd.compare_eq_iff_eq] at hfound
      split at hfound
      · next heq =>
          cases hfound
          rw [← heq]
          exact hkeyed _ entry hentry
      · exact hkeyed hash found hfound
  · next hnone =>
      refine (removals_enforceLimit _).keyed fun hash found hfound => ?_
      rcases (Std.TreeMap.getElem?_insert_eq_some hnone).mp hfound with ⟨rfl, rfl⟩ | hfound
      · rfl
      · exact hkeyed hash found hfound

theorem Keyed.run (hkeyed : pool.Keyed crypto) (calls : List Call) :
    (pool.run crypto calls).Keyed crypto := by
  induction calls generalizing pool with
  | nil => exact hkeyed
  | cons made calls ih =>
      apply ih
      rcases call_cases crypto pool made with ⟨peer, block, rfl⟩ | hremovals
      · exact hkeyed.insert peer block
      · exact hremovals.keyed hkeyed

theorem keyed_default : default.Keyed crypto := by
  intro hash entry hentry
  simp [default] at hentry

theorem get_eq_some {hash : Bytes 48} {block : Block} :
    pool.get hash = some block ↔
      ∃ entry, pool.blocks[hash]? = some entry ∧ entry.block = block :=
  Option.map_eq_some_iff

theorem mem_keys_of_get {hash : Bytes 48} {block : Block} (hblock : pool.get hash = some block) :
    hash ∈ pool.blocks.keys := by
  obtain ⟨entry, hentry, -⟩ := get_eq_some.mp hblock
  rw [Std.TreeMap.mem_keys, Std.TreeMap.mem_iff_isSome_getElem?, hentry]
  rfl

theorem Indexed.mem_leafHashes (hindexed : pool.Indexed) {hash : Bytes 48} {block : Block}
    (hblock : pool.get hash = some block)
    (hlast : ∀ child other, pool.get child = some other → other.header.previousBlockHash ≠ hash) :
    hash ∈ pool.leafHashes := by
  have hleaf : pool.isLeaf hash = true := by
    unfold isLeaf
    split
    · rfl
    · next children hchildren =>
        by_contra hnonempty
        obtain ⟨child, hchild⟩ := Std.TreeSet.isEmpty_eq_false_iff_exists_mem.mp
          (Bool.eq_false_of_not_eq_true hnonempty)
        obtain ⟨entry, hentry, hparent⟩ :=
          (hindexed.children hash child).mp ⟨children, hchildren, hchild⟩
        exact hlast child entry.block (get_eq_some.mpr ⟨entry, hentry, rfl⟩) hparent
  have hmem : hash ∈ pool.blocks.keys.filter pool.isLeaf :=
    List.mem_filter.mpr ⟨mem_keys_of_get hblock, hleaf⟩
  have hsome : (pool.blocks.keys.filter pool.isLeaf).isEmpty = false :=
    List.isEmpty_eq_false_iff.mpr (List.ne_nil_of_mem hmem)
  simp only [leafHashes, hsome]
  exact hmem

section

variable {host : Host σ} {mainChain : σ → Bytes 48 → Bool} {node : Node σ} {chain : List Block}

/-- The blocks from one on a canonical block to the tip, all of them in the pool. -/
abbrev Buffered (host : Host σ) (mainChain : σ → Bytes 48 → Bool) (node : Node σ)
    (pool : SideBranchPool) : Bytes 48 → List Block → Prop :=
  PathTo pool.get (fun block => block.header.previousBlockHash)
    (node.isCanonicalBlock host mainChain)

theorem bufferedBranchFromTip_eq_some {tipHash : Bytes 48} {branch : List Block} :
    pool.bufferedBranchFromTip host mainChain node tipHash = some branch ↔
      Buffered host mainChain node pool tipHash branch :=
  walkBack_eq_some_iff (fun _ _ => mem_keys_of_get) Std.TreeMap.length_keys.le

/-- The branches that compete. -/
def candidates (host : Host σ) (mainChain : σ → Bytes 48 → Bool) (node : Node σ)
    (pool : SideBranchPool) : List (List Block) :=
  (pool.leafHashes.filterMap (pool.bufferedBranchFromTip host mainChain node)).filter
    (node.branchIsPreferredOverCurrent host)

theorem bestBufferedBranch_eq :
    pool.bestBufferedBranch host mainChain node =
      BestOf.bestOf (compareBranchWork host.crypto) (candidates host mainChain node pool) := by
  unfold bestBufferedBranch candidates BestOf.bestOf
  generalize pool.leafHashes = hashes
  generalize (none : Option (List Block)) = best
  induction hashes generalizing best with
  | nil => rfl
  | cons hash hashes ih =>
      rw [List.foldl_cons, ih]
      cases hbranch : pool.bufferedBranchFromTip host mainChain node hash with
      | none => rw [List.filterMap_cons_none hbranch]
      | some branch =>
          rw [List.filterMap_cons_some hbranch]
          cases hpreferred : node.branchIsPreferredOverCurrent host branch with
          | false =>
              rw [List.filter_cons_of_neg (by rw [hpreferred]; exact Bool.false_ne_true)]
              simp only [hpreferred, Bool.not_false, if_true]
          | true =>
              rw [List.filter_cons_of_pos hpreferred, List.foldl_cons]
              simp only [hpreferred, Bool.not_true, Bool.false_eq_true, if_false]
              cases best <;> rfl

theorem mem_candidates {branch : List Block} :
    branch ∈ candidates host mainChain node pool ↔
      (∃ tip ∈ pool.leafHashes, Buffered host mainChain node pool tip branch) ∧
        node.branchIsPreferredOverCurrent host branch = true := by
  simp only [candidates, List.mem_filter, List.mem_filterMap, bufferedBranchFromTip_eq_some]

/-- SHA3 keeps the blocks at hand apart: a block of the pool with the hash of a canonical one has its
header, and nothing has the hash that genesis names as its parent. -/
structure KeptApart (crypto : Crypto) (chain : List Block) (pool : SideBranchPool) : Prop where
  header : ∀ {hash pooled block}, pool.get hash = some pooled → block ∈ chain →
    block.header.blockHash crypto = hash → pooled.header = block.header
  root : ∀ {first}, chain.head? = some first →
    pool.get first.header.previousBlockHash = none ∧
      first.header.previousBlockHash ∉ blockHashes crypto chain

theorem KeptApart.exists_parent (happart : KeptApart host.crypto chain pool)
    (hserves : node.Serves host mainChain chain) {index : Nat} {block pooled : Block}
    (hblock : chain[index]? = some block)
    (hpooled : pool.get (block.header.blockHash host.crypto) = some pooled)
    (hparent : pool.get pooled.header.previousBlockHash ≠ none ∨
      pooled.header.previousBlockHash ∈ blockHashes host.crypto chain) :
    ∃ before parent, index = before + 1 ∧ chain[before]? = some parent ∧
      parent.header.blockHash host.crypto = pooled.header.previousBlockHash := by
  have hheader := happart.header hpooled (List.mem_of_getElem? hblock) rfl
  rw [hheader] at hparent ⊢
  cases index with
  | zero =>
      have hfirst : chain.head? = some block := by rw [List.head?_eq_getElem?, hblock]
      obtain ⟨hunknown, hforeign⟩ := happart.root hfirst
      rcases hparent with hknown | hcanonical
      · exact absurd hunknown hknown
      · exact absurd hcanonical hforeign
  | succ before =>
      obtain ⟨hlt, rfl⟩ := List.getElem?_eq_some_iff.mp hblock
      refine ⟨before, _, rfl, List.getElem?_eq_getElem (by omega), ?_⟩
      exact (List.isChain_iff_getElem.mp hserves.linked before hlt).symm

theorem Buffered.of_canonical {tip : Bytes 48} {branch : List Block}
    (hbuffered : Buffered host mainChain node pool tip branch)
    (hserves : node.Serves host mainChain chain) (happart : KeptApart host.crypto chain pool)
    {index : Nat} {block : Block} (hblock : chain[index]? = some block)
    (htip : block.header.blockHash host.crypto = tip) :
    ∃ start first, branch.head? = some first ∧ start < index + 1 ∧
      forkIndex host.crypto chain first.header.previousBlockHash + 1 = start ∧
      branch.map Block.header = ((chain.drop start).take (index + 1 - start)).map Block.header := by
  induction hbuffered generalizing index block with
  | @root tip pooled hpooled hcanonical =>
      subst htip
      obtain ⟨before, parent, rfl, hparent, hhash⟩ := happart.exists_parent hserves hblock hpooled
        (.inr (hserves.canonical _ hcanonical))
      refine ⟨before + 1, pooled, rfl, Nat.lt_succ_self _, ?_, ?_⟩
      · rw [← hhash, forkIndex_eq hserves.nodup hparent]
      · obtain ⟨hlt, hget⟩ := List.getElem?_eq_some_iff.mp hblock
        have hheader := happart.header hpooled (List.mem_of_getElem? hblock) rfl
        rw [List.drop_eq_getElem_cons hlt, hget, Nat.add_sub_cancel_left]
        simp [hheader]
  | @step tip pooled path hpooled hfree hrest ih =>
      subst htip
      obtain ⟨found, hfound, -⟩ := hrest.exists_lookup
      obtain ⟨before, parent, rfl, hparent, hhash⟩ := happart.exists_parent hserves hblock hpooled
        (.inl (by rw [hfound]; exact Option.some_ne_none _))
      obtain ⟨start, first, hfirst, hstart, hfork, hpath⟩ := ih hparent hhash
      refine ⟨start, first, ?_, by omega, hfork, ?_⟩
      · rw [List.head?_append_of_ne_nil _ hrest.ne_nil, hfirst]
      · have hheader := happart.header hpooled (List.mem_of_getElem? hblock) rfl
        obtain ⟨hlt, hget⟩ := List.getElem?_eq_some_iff.mp hblock
        rw [List.map_append, hpath, List.map_singleton, hheader]
        have hcount : before + 1 + 1 - start = before + 1 - start + 1 := by omega
        rw [hcount, List.take_add_one, List.getElem?_drop]
        have hat : start + (before + 1 - start) = before + 1 := by omega
        rw [hat, hblock]
        simp

theorem Buffered.not_preferred_of_canonical {tip : Bytes 48} {branch : List Block}
    (hbuffered : Buffered host mainChain node pool tip branch)
    (hserves : node.Serves host mainChain chain) (happart : KeptApart host.crypto chain pool)
    (htip : tip ∈ blockHashes host.crypto chain) :
    node.branchIsPreferredOverCurrent host branch = false := by
  obtain ⟨block, hmem, hhash⟩ := List.mem_map.mp htip
  obtain ⟨index, hblock⟩ := List.mem_iff_getElem?.mp hmem
  obtain ⟨start, first, hfirst, hstart, hfork, hheaders⟩ :=
    hbuffered.of_canonical hserves happart hblock hhash
  rw [← Bool.not_eq_true]
  intro hpreferred
  obtain ⟨other, current, hother, hcurrent, hgreater⟩ :=
    Node.branchIsPreferredOverCurrent_eq_true.mp hpreferred
  obtain rfl := Option.some.inj (hfirst.symm.trans hother)
  rw [hserves.currentBranch_eq hcurrent, hfork, branchIsPreferred,
    compareBranchWork_congr hheaders, not_isGT_take hserves.numbered hserves.length_lt] at hgreater
  · cases hgreater
  · omega
  · have hlt := (List.getElem?_eq_some_iff.mp hblock).1
    omega

theorem preferred_append {branch : List Block} {block : Block}
    (hpreferred : node.branchIsPreferredOverCurrent host branch = true)
    (htarget : block.header.difficultyTargetOrBits.toNat ≠ 0) :
    node.branchIsPreferredOverCurrent host (branch ++ [block]) = true := by
  obtain ⟨first, current, hfirst, hcurrent, hgreater⟩ :=
    Node.branchIsPreferredOverCurrent_eq_true.mp hpreferred
  refine Node.branchIsPreferredOverCurrent_eq_true.mpr ⟨first, current, ?_, hcurrent, ?_⟩
  · rw [List.head?_append, hfirst]
    rfl
  · apply isGT_of_work_lt
    have hwork := work_le_of_isGT hgreater
    have hproof : 0 < blockProof block.header.difficultyTargetOrBits := by
      rw [blockProof, if_neg htarget]
      exact Nat.succ_pos _
    rw [accumulatedChainWork_append]
    have hlast : accumulatedChainWork [block] = blockProof block.header.difficultyTargetOrBits := by
      simp [accumulatedChainWork]
    omega

/-- Whatever is on top of a preferred branch, some leaf has a preferred branch that goes on from
it. -/
theorem Buffered.exists_candidate {tip : Bytes 48} {branch : List Block}
    (hbuffered : Buffered host mainChain node pool tip branch)
    (hpreferred : node.branchIsPreferredOverCurrent host branch = true)
    (hserves : node.Serves host mainChain chain) (happart : KeptApart host.crypto chain pool)
    (hindexed : pool.Indexed)
    (hweighty : ∀ hash block, pool.get hash = some block →
      block.header.difficultyTargetOrBits.toNat ≠ 0) :
    ∃ rest, branch ++ rest ∈ candidates host mainChain node pool := by
  have hgrow : ∀ key path child block, Buffered host mainChain node pool key path →
      node.branchIsPreferredOverCurrent host path = true → pool.get child = some block →
      block.header.previousBlockHash = key →
      node.isCanonicalBlock host mainChain key = false ∧
        node.branchIsPreferredOverCurrent host (path ++ [block]) = true := by
    intro key path child block hpath hholds hblock hparent
    refine ⟨?_, preferred_append hholds (hweighty child block hblock)⟩
    rw [← Bool.not_eq_true]
    intro hcanonical
    rw [Buffered.not_preferred_of_canonical hpath hserves happart
      (hserves.canonical key hcanonical)] at hholds
    cases hholds
  obtain ⟨leaf, rest, hleaf, hrest, hlast⟩ :=
    hbuffered.exists_tip (fun _ _ => mem_keys_of_get) hgrow hpreferred
  obtain ⟨block, hblock, -⟩ := hleaf.exists_lookup
  exact ⟨rest, mem_candidates.mpr ⟨⟨leaf, hindexed.mem_leafHashes hblock hlast, hleaf⟩, hrest⟩⟩

end

end SideBranchPool

/-! The heaviest chain. -/

/-- The place of the canonical block that a branch starts from. -/
def forkPlace (crypto : Crypto) (chain branch : List Block) : Nat :=
  (branch.head?.map fun first => forkIndex crypto chain first.header.previousBlockHash).getD 0

/-- A branch with the canonical chain below it. -/
def wholeChain (crypto : Crypto) (chain branch : List Block) : List Block :=
  chain.take (forkPlace crypto chain branch + 1) ++ branch

/-- The canonical blocks above the fork point can be read. -/
def Node.Comparable (host : Host σ) (node : Node σ) (branch : List Block) : Prop :=
  ∃ first current, branch.head? = some first ∧
    node.currentBranch host first.header.previousBlockHash = some current

section Heaviest

open SideBranchPool

variable {host : Host σ} {mainChain : σ → Bytes 48 → Bool} {node : Node σ}
  {chain branch best : List Block}

theorem work_wholeChain (crypto : Crypto) :
    accumulatedChainWork (wholeChain crypto chain branch) =
      accumulatedChainWork (chain.take (forkPlace crypto chain branch + 1)) +
        accumulatedChainWork branch :=
  accumulatedChainWork_append _ _

theorem work_take_add_drop (count : Nat) :
    accumulatedChainWork (chain.take count) + accumulatedChainWork (chain.drop count) =
      accumulatedChainWork chain := by
  rw [← accumulatedChainWork_append, List.take_append_drop]

theorem work_take_mono {low high : Nat} (hle : low ≤ high) :
    accumulatedChainWork (chain.take low) +
        accumulatedChainWork ((chain.take high).drop low) =
      accumulatedChainWork (chain.take high) := by
  have hsplit := @work_take_add_drop (chain.take high) low
  rwa [List.take_take, min_eq_left hle] at hsplit

theorem Node.Serves.work_le_of_not_preferred (hserves : node.Serves host mainChain chain)
    (hcomparable : node.Comparable host branch)
    (hrejected : node.branchIsPreferredOverCurrent host branch = false) :
    accumulatedChainWork (wholeChain host.crypto chain branch) ≤ accumulatedChainWork chain := by
  obtain ⟨first, current, hfirst, hcurrent⟩ := hcomparable
  have hle : accumulatedChainWork branch ≤ accumulatedChainWork current := by
    by_contra hgreater
    rw [← Bool.not_eq_true] at hrejected
    exact hrejected (branchIsPreferredOverCurrent_eq_true.mpr
      ⟨first, current, hfirst, hcurrent, isGT_of_work_lt (not_le.mp hgreater)⟩)
  rw [hserves.currentBranch_eq hcurrent] at hle
  rw [work_wholeChain, forkPlace, hfirst, Option.map_some, Option.getD_some,
    ← @work_take_add_drop chain (forkIndex host.crypto chain first.header.previousBlockHash + 1)]
  exact Nat.add_le_add_left hle _

theorem Node.Serves.work_le_of_preferred (hserves : node.Serves host mainChain chain)
    (hpreferred : node.branchIsPreferredOverCurrent host branch = true) :
    accumulatedChainWork chain ≤ accumulatedChainWork (wholeChain host.crypto chain branch) := by
  obtain ⟨first, current, hfirst, hcurrent, hgreater⟩ :=
    branchIsPreferredOverCurrent_eq_true.mp hpreferred
  have hle := work_le_of_isGT hgreater
  rw [hserves.currentBranch_eq hcurrent] at hle
  rw [work_wholeChain, forkPlace, hfirst, Option.map_some, Option.getD_some,
    ← @work_take_add_drop chain (forkIndex host.crypto chain first.header.previousBlockHash + 1)]
  exact Nat.add_le_add_left hle _

/-- The branch that is chosen is at least as heavy as each of those that start no later, and as those
that start later as long as it outweighs them and the canonical blocks in between. -/
theorem work_le_of_best {pool : SideBranchPool} (hserves : node.Serves host mainChain chain)
    (happart : KeptApart host.crypto chain pool) (hindexed : pool.Indexed)
    (hweighty : ∀ hash block, pool.get hash = some block →
      block.header.difficultyTargetOrBits.toNat ≠ 0)
    (hbest : pool.bestBufferedBranch host mainChain node = some best) {tip : Bytes 48}
    (hbuffered : Buffered host mainChain node pool tip branch)
    (hcomparable : node.Comparable host branch)
    (hlater : forkPlace host.crypto chain best < forkPlace host.crypto chain branch →
      accumulatedChainWork ((chain.take (forkPlace host.crypto chain branch + 1)).drop
          (forkPlace host.crypto chain best + 1)) + accumulatedChainWork branch ≤
        accumulatedChainWork best) :
    accumulatedChainWork (wholeChain host.crypto chain branch) ≤
      accumulatedChainWork (wholeChain host.crypto chain best) := by
  rw [bestBufferedBranch_eq] at hbest
  obtain ⟨hmem, hmax⟩ := BestOf.bestOf_spec hbest
  have hheavy := hserves.work_le_of_preferred (mem_candidates.mp hmem).2
  cases hpreferred : node.branchIsPreferredOverCurrent host branch with
  | false => exact (hserves.work_le_of_not_preferred hcomparable hpreferred).trans hheavy
  | true =>
      obtain ⟨rest, hcandidate⟩ :=
        hbuffered.exists_candidate hpreferred hserves happart hindexed hweighty
      have hsuffix := work_le_of_isLE (hmax _ hcandidate)
      rw [accumulatedChainWork_append] at hsuffix
      rw [work_wholeChain, work_wholeChain]
      by_cases hstart : forkPlace host.crypto chain best < forkPlace host.crypto chain branch
      · have hbetween := hlater hstart
        have hsplit := @work_take_mono chain (forkPlace host.crypto chain best + 1)
          (forkPlace host.crypto chain branch + 1) (by omega)
        omega
      · have hsplit := @work_take_mono chain (forkPlace host.crypto chain branch + 1)
          (forkPlace host.crypto chain best + 1) (by omega)
        omega

end Heaviest

theorem Node.serves_of_unpruned {host : Host σ} {mainChain : σ → Bytes 48 → Bool} {node : Node σ}
    {network : Network} {blocks : List Block}
    (hunpruned : Unpruned host.crypto network blocks node.chainstate.toChainMemory)
    (hstorage : node.chainstate.storage = none) (hlength : blocks.length + 1 < 2 ^ 64)
    (hnodup : (blockHashes host.crypto (genesisBlock host.crypto network :: blocks)).Nodup) :
    node.Serves host mainChain (genesisBlock host.crypto network :: blocks) where
  height := by
    rw [hunpruned.height_toNat, List.length_cons]
    omega
  length_lt := hlength
  byHeight height block hblock := by
    unfold Node.blockByHeight Chainstate.blockByHeight at hblock
    rw [hstorage] at hblock
    cases hindex : node.chainstate.memoryBlockIndexForHeight height with
    | none =>
        rw [hindex] at hblock
        cases hblock
    | some index =>
        rw [hindex] at hblock
        have hplace : height.toNat = index := by
          have hfirst : ¬height < (genesisBlock host.crypto network).header.height :=
            UInt64.not_lt.mpr (UInt64.le_iff_toNat_le.mpr (Nat.zero_le _))
          simp only [ChainMemory.memoryBlockIndexForHeight, hunpruned.resident, List.head?_cons,
            Option.bind_eq_bind, Option.bind_some, if_neg hfirst] at hindex
          obtain ⟨found, -, hfound⟩ := Option.bind_eq_some_iff.mp hindex
          split at hfound
          · exact Option.some.inj hfound
          · cases hfound
        rw [hplace, ← hunpruned.resident]
        exact hblock
  canonical hash hcanonical := by
    by_contra hforeign
    have hlookup : node.chainstate.blockIndexByHash.lookup hash = none := by
      rw [hunpruned.index, hunpruned.resident]
      exact lookup_buildBlockIndexByHash_eq_none hforeign
    unfold Node.isCanonicalBlock Chainstate.isCanonicalBlock at hcanonical
    rw [hlookup, hstorage] at hcanonical
    cases hcanonical
  numbered := hunpruned.numbered
  linked := hunpruned.linked
  nodup := hnodup

/-! A later branch loses to a longer one that starts earlier. -/

open Chainstate

/-- Two blocks on the second one of the canonical chain. -/
def lateBranch : List Block :=
  [forkBlock 3 126716 1773360790 4 (.ofNat 48
      0xd17e6f341331c5751d3dd7c7922e91b1620de78b522520eebafd7596020db635ec9b8b4b858b9604143750740ae3),
    forkBlock 4 45818 1773360890 5 (.ofNat 48
      0x7f85223e3150bea2832d761ac9210b18b8b6ec3702f183a11453b6c7be6598487b234f68c57466598f6288fa5dc4)]

/-- Three blocks on genesis. -/
def earlyBranch : List Block :=
  shortFork ++
    [forkBlock 2 190169 1773360690 6 (.ofNat 48
      0xd17d05e3e11027baede4ad688de2b51d285609b514ac5477abaa559bc3da4793f18963d7e1abef501888a9dc8f52),
    forkBlock 3 4415 1773360790 7 (.ofNat 48
      0x9a594d23217d0951179aa6164be0556a06cca1e98c1a1c6924f50a58842964414f05010ac0dae5b62187674f4b5e)]

def forkedNode : Node Unit :=
  ⟨((fresh exampleHost .prunetest).connectBlocks exampleHost forkClock longFork).2.2,
    .withLimits ⟨10, 1000000⟩⟩

def forkedPool : SideBranchPool :=
  SideBranchPool.default.run .hashing
    ((lateBranch ++ earlyBranch).map (SideBranchPool.Call.insert "peer"))

/-- A fresh node, and a pool with the two blocks of the longer fork. -/
def freshNode : Node Unit :=
  ⟨fresh exampleHost .prunetest, .withLimits ⟨10, 1000000⟩⟩

def longForkPool : SideBranchPool :=
  SideBranchPool.default.run exampleHost.crypto
    (longFork.map (SideBranchPool.Call.insert "peer"))

theorem longForkPool_blocks :
    (longForkPool.blocks.toList.map fun entry => (entry.1, entry.2.block)) =
        longFork.map (fun block => (block.header.blockHash .hashing, block)) ∧
      genesisHash .hashing .prunetest ∉ blockHashes .hashing longFork ∧
      (∀ block ∈ longFork, block.header.difficultyTargetOrBits.toNat ≠ 0) ∧
      freshNode.currentBranch exampleHost (genesisHash .hashing .prunetest) = some [] ∧
      longForkPool.bestBufferedBranch exampleHost (fun _ _ => false) freshNode = some longFork ∧
      (genesisBlock .hashing .prunetest).header.previousBlockHash ∉
        genesisHash .hashing .prunetest :: blockHashes .hashing longFork := by
  decide +kernel

theorem mem_longFork_of_get {hash : Bytes 48} {block : Block}
    (hblock : longForkPool.get hash = some block) :
    block ∈ longFork ∧ block.header.blockHash .hashing = hash := by
  obtain ⟨entry, hentry, rfl⟩ := SideBranchPool.get_eq_some.mp hblock
  have hmem := List.mem_map_of_mem (f := fun entry => (entry.1, entry.2.block))
    (Std.TreeMap.mem_toList_iff_getElem?_eq_some.mpr hentry)
  rw [longForkPool_blocks.1] at hmem
  obtain ⟨block, hlong, heq⟩ := List.mem_map.mp hmem
  obtain ⟨hhash, hsame⟩ := Prod.mk.inj heq
  rw [← hsame]
  exact ⟨hlong, hhash⟩

end Atho
