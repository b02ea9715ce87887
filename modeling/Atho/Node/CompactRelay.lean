import Atho.Node.Mempool
import Atho.P2p.Protocol
import Atho.Storage.Authorization
import Atho.Storage.WitnessRefs

/-! Relay of blocks as short identifiers, and how a receiver rebuilds them. -/

namespace Atho

/-! The compact form of a block. -/

def compactShortId (crypto : Crypto) (transactionIdentity : Bytes 48) : UInt64 :=
  let digest := crypto.sha3_256 (ascii "ATHO_COMPACT_SHORTID_V1" ++ transactionIdentity.toList)
  UInt64.ofNat (leValue (digest.toList.take 8))

def Transaction.compactShortId (crypto : Crypto) (tx : Transaction) : UInt64 :=
  Atho.compactShortId crypto (tx.witnessCommitmentHash crypto)

def compactBlockFromBlock (crypto : Crypto) (block : RelayBlock) : CompactBlockMessage where
  header := block.header
  txCount := block.transactions.length
  shortIds := (block.transactions.zipIdx.filter fun indexed => indexed.2 ≠ 0).map fun indexed =>
    indexed.1.compactShortId crypto
  prefilledTransactions :=
    match block.transactions.head? with
    | some transaction => [⟨0, transaction⟩]
    | none => []
  feesTotalAtoms := block.feesTotalAtoms
  feesMinerAtoms := block.feesMinerAtoms

inductive CompactBlockReconstruction where
  | complete (block : RelayBlock)
  | missing (blockHash : Bytes 48) (indexes : List UInt32)
  deriving DecidableEq

/-! Rebuilding. -/

def placePrefilled : (slots : List (Option Transaction)) → List PrefilledTransaction →
    Except ProtocolError (List (Option Transaction))
  | slots, [] => .ok slots
  | slots, prefilled :: rest => do
      let index := prefilled.index.toNat
      rejectWhen (slots.length ≤ index ∨ slots[index]?.join.isSome) .invalidCompactBlock
      placePrefilled (slots.set index (some prefilled.transaction)) rest

def nonPrefilledIndexes (slots : List (Option Transaction)) : List Nat :=
  slots.zipIdx.filterMap fun indexed => if indexed.1.isNone then some indexed.2 else none

/-- The slots of a block while they are filled, and the indexes of those that cannot be. -/
structure SlotFill where
  slots : List (Option Transaction)
  missing : List UInt32

section

variable (lookupShortId : UInt64 → Option Transaction)
  (overrides : Std.TreeMap UInt32 Transaction)

/-- What fills a slot: the transaction a peer was asked for before one with the short
identifier. -/
def slotTransaction (index : Nat) (shortId : UInt64) : Option Transaction :=
  overrides[UInt32.ofNat index]?.or (lookupShortId shortId)

def fillSlot (fill : SlotFill) (index : Nat) (shortId : UInt64) : SlotFill :=
  match slotTransaction lookupShortId overrides index shortId with
  | some transaction => { fill with slots := fill.slots.set index (some transaction) }
  | none => { fill with missing := fill.missing ++ [UInt32.ofNat index] }

def reconstructCompactBlock (crypto : Crypto) (message : CompactBlockMessage) :
    Except ProtocolError CompactBlockReconstruction := do
  validateCompactBlockMessage message
  let slots ← placePrefilled (List.replicate message.txCount none)
    message.prefilledTransactions
  let indexes := nonPrefilledIndexes slots
  rejectWhen (indexes.length ≠ message.shortIds.length) .invalidCompactBlock
  let fill := (indexes.zip message.shortIds).foldl
    (fun fill request => fillSlot lookupShortId overrides fill request.1 request.2) ⟨slots, []⟩
  if fill.missing ≠ [] then
    pure (.missing (message.header.blockHash crypto) fill.missing)
  else
    let transactions ← okOr (fill.slots.mapM id) ProtocolError.invalidCompactBlock
    pure (.complete ⟨⟨message.header, transactions⟩, message.feesTotalAtoms,
      message.feesMinerAtoms⟩)

end

/-! The node's side. -/

def Mempool.transactions (pool : Mempool) : List Transaction :=
  pool.entriesInOrder.map MempoolEntry.transaction

def mempoolByShortId (crypto : Crypto) (transactions : List Transaction) :
    Std.TreeMap UInt64 Transaction :=
  (transactions.map fun tx => (tx.compactShortId crypto, tx)).foldl
    (fun table pair => table.insert pair.1 pair.2) ∅

def finalizeCompactBlockWitnessRefs (crypto : Crypto) (block : RelayBlock) : RelayBlock :=
  { block with
    transactions := block.transactions.map fun tx =>
      finalizeWitnessCommitRefs crypto tx block.header.witnessRoot }

/-- What `handle_compact_block` and `handle_blocktxn` make of a message: the block they
process, or the indexes they ask the sender for. -/
def rebuildCompactBlock (crypto : Crypto) (pool : Mempool) (message : CompactBlockMessage)
    (overrides : Std.TreeMap UInt32 Transaction) :
    Except ProtocolError CompactBlockReconstruction := do
  let known := mempoolByShortId crypto pool.transactions
  match ← reconstructCompactBlock (known[·]?) overrides crypto message with
  | .complete block => pure (.complete (finalizeCompactBlockWitnessRefs crypto block))
  | .missing blockHash indexes => pure (.missing blockHash indexes)

/-- The answer to a request for transactions of a block. -/
def serveGetblocktxn (block : Block) (request : GetBlockTxnMessage) : BlockTxnMessage :=
  let served := request.indexes.filterMap fun index =>
    block.transactions[index.toNat]?.map fun transaction => (index, transaction)
  ⟨request.blockHash, served.map Prod.fst, served.map Prod.snd⟩

def addOverrides (overrides : Std.TreeMap UInt32 Transaction) (response : BlockTxnMessage) :
    Except ProtocolError (Std.TreeMap UInt32 Transaction) := do
  rejectWhen (response.indexes.length ≠ response.transactions.length) .invalidCompactBlock
  pure ((response.indexes.zip response.transactions).foldl
    (fun table pair => table.insert pair.1 pair.2) overrides)

/-! Filling the slots. -/

theorem nonPrefilledIndexes_replicate (tx : Transaction) (count : Nat) :
    nonPrefilledIndexes (some tx :: List.replicate count none) = List.range' 1 count := by
  have hempty : ∀ start, ((List.replicate count (none : Option Transaction)).zipIdx start).filterMap
      (fun indexed => if indexed.1.isNone then some indexed.2 else none) =
        List.range' start count := by
    induction count with
    | zero => simp
    | succ count ih =>
        intro start
        rw [List.replicate_succ, List.zipIdx_cons, List.range'_succ, ← ih]
        rfl
  exact hempty 1

section

variable (crypto : Crypto) (lookupShortId : UInt64 → Option Transaction)
  (overrides : Std.TreeMap UInt32 Transaction)

/-- The transaction that fills the position of another one. -/
def filling (request : Transaction × Nat) : Option Transaction :=
  slotTransaction lookupShortId overrides request.2 (request.1.compactShortId crypto)

/-- The positions that stay empty. -/
def unfilled (requests : List (Transaction × Nat)) : List UInt32 :=
  (requests.filter fun request =>
    (filling crypto lookupShortId overrides request).isNone).map fun request =>
      UInt32.ofNat request.2

variable {crypto lookupShortId overrides}

theorem foldl_fillSlot {transactions : List Transaction} {done : List (Option Transaction)}
    {missing : List UInt32} :
    (transactions.zipIdx done.length).foldl (fun fill request =>
        fillSlot lookupShortId overrides fill request.2 (request.1.compactShortId crypto))
      ⟨done ++ List.replicate transactions.length none, missing⟩ =
    ⟨done ++ (transactions.zipIdx done.length).map (filling crypto lookupShortId overrides),
      missing ++ unfilled crypto lookupShortId overrides (transactions.zipIdx done.length)⟩ := by
  induction transactions generalizing done missing with
  | nil => simp [unfilled]
  | cons tx rest ih =>
      have hstep : fillSlot lookupShortId overrides
          ⟨done ++ List.replicate (tx :: rest).length none, missing⟩ done.length
            (tx.compactShortId crypto) =
        ⟨(done ++ [filling crypto lookupShortId overrides (tx, done.length)]) ++
            List.replicate rest.length none,
          missing ++ unfilled crypto lookupShortId overrides [(tx, done.length)]⟩ := by
        cases hslot : slotTransaction lookupShortId overrides done.length
            (tx.compactShortId crypto) with
        | some transaction => simp [fillSlot, unfilled, filling, hslot, List.replicate_succ]
        | none => simp [fillSlot, unfilled, filling, hslot, List.replicate_succ]
      have hlength : done.length + 1 =
          (done ++ [filling crypto lookupShortId overrides (tx, done.length)]).length := by simp
      rw [List.zipIdx_cons, List.foldl_cons, hstep, hlength, ih]
      simp only [List.append_assoc, List.singleton_append, unfilled, ← List.map_append,
        ← List.filter_append, List.map_cons]

end

/-! The compact form of a block with a coinbase. -/

/-- The transactions of a block after the first, with their positions. -/
def Block.requests (block : Block) : List (Transaction × Nat) :=
  block.transactions.tail.zipIdx 1

section

variable {crypto : Crypto} {block : RelayBlock} {coinbase : Transaction}
  (hhead : block.transactions.head? = some coinbase)
include hhead

theorem length_transactions : block.transactions.length = block.requests.length + 1 := by
  obtain ⟨rest, htransactions⟩ := List.head?_eq_some_iff.mp hhead
  simp [Block.requests, htransactions]

theorem shortIds_compactBlockFromBlock : (compactBlockFromBlock crypto block).shortIds =
    block.requests.map fun request => request.1.compactShortId crypto := by
  obtain ⟨rest, htransactions⟩ := List.head?_eq_some_iff.mp hhead
  have hlater : ((rest.zipIdx 1).filter fun indexed => indexed.2 ≠ 0) = rest.zipIdx 1 := by
    refine List.filter_eq_self.mpr fun indexed hmem => ?_
    have hindex := (List.mem_zipIdx hmem).1
    simp only [ne_eq, decide_eq_true_eq]
    omega
  simp only [compactBlockFromBlock, Block.requests, htransactions, List.zipIdx_cons,
    List.tail_cons]
  rw [List.filter_cons_of_neg (by simp), hlater]

theorem validate_compactBlockFromBlock
    (hcount : block.transactions.length ≤ maxBlockTransactionCount) :
    validateCompactBlockMessage (compactBlockFromBlock crypto block) = .ok () := by
  have hlength := length_transactions hhead
  simp only [validateCompactBlockMessage, shortIds_compactBlockFromBlock hhead, bind_eq_ok,
    rejectWhen_eq_ok]
  simp only [compactBlockFromBlock, hhead, List.length_map, List.length_singleton,
    decide_eq_false_iff_not]
  exact ⟨(), by omega, (), by omega, by omega⟩

theorem placePrefilled_compactBlockFromBlock :
    placePrefilled (List.replicate (compactBlockFromBlock crypto block).txCount none)
      (compactBlockFromBlock crypto block).prefilledTransactions =
        .ok (some coinbase :: List.replicate block.requests.length none) := by
  simp only [compactBlockFromBlock, hhead, length_transactions hhead, List.replicate_succ]
  rfl

variable {lookupShortId : UInt64 → Option Transaction}
  {overrides : Std.TreeMap UInt32 Transaction}

theorem reconstructCompactBlock_eq
    (hcount : block.transactions.length ≤ maxBlockTransactionCount) :
    reconstructCompactBlock lookupShortId overrides crypto (compactBlockFromBlock crypto block) =
      if unfilled crypto lookupShortId overrides block.requests ≠ [] then
        .ok (.missing (block.header.blockHash crypto)
          (unfilled crypto lookupShortId overrides block.requests))
      else okOr ((some coinbase :: block.requests.map
          (filling crypto lookupShortId overrides)).mapM id) ProtocolError.invalidCompactBlock >>=
        fun transactions => pure (.complete { block with transactions := transactions }) := by
  have hindexes : nonPrefilledIndexes (some coinbase :: List.replicate block.requests.length none) =
      block.requests.map Prod.snd := by
    rw [nonPrefilledIndexes_replicate, Block.requests, List.zipIdx_map_snd, List.length_zipIdx]
  have hfill : block.requests.foldl (fun fill request =>
        fillSlot lookupShortId overrides fill request.2 (request.1.compactShortId crypto))
      ⟨some coinbase :: List.replicate block.requests.length none, []⟩ =
      ⟨some coinbase :: block.requests.map (filling crypto lookupShortId overrides),
        unfilled crypto lookupShortId overrides block.requests⟩ := by
    rw [Block.requests, List.length_zipIdx]
    exact @foldl_fillSlot crypto lookupShortId overrides block.transactions.tail [some coinbase] []
  simp only [reconstructCompactBlock, validate_compactBlockFromBlock hhead hcount,
    placePrefilled_compactBlockFromBlock hhead, bind, Except.bind, hindexes,
    shortIds_compactBlockFromBlock hhead, List.zip_map', List.length_map, List.foldl_map, hfill,
    rejectWhen, ne_eq, not_true_eq_false, decide_false, Bool.false_eq_true, if_false]
  rfl

/-- When every position is filled with a copy of its transaction, finalizing the copies
gives the block back. -/
theorem rebuildCompactBlock_complete {pool : Mempool}
    (hcount : block.transactions.length ≤ maxBlockTransactionCount)
    (hcoinbase : coinbase.bare = true)
    (hrest : ∀ request ∈ block.requests, Witnessed crypto block.header.witnessRoot request.1)
    (hfilled : ∀ request ∈ block.requests, ∃ copy, filling crypto
      ((mempoolByShortId crypto pool.transactions)[·]?) overrides request = some copy ∧
        copy.SameUpToRefs request.1) :
    rebuildCompactBlock crypto pool (compactBlockFromBlock crypto block) overrides =
      .ok (.complete block) := by
  set fill := filling crypto ((mempoolByShortId crypto pool.transactions)[·]?) overrides with hfill
  have hnone : unfilled crypto ((mempoolByShortId crypto pool.transactions)[·]?) overrides
      block.requests = [] := by
    rw [unfilled, List.map_eq_nil_iff, List.filter_eq_nil_iff]
    intro request hrequest
    obtain ⟨copy, hcopy, -⟩ := hfilled request hrequest
    simp [← hfill, hcopy]
  have hcopies : block.requests.map fill =
      (block.requests.map fun request => (fill request).getD request.1).map some := by
    rw [List.map_map]
    refine List.map_congr_left fun request hrequest => ?_
    obtain ⟨copy, hcopy, -⟩ := hfilled request hrequest
    simp [hcopy]
  have hfinal : (block.requests.map fun request => (fill request).getD request.1).map
      (fun tx => finalizeWitnessCommitRefs crypto tx block.header.witnessRoot) =
        block.transactions.tail := by
    rw [List.map_map, ← List.zipIdx_map_fst 1 block.transactions.tail]
    refine List.map_congr_left fun request hrequest => ?_
    obtain ⟨copy, hcopy, hsame⟩ := hfilled request hrequest
    simpa [hcopy] using (hrest request hrequest).finalizeWitnessCommitRefs_eq hsame
  have hcollect : ((some coinbase :: block.requests.map fill).mapM id) =
      some (coinbase :: block.requests.map fun request => (fill request).getD request.1) := by
    rw [hcopies, ← List.map_cons, List.mapM_map]
    exact (mapM_eq_some_map fun _ _ => rfl).trans (congrArg some (List.map_id _))
  have htransactions : block.transactions = coinbase :: block.transactions.tail :=
    (List.cons_head?_tail hhead).symm
  rw [rebuildCompactBlock, reconstructCompactBlock_eq hhead hcount, if_neg (by simp [hnone]),
    ← hfill, hcollect]
  simp only [okOr, bind, Except.bind, pure, Except.pure, finalizeCompactBlockWitnessRefs,
    List.map_cons, finalizeWitnessCommitRefs_of_bare crypto hcoinbase, hfinal,
    ← htransactions]

end

/-! What a pool knows of a block. -/

/-- A transaction is in the pool, whatever block its copy there refers to. -/
def Mempool.Holds (pool : Mempool) (tx : Transaction) : Prop :=
  ∃ known ∈ pool.transactions, known.SameUpToRefs tx

/-- No two transactions that differ beyond their references share a short identifier. -/
def DistinctShortIds (crypto : Crypto) (transactions : List Transaction) : Prop :=
  ∀ left ∈ transactions, ∀ right ∈ transactions,
    left.compactShortId crypto = right.compactShortId crypto → left.SameUpToRefs right

theorem mempoolByShortId_getElem? (crypto : Crypto) (transactions : List Transaction)
    (shortId : UInt64) :
    (mempoolByShortId crypto transactions)[shortId]? =
      transactions.reverse.find? fun tx => tx.compactShortId crypto = shortId := by
  rw [mempoolByShortId, Std.TreeMap.getElem?_foldl_insert, ← List.map_reverse, List.find?_map]
  simp [Function.comp_def]

theorem lookup_eq_none_iff {crypto : Crypto} {pool : Mempool} {transactions : List Transaction}
    (hdistinct : DistinctShortIds crypto (transactions ++ pool.transactions))
    {tx : Transaction} (htx : tx ∈ transactions) :
    (mempoolByShortId crypto pool.transactions)[tx.compactShortId crypto]? = none ↔
      ¬ pool.Holds tx := by
  simp only [mempoolByShortId_getElem?, List.find?_eq_none, List.mem_reverse,
    decide_eq_true_eq, Mempool.Holds, not_exists, not_and]
  refine forall₂_congr fun known hknown => not_congr ⟨fun heq => ?_, fun hsame => ?_⟩
  · exact hdistinct known (by simp [hknown]) tx (by simp [htx]) heq
  · rw [Transaction.compactShortId, hsame.witnessCommitmentHash_eq crypto]
    rfl

theorem same_of_lookup_eq_some {crypto : Crypto} {pool : Mempool} {transactions : List Transaction}
    (hdistinct : DistinctShortIds crypto (transactions ++ pool.transactions))
    {tx copy : Transaction} (htx : tx ∈ transactions)
    (hcopy : (mempoolByShortId crypto pool.transactions)[tx.compactShortId crypto]? = some copy) :
    copy.SameUpToRefs tx := by
  rw [mempoolByShortId_getElem?] at hcopy
  have hmem := List.mem_of_find?_eq_some hcopy
  have hshort := List.find?_some hcopy
  simp only [List.mem_reverse, decide_eq_true_eq] at hmem hshort
  exact hdistinct copy (by simp [hmem]) tx (by simp [htx]) hshort

theorem Block.mem_requests {block : Block} {request : Transaction × Nat} :
    request ∈ block.requests ↔
      request.2 ≠ 0 ∧ block.transactions[request.2]? = some request.1 := by
  rw [Block.requests, List.mem_zipIdx_iff_le_and_getElem?_sub, List.getElem?_tail]
  constructor
  · rintro ⟨hpos, hfound⟩
    rw [Nat.sub_add_cancel hpos] at hfound
    exact ⟨by omega, hfound⟩
  · rintro ⟨hpos, hfound⟩
    have hpos : 1 ≤ request.2 := Nat.pos_of_ne_zero hpos
    exact ⟨hpos, by rwa [Nat.sub_add_cancel hpos]⟩

namespace Accepted

variable {crypto : Crypto} {now : UInt64} {block : Block} {context : BlockValidationContext}
  {schedule : List ScheduledActivation} (accepted : Accepted crypto now block context schedule)
include accepted

theorem length_transactions_le : block.transactions.length ≤ maxBlockTransactionCount := by
  have hsize : ∀ tx ∈ accepted.rest, 133 ≤ 4 + tx.fullSizeBytes := by
    intro tx htx
    obtain ⟨prepared, -, hprepared⟩ := exists_zip_of_forall₂ accepted.forall_prepared htx
    obtain ⟨input, inputs, hinputs⟩ := List.exists_cons_of_ne_nil hprepared.inputs_ne
    obtain ⟨output, outputs, houtputs⟩ := List.exists_cons_of_ne_nil hprepared.outputs_ne
    have hlock := hprepared.locks output (by simp [houtputs])
    simp only [Transaction.fullSizeBytes, hinputs, houtputs, List.map_cons, List.sum_cons,
      hlock, txPowNonceBytes, txPowBitsBytes]
    omega
  have hsum := List.card_nsmul_le_sum (accepted.rest.map fun tx => 4 + tx.fullSizeBytes) 133
    (by simpa using hsize)
  rw [List.length_map, smul_eq_mul] at hsum
  have hblock := accepted.size
  simp only [Block.sizeMetrics, accepted.transactions, List.map_cons, List.sum_cons,
    maxBlockRawBytes] at hblock
  rw [accepted.transactions, List.length_cons]
  simp only [maxBlockTransactionCount, maxBlockVbytes, minSerializedTransactionBytes]
  omega

theorem witnessed_requests : ∀ request ∈ block.requests,
    Witnessed crypto block.header.witnessRoot request.1 := by
  intro request hrequest
  have hmem := List.mem_map_of_mem hrequest (f := Prod.fst)
  rw [Block.requests, List.zipIdx_map_fst, accepted.transactions, List.tail_cons] at hmem
  exact accepted.witnessed request.1 hmem

end Accepted

/-! Both rounds. -/

section

variable {crypto : Crypto} {pool : Mempool} {block : RelayBlock}
  (hcount : block.transactions.length ≤ maxBlockTransactionCount)
include hcount

theorem index_lt {request : Transaction × Nat} (hrequest : request ∈ block.requests) :
    request.2 < 2 ^ 32 := by
  obtain ⟨hindex, -⟩ := List.getElem?_eq_some_iff.mp (Block.mem_requests.mp hrequest).2
  simp only [maxBlockTransactionCount, maxBlockVbytes, minSerializedTransactionBytes] at hcount
  omega

theorem pairwise_unfilled {lookupShortId : UInt64 → Option Transaction}
    {overrides : Std.TreeMap UInt32 Transaction} :
    (unfilled crypto lookupShortId overrides block.requests).Pairwise (· < ·) := by
  have hordered : block.requests.Pairwise fun left right => left.2 < right.2 := by
    rw [← List.pairwise_map (f := Prod.snd), Block.requests, List.zipIdx_map_snd]
    exact List.pairwise_lt_range'
  refine List.pairwise_map.mpr ((hordered.filter _).imp_of_mem ?_)
  intro left right hleft hright hlt
  have hbound := index_lt hcount (List.mem_of_mem_filter hright)
  rw [UInt32.lt_iff_toNat_lt, UInt32.toNat_ofNat_of_lt' (hlt.trans hbound),
    UInt32.toNat_ofNat_of_lt' hbound]
  exact hlt

variable (hdistinct : DistinctShortIds crypto (block.transactions ++ pool.transactions))
include hdistinct

theorem mem_unfilled_iff {index : UInt32} :
    index ∈ unfilled crypto ((mempoolByShortId crypto pool.transactions)[·]?) ∅ block.requests ↔
      index ≠ 0 ∧ ∃ tx, block.transactions[index.toNat]? = some tx ∧ ¬ pool.Holds tx := by
  have hfilling : ∀ request ∈ block.requests,
      ((filling crypto ((mempoolByShortId crypto pool.transactions)[·]?) ∅ request).isNone ↔
        ¬ pool.Holds request.1) := by
    intro request hrequest
    have hmem := List.mem_of_getElem? (Block.mem_requests.mp hrequest).2
    rw [filling, slotTransaction, Std.TreeMap.getElem?_emptyc, Option.none_or,
      Option.isNone_iff_eq_none]
    exact lookup_eq_none_iff hdistinct hmem
  simp only [unfilled, List.mem_map, List.mem_filter]
  constructor
  · rintro ⟨request, ⟨hrequest, hnone⟩, rfl⟩
    obtain ⟨hpos, hfound⟩ := Block.mem_requests.mp hrequest
    have hindex := UInt32.toNat_ofNat_of_lt' (index_lt hcount hrequest)
    refine ⟨fun hzero => hpos ?_, request.1, by rwa [hindex], (hfilling request hrequest).mp hnone⟩
    rw [← hindex, hzero]
    rfl
  · rintro ⟨hpos, tx, hfound, hholds⟩
    have hrequest : (tx, index.toNat) ∈ block.requests :=
      Block.mem_requests.mpr ⟨fun hzero => hpos (UInt32.toNat_inj.mp hzero), hfound⟩
    exact ⟨(tx, index.toNat), ⟨hrequest, (hfilling _ hrequest).mpr hholds⟩, by simp⟩

theorem filled_of_overrides {overrides : Std.TreeMap UInt32 Transaction}
    (hsound : ∀ (index : UInt32) (tx : Transaction), overrides[index]? = some tx →
      block.transactions[index.toNat]? = some tx)
    (hcover : ∀ index ∈ unfilled crypto ((mempoolByShortId crypto pool.transactions)[·]?) ∅
      block.requests, overrides[index]? ≠ none) :
    ∀ request ∈ block.requests, ∃ copy, filling crypto
      ((mempoolByShortId crypto pool.transactions)[·]?) overrides request = some copy ∧
        copy.SameUpToRefs request.1 := by
  intro request hrequest
  obtain ⟨hpos, hfound⟩ := Block.mem_requests.mp hrequest
  have hindex := UInt32.toNat_ofNat_of_lt' (index_lt hcount hrequest)
  have hmem := List.mem_of_getElem? hfound
  simp only [filling, slotTransaction]
  cases hoverride : overrides[UInt32.ofNat request.2]? with
  | some copy =>
      have hcopy := hsound _ _ hoverride
      rw [hindex, hfound] at hcopy
      exact ⟨copy, rfl, Option.some.inj hcopy ▸ .refl _⟩
  | none =>
      cases hlookup : (mempoolByShortId crypto pool.transactions)[request.1.compactShortId
          crypto]? with
      | some copy => exact ⟨copy, rfl, same_of_lookup_eq_some hdistinct hmem hlookup⟩
      | none =>
          refine absurd hoverride (hcover _ (List.mem_map.mpr ⟨request, ?_, rfl⟩))
          simp [hrequest, filling, slotTransaction, hlookup]

end

theorem addOverrides_serveGetblocktxn (block : Block) (blockHash : Bytes 48)
    (indexes : List UInt32) :
    ∃ overrides, addOverrides ∅ (serveGetblocktxn block ⟨blockHash, indexes⟩) = .ok overrides ∧
      (∀ (index : UInt32) (tx : Transaction), overrides[index]? = some tx →
        block.transactions[index.toNat]? = some tx) ∧
      ∀ index ∈ indexes, ∀ tx, block.transactions[index.toNat]? = some tx →
        overrides[index]? ≠ none := by
  simp only [addOverrides, serveGetblocktxn, bind_eq_ok, rejectWhen_eq_ok, pure_eq_ok,
    List.length_map, List.zip_map', List.map_id']
  refine ⟨_, ⟨(), by simp, rfl⟩, fun index tx hfound => ?_, fun index hindex tx htx => ?_⟩
  · simp only [Std.TreeMap.getElem?_foldl_insert, Std.TreeMap.getElem?_emptyc, Option.or_none,
      Option.map_eq_some_iff] at hfound
    obtain ⟨pair, hpair, rfl⟩ := hfound
    have hserved := List.mem_reverse.mp (List.mem_of_find?_eq_some hpair)
    obtain ⟨index', -, hindex'⟩ := List.mem_filterMap.mp hserved
    obtain ⟨tx, htx, rfl⟩ := Option.map_eq_some_iff.mp hindex'
    have hkey : index' = index := by simpa using List.find?_some hpair
    rwa [← hkey]
  · simp only [Std.TreeMap.getElem?_foldl_insert, Std.TreeMap.getElem?_emptyc, Option.or_none,
      ne_eq, Option.map_eq_none_iff, List.find?_eq_none, List.mem_reverse, List.mem_filterMap]
    intro hnone
    exact hnone (index, tx) ⟨index, hindex, by rw [htx]; rfl⟩ (by simp)

/-- Compact relay gives an accepted block back: from the pool alone when it holds every
transaction after the first, and otherwise after one request for exactly the others. -/
theorem compact_relay_rebuilds {crypto : Crypto} {now height : UInt64} {network : Network}
    {expectedPreviousHash expectedTarget : Bytes 48} {previousBlocks : List Block}
    {utxos : UtxoSet} {block : RelayBlock}
    (haccepted : validateBlockWithContext crypto now block.toBlock height network
      expectedPreviousHash expectedTarget previousBlocks utxos = .ok ()) (pool : Mempool)
    (hdistinct : DistinctShortIds crypto (block.transactions ++ pool.transactions)) :
    ∃ indexes : List UInt32, indexes.Pairwise (· < ·) ∧
      (∀ index, index ∈ indexes ↔
        index ≠ 0 ∧ ∃ tx, block.transactions[index.toNat]? = some tx ∧ ¬ pool.Holds tx) ∧
      rebuildCompactBlock crypto pool (compactBlockFromBlock crypto block) ∅ =
        .ok (if indexes = [] then .complete block
          else .missing (block.header.blockHash crypto) indexes) ∧
      ∃ overrides, addOverrides ∅ (serveGetblocktxn block.toBlock
          ⟨block.header.blockHash crypto, indexes⟩) = .ok overrides ∧
        rebuildCompactBlock crypto pool (compactBlockFromBlock crypto block) overrides =
          .ok (.complete block) := by
  simp only [validateBlockWithContext, validateBlockWithContextAndSchedule, bind_eq_ok] at haccepted
  obtain ⟨overlay, hvalid, -⟩ := haccepted
  obtain ⟨accepted, -⟩ := accepted_of_ok hvalid
  have hhead : block.transactions.head? = some accepted.coinbase := by
    rw [accepted.transactions, List.head?_cons]
  have hcount := accepted.length_transactions_le
  have hmissing := fun index => @mem_unfilled_iff crypto pool block hcount hdistinct index
  have hcomplete := fun overrides => @rebuildCompactBlock_complete crypto block accepted.coinbase
    hhead overrides pool hcount accepted.coinbaseBare accepted.witnessed_requests
  refine ⟨_, pairwise_unfilled hcount, hmissing, ?_, ?_⟩
  · split
    · next hnone =>
        refine hcomplete ∅ (filled_of_overrides hcount hdistinct (by simp) ?_)
        simp [hnone]
    · next hne =>
        rw [rebuildCompactBlock, reconstructCompactBlock_eq hhead hcount, if_pos hne]
        rfl
  · obtain ⟨overrides, hserved, hsound, hcover⟩ := addOverrides_serveGetblocktxn block.toBlock
      (block.header.blockHash crypto) (unfilled crypto
        ((mempoolByShortId crypto pool.transactions)[·]?) ∅ block.requests)
    refine ⟨overrides, hserved, hcomplete overrides (filled_of_overrides hcount hdistinct hsound ?_)⟩
    intro index hindex
    obtain ⟨-, tx, htx, -⟩ := (hmissing index).mp hindex
    exact hcover index hindex tx htx

/-! A pool that knows the payment of a block with other references. -/

def relayedPayment : RelayBlock :=
  ⟨paymentBlock, 100000, 100000⟩

def paymentPool : Mempool :=
  { Mempool.new with
    entries := (∅ : Std.TreeMap (Bytes 48) MempoolEntry).insert
      ((examplePayment (.zero 16)).txid exampleCrypto)
      (.new exampleCrypto (examplePayment (.zero 16)) 100000) }

theorem transactions_paymentPool :
    paymentPool.transactions = [examplePayment (.zero 16)] := by
  decide +kernel

theorem examplePayment_same :
    (examplePayment (.zero 16)).SameUpToRefs
      (examplePayment (.ofNat 16 0xf281a6c8f7dcdc96637501dda41069e5)) := by
  refine ⟨rfl, .inr ⟨⟨exampleSignature, exampleKey, [⟨0, .ofNat 2 0xe928, .zero 16⟩], []⟩,
    ⟨exampleSignature, exampleKey, [⟨0, .ofNat 2 0xe928,
      .ofNat 16 0xf281a6c8f7dcdc96637501dda41069e5⟩], []⟩, ?_, ?_, ?_⟩⟩
  · decide +kernel
  · decide +kernel
  · rfl

theorem distinctShortIds_payment : DistinctShortIds exampleCrypto
    (relayedPayment.transactions ++ paymentPool.transactions) := by
  have hcoinbase : ∀ commitRef : Bytes 16, (commitRef = .zero 16 ∨
        commitRef = .ofNat 16 0xf281a6c8f7dcdc96637501dda41069e5) →
      (UtxoSet.relayPayment [] 5000100000).compactShortId exampleCrypto ≠
        (examplePayment commitRef).compactShortId exampleCrypto := by
    rintro commitRef (rfl | rfl) <;> decide +kernel
  rw [transactions_paymentPool]
  intro left hleft right hright heq
  change left ∈ [UtxoSet.relayPayment [] 5000100000,
    examplePayment (.ofNat 16 0xf281a6c8f7dcdc96637501dda41069e5), examplePayment (.zero 16)]
    at hleft
  change right ∈ [UtxoSet.relayPayment [] 5000100000,
    examplePayment (.ofNat 16 0xf281a6c8f7dcdc96637501dda41069e5), examplePayment (.zero 16)]
    at hright
  simp only [List.mem_cons, List.not_mem_nil, or_false] at hleft hright
  rcases hleft with rfl | rfl | rfl <;> rcases hright with rfl | rfl | rfl
  · exact .refl _
  · exact absurd heq (hcoinbase _ (.inr rfl))
  · exact absurd heq (hcoinbase _ (.inl rfl))
  · exact absurd heq.symm (hcoinbase _ (.inr rfl))
  · exact .refl _
  · exact examplePayment_same.symm
  · exact absurd heq.symm (hcoinbase _ (.inl rfl))
  · exact examplePayment_same
  · exact .refl _

theorem payment_rebuilt_from_pool :
    paymentPool.transactions ≠ [examplePayment (.ofNat 16 0xf281a6c8f7dcdc96637501dda41069e5)] ∧
      rebuildCompactBlock exampleCrypto paymentPool
        (compactBlockFromBlock exampleCrypto relayedPayment) ∅ =
          .ok (.complete relayedPayment) := by
  obtain ⟨indexes, -, hindexes, hrebuilt, -⟩ := @compact_relay_rebuilds exampleCrypto exampleClock
    2 .regnet _ _ _ _ relayedPayment paymentBlock_valid paymentPool distinctShortIds_payment
  refine ⟨by rw [transactions_paymentPool]; decide +kernel, ?_⟩
  have hnone : indexes = [] := by
    refine List.eq_nil_iff_forall_not_mem.mpr fun index hindex => ?_
    obtain ⟨hpos, tx, htx, hholds⟩ := (hindexes index).mp hindex
    have hpos : index.toNat ≠ 0 := fun hzero => hpos (UInt32.toNat_inj.mp hzero)
    obtain ⟨hlt, -⟩ := List.getElem?_eq_some_iff.mp htx
    have hlt : index.toNat < 2 := hlt
    have hone : index.toNat = 1 := by omega
    rw [hone] at htx
    obtain rfl := Option.some.inj htx
    refine hholds ⟨examplePayment (.zero 16), ?_, examplePayment_same⟩
    rw [transactions_paymentPool]
    exact List.mem_singleton_self _
  rw [hrebuilt, if_pos hnone]

end Atho
