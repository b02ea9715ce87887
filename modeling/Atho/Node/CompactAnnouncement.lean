import Atho.Node.CompactRelay

/-! What a rebuilt block has to do with the short identifiers that announced it. -/

namespace Atho

namespace CompactBlockMessage

def prefilledIndexes (message : CompactBlockMessage) : List Nat :=
  message.prefilledTransactions.map fun prefilled => prefilled.index.toNat

/-- The positions that a message leaves to short identifiers. -/
def openPositions (message : CompactBlockMessage) : List Nat :=
  (List.range message.txCount).filter fun index => !message.prefilledIndexes.contains index

/-- Each open position with the short identifier announced for it. -/
def announced (message : CompactBlockMessage) : List (Nat × UInt64) :=
  message.openPositions.zip message.shortIds

/-- The counts add up, and the prefilled transactions have places of their own. -/
structure WellFormed (message : CompactBlockMessage) : Prop where
  counts : validateCompactBlockMessage message = .ok ()
  inside : ∀ index ∈ message.prefilledIndexes, index < message.txCount
  nodup : message.prefilledIndexes.Nodup

end CompactBlockMessage

/-! Placing what is prefilled. -/

theorem placePrefilled_ok {slots final : List (Option Transaction)}
    {prefilled : List PrefilledTransaction} (hplace : placePrefilled slots prefilled = .ok final) :
    final.length = slots.length ∧
      (∀ item ∈ prefilled, item.index.toNat < slots.length ∧
        slots[item.index.toNat]?.join = none) ∧
      (prefilled.map fun item => item.index.toNat).Nodup ∧
      ∀ index, final[index]?.join = none ↔
        slots[index]?.join = none ∧ index ∉ prefilled.map fun item => item.index.toNat := by
  induction prefilled generalizing slots with
  | nil =>
      cases hplace
      simp
  | cons item rest ih =>
      simp only [placePrefilled, bind_eq_ok, rejectWhen_eq_ok, decide_eq_false_iff_not,
        not_or, Nat.not_le, Bool.not_eq_true, Option.isSome_eq_false_iff,
        Option.isNone_iff_eq_none] at hplace
      obtain ⟨-, ⟨hinside, hempty⟩, hrest⟩ := hplace
      obtain ⟨hlength, hplaced, hnodup, hnone⟩ := ih hrest
      rw [List.length_set] at hlength hplaced
      have hset : ∀ index, (slots.set item.index.toNat (some item.transaction))[index]?.join =
          none ↔ slots[index]?.join = none ∧ index ≠ item.index.toNat := by
        intro index
        rcases eq_or_ne index item.index.toNat with rfl | hne
        · simp [List.getElem?_set_self hinside]
        · rw [List.getElem?_set_ne hne.symm]
          exact (and_iff_left hne).symm
      refine ⟨hlength, ?_, ?_, fun index => ?_⟩
      · intro other hother
        rcases List.mem_cons.mp hother with rfl | hother
        · exact ⟨hinside, hempty⟩
        · obtain ⟨hlt, hfree⟩ := hplaced other hother
          exact ⟨hlt, ((hset _).mp hfree).1⟩
      · rw [List.map_cons, List.nodup_cons]
        refine ⟨fun hmem => ?_, hnodup⟩
        obtain ⟨other, hother, heq⟩ := List.mem_map.mp hmem
        exact ((hset _).mp (hplaced other hother).2).2 heq
      · rw [hnone, hset, List.map_cons, List.mem_cons, not_or, and_assoc]

theorem nonPrefilledIndexes_eq (slots : List (Option Transaction)) :
    nonPrefilledIndexes slots =
      (List.range slots.length).filter fun index => slots[index]?.join.isNone := by
  induction slots using List.reverseRecOn with
  | nil => rfl
  | append_singleton slots slot ih =>
      have hbelow : (List.range slots.length).filter
            (fun index => (slots ++ [slot])[index]?.join.isNone) =
          (List.range slots.length).filter fun index => slots[index]?.join.isNone := by
        apply List.filter_congr
        intro index hindex
        rw [List.getElem?_append_left (List.mem_range.mp hindex)]
      rw [nonPrefilledIndexes] at ih
      rw [nonPrefilledIndexes, List.zipIdx_append, List.filterMap_append, ih, List.length_append,
        List.length_singleton, List.range_succ, List.filter_append, hbelow]
      cases slot <;> simp

theorem nonPrefilledIndexes_of_placed {message : CompactBlockMessage}
    {slots : List (Option Transaction)}
    (hplace : placePrefilled (List.replicate message.txCount none)
      message.prefilledTransactions = .ok slots) :
    nonPrefilledIndexes slots = message.openPositions ∧ slots.length = message.txCount := by
  obtain ⟨hlength, -, -, hnone⟩ := placePrefilled_ok hplace
  rw [List.length_replicate] at hlength
  refine ⟨?_, hlength⟩
  rw [nonPrefilledIndexes_eq, hlength, CompactBlockMessage.openPositions]
  apply List.filter_congr
  intro index hindex
  have hstart : (List.replicate message.txCount (none : Option Transaction))[index]?.join =
      none := by
    rw [List.getElem?_replicate, if_pos (List.mem_range.mp hindex), Option.join_some]
  have hopen := hnone index
  rw [and_iff_right hstart] at hopen
  rw [Bool.eq_iff_iff, Option.isNone_iff_eq_none, hopen]
  simp [CompactBlockMessage.prefilledIndexes]

/-! Filling what is open. -/

section Fill

variable {lookupShortId : UInt64 → Option Transaction}
  {overrides : Std.TreeMap UInt32 Transaction}

/-- The loop over the open positions. -/
def fillSlots (lookupShortId : UInt64 → Option Transaction)
    (overrides : Std.TreeMap UInt32 Transaction) (fill : SlotFill)
    (requests : List (Nat × UInt64)) : SlotFill :=
  requests.foldl
    (fun fill request => fillSlot lookupShortId overrides fill request.1 request.2) fill

theorem fillSlots_cons (fill : SlotFill) (request : Nat × UInt64)
    (rest : List (Nat × UInt64)) :
    fillSlots lookupShortId overrides fill (request :: rest) =
      fillSlots lookupShortId overrides
        (fillSlot lookupShortId overrides fill request.1 request.2) rest :=
  rfl

theorem fillSlot_frame (fill : SlotFill) (index : Nat) (shortId : UInt64) :
    (fillSlot lookupShortId overrides fill index shortId).slots.length = fill.slots.length ∧
      ∀ other ≠ index, (fillSlot lookupShortId overrides fill index shortId).slots[other]? =
        fill.slots[other]? := by
  rw [fillSlot]
  split
  · exact ⟨List.length_set, fun other hne => List.getElem?_set_ne hne.symm⟩
  · exact ⟨rfl, fun _ _ => rfl⟩

theorem fillSlots_frame (fill : SlotFill) (requests : List (Nat × UInt64)) :
    (fillSlots lookupShortId overrides fill requests).slots.length = fill.slots.length ∧
      ∀ other ∉ requests.map Prod.fst,
        (fillSlots lookupShortId overrides fill requests).slots[other]? =
          fill.slots[other]? := by
  induction requests generalizing fill with
  | nil => exact ⟨rfl, fun _ _ => rfl⟩
  | cons request rest ih =>
      obtain ⟨hlength, hframe⟩ := ih (fillSlot lookupShortId overrides fill request.1 request.2)
      obtain ⟨hlength', hframe'⟩ :=
        @fillSlot_frame lookupShortId overrides fill request.1 request.2
      refine ⟨hlength.trans hlength', fun other hother => ?_⟩
      rw [List.map_cons, List.mem_cons, not_or] at hother
      exact (hframe other hother.2).trans (hframe' other hother.1)

theorem fillSlots_filled {fill : SlotFill} {requests : List (Nat × UInt64)}
    (hnodup : (requests.map Prod.fst).Nodup)
    (hinside : ∀ request ∈ requests, request.1 < fill.slots.length)
    (hmissing : (fillSlots lookupShortId overrides fill requests).missing = []) :
    fill.missing = [] ∧ ∀ request ∈ requests, ∃ tx,
      slotTransaction lookupShortId overrides request.1 request.2 = some tx ∧
        (fillSlots lookupShortId overrides fill requests).slots[request.1]? = some (some tx) := by
  induction requests generalizing fill with
  | nil => exact ⟨hmissing, by simp⟩
  | cons request rest ih =>
      rw [List.map_cons, List.nodup_cons] at hnodup
      rw [fillSlots_cons] at hmissing ⊢
      obtain ⟨hfirst, hrest⟩ := List.forall_mem_cons.mp hinside
      obtain ⟨hlength, -⟩ := @fillSlot_frame lookupShortId overrides fill request.1 request.2
      obtain ⟨hfilled, hothers⟩ := ih hnodup.2 (by rwa [hlength]) hmissing
      cases hslot : slotTransaction lookupShortId overrides request.1 request.2 with
      | none =>
          simp [fillSlot, hslot] at hfilled
      | some tx =>
          have hset : fillSlot lookupShortId overrides fill request.1 request.2 =
              { fill with slots := fill.slots.set request.1 (some tx) } := by
            rw [fillSlot, hslot]
          refine ⟨?_, List.forall_mem_cons.mpr ⟨⟨tx, hslot, ?_⟩, hothers⟩⟩
          · rwa [hset] at hfilled
          · refine ((@fillSlots_frame lookupShortId overrides _ rest).2 _ hnodup.1).trans ?_
            rw [hset]
            exact List.getElem?_set_self hfirst

end Fill

/-! The rebuilt block. -/

theorem map_some_of_mapM_id {slots : List (Option Transaction)} {transactions : List Transaction}
    (hcollect : slots.mapM id = some transactions) : slots = transactions.map some := by
  induction slots generalizing transactions with
  | nil =>
      cases hcollect
      rfl
  | cons slot rest ih =>
      simp only [List.mapM_cons, id_eq, Option.bind_eq_bind, Option.bind_eq_some_iff,
        Option.pure_def, Option.some.injEq] at hcollect
      obtain ⟨tx, rfl, others, hothers, rfl⟩ := hcollect
      rw [ih hothers, List.map_cons]

theorem nodup_openPositions (message : CompactBlockMessage) : message.openPositions.Nodup :=
  List.nodup_range.filter _

theorem lt_of_mem_announced {message : CompactBlockMessage} {request : Nat × UInt64}
    (hrequest : request ∈ message.announced) : request.1 < message.txCount := by
  have hmem := (List.of_mem_zip hrequest).1
  exact List.mem_range.mp (List.mem_of_mem_filter hmem)

section

variable {crypto : Crypto} {message : CompactBlockMessage}
  {lookupShortId : UInt64 → Option Transaction} {overrides : Std.TreeMap UInt32 Transaction}

theorem wellFormed_of_reconstruct {result : CompactBlockReconstruction}
    (hresult : reconstructCompactBlock lookupShortId overrides crypto message = .ok result) :
    message.WellFormed := by
  simp only [reconstructCompactBlock, bind_eq_ok] at hresult
  obtain ⟨⟨⟩, hcounts, slots, hplace, -⟩ := hresult
  obtain ⟨-, hinside, hnodup, -⟩ := placePrefilled_ok hplace
  rw [List.length_replicate] at hinside
  refine ⟨hcounts, fun index hindex => ?_, hnodup⟩
  obtain ⟨item, hitem, rfl⟩ := List.mem_map.mp hindex
  exact (hinside item hitem).1

theorem slotTransaction_of_complete {block : RelayBlock}
    (hcomplete : reconstructCompactBlock lookupShortId overrides crypto message =
      .ok (.complete block)) {request : Nat × UInt64} (hrequest : request ∈ message.announced) :
    ∃ tx, block.transactions[request.1]? = some tx ∧
      slotTransaction lookupShortId overrides request.1 request.2 = some tx := by
  simp only [reconstructCompactBlock, bind_eq_ok] at hcomplete
  obtain ⟨-, -, slots, hplace, ⟨⟩, hcount, hcomplete⟩ := hcomplete
  obtain ⟨hopen, hlength⟩ := nonPrefilledIndexes_of_placed hplace
  rw [hopen] at hcomplete hcount
  have hcount : message.openPositions.length = message.shortIds.length := by
    simpa [rejectWhen_eq_ok] using hcount
  have hnodup : (message.announced.map Prod.fst).Nodup := by
    rw [CompactBlockMessage.announced, List.map_fst_zip hcount.le]
    exact nodup_openPositions message
  change (if (fillSlots lookupShortId overrides ⟨slots, []⟩ message.announced).missing ≠ [] then _
    else okOr ((fillSlots lookupShortId overrides ⟨slots, []⟩ message.announced).slots.mapM id) _
      >>= _) = _ at hcomplete
  split at hcomplete
  · cases hcomplete
  · next hmissing =>
      simp only [bind_eq_ok, okOr_eq_ok, pure_eq_ok] at hcomplete
      obtain ⟨transactions, hfull, hblock⟩ := hcomplete
      cases hblock
      obtain ⟨-, hfilled⟩ := fillSlots_filled hnodup
        (fun request hmem => by rw [hlength]; exact lt_of_mem_announced hmem)
        (not_not.mp hmissing)
      obtain ⟨tx, hslot, hplaced⟩ := hfilled request hrequest
      refine ⟨tx, ?_, hslot⟩
      rw [map_some_of_mapM_id hfull, List.getElem?_map] at hplaced
      simpa using hplaced

/-- The transactions that fill the open positions are those announced exactly when the
overrides for these positions are. -/
theorem announced_iff_of_complete
    (hlookup : ∀ shortId tx, lookupShortId shortId = some tx → tx.compactShortId crypto = shortId)
    {block : RelayBlock}
    (hcomplete : reconstructCompactBlock lookupShortId overrides crypto message =
      .ok (.complete block)) {request : Nat × UInt64} (hrequest : request ∈ message.announced) :
    (∃ tx, block.transactions[request.1]? = some tx ∧ tx.compactShortId crypto = request.2) ↔
      ∀ tx ∈ overrides[UInt32.ofNat request.1]?, tx.compactShortId crypto = request.2 := by
  obtain ⟨tx, htx, hslot⟩ := slotTransaction_of_complete hcomplete hrequest
  simp only [htx, Option.some.injEq, exists_eq_left']
  rw [slotTransaction] at hslot
  cases hoverride : overrides[UInt32.ofNat request.1]? with
  | none =>
      rw [hoverride, Option.none_or] at hslot
      simp [hlookup _ _ hslot]
  | some override =>
      rw [hoverride, Option.some_or, Option.some.injEq] at hslot
      simp [hslot]

end

/-- A malformed message is refused and every slot that is written exists. A rebuilt block has
the announced transactions exactly when the overrides that fill it do. -/
theorem reconstruction_announced_iff (crypto : Crypto) (message : CompactBlockMessage)
    (lookupShortId : UInt64 → Option Transaction) (overrides : Std.TreeMap UInt32 Transaction)
    (hlookup : ∀ shortId tx, lookupShortId shortId = some tx →
      tx.compactShortId crypto = shortId) :
    ((¬message.WellFormed → ∃ err,
        reconstructCompactBlock lookupShortId overrides crypto message = .error err) ∧
      (∀ slots, placePrefilled (List.replicate message.txCount none)
          message.prefilledTransactions = .ok slots →
        ∀ index ∈ nonPrefilledIndexes slots, index < slots.length) ∧
      ∀ block, reconstructCompactBlock lookupShortId overrides crypto message =
          .ok (.complete block) →
        ∀ request ∈ message.announced, ∃ tx, block.transactions[request.1]? = some tx ∧
          tx.compactShortId crypto = request.2) ↔
    ∀ block, reconstructCompactBlock lookupShortId overrides crypto message =
        .ok (.complete block) →
      ∀ request ∈ message.announced, ∀ tx ∈ overrides[UInt32.ofNat request.1]?,
        tx.compactShortId crypto = request.2 := by
  have hrefused : ¬message.WellFormed → ∃ err,
      reconstructCompactBlock lookupShortId overrides crypto message = .error err := by
    intro hmalformed
    cases hresult : reconstructCompactBlock lookupShortId overrides crypto message with
    | error err => exact ⟨err, rfl⟩
    | ok result => exact absurd (wellFormed_of_reconstruct hresult) hmalformed
  have hexists : ∀ slots, placePrefilled (List.replicate message.txCount none)
      message.prefilledTransactions = .ok slots →
        ∀ index ∈ nonPrefilledIndexes slots, index < slots.length := by
    intro slots _ index hindex
    rw [nonPrefilledIndexes_eq] at hindex
    exact List.mem_range.mp (List.mem_of_mem_filter hindex)
  rw [and_iff_right hrefused, and_iff_right hexists]
  constructor
  · intro hannounced block hcomplete request hrequest
    exact (announced_iff_of_complete hlookup hcomplete hrequest).mp
      (hannounced block hcomplete request hrequest)
  · intro hoverrides block hcomplete request hrequest
    exact (announced_iff_of_complete hlookup hcomplete hrequest).mpr
      (hoverrides block hcomplete request hrequest)

/-- Two transactions, of which the second is announced by a short identifier. -/
def announcement (shortId : UInt64) : CompactBlockMessage where
  header := (genesisBlock .hashing .regnet).header
  txCount := 2
  shortIds := [shortId]
  prefilledTransactions := [⟨0, genesisCoinbase .regnet⟩]
  feesTotalAtoms := 0
  feesMinerAtoms := 0

def coinbaseOverride : Std.TreeMap UInt32 Transaction :=
  (∅ : Std.TreeMap UInt32 Transaction).insert 1 (genesisCoinbase .regnet)

/-- An override with another short identifier is taken all the same. -/
theorem unannounced_override_taken :
    reconstructCompactBlock (fun _ => none) coinbaseOverride .hashing (announcement 0) =
      .ok (.complete ⟨⟨(genesisBlock .hashing .regnet).header,
        [genesisCoinbase .regnet, genesisCoinbase .regnet]⟩, 0, 0⟩) ∧
    (1, 0) ∈ (announcement 0).announced ∧
    (genesisCoinbase .regnet).compactShortId .hashing ≠ 0 := by
  decide +kernel

theorem announced_override_taken :
    ∃ tx, (⟨⟨(genesisBlock .hashing .regnet).header,
        [genesisCoinbase .regnet, genesisCoinbase .regnet]⟩, 0, 0⟩ : RelayBlock).transactions[1]? =
          some tx ∧
      tx.compactShortId .hashing = (genesisCoinbase .regnet).compactShortId .hashing := by
  have hcomplete : reconstructCompactBlock (fun _ => none) coinbaseOverride .hashing
      (announcement ((genesisCoinbase .regnet).compactShortId .hashing)) =
        .ok (.complete ⟨⟨(genesisBlock .hashing .regnet).header,
          [genesisCoinbase .regnet, genesisCoinbase .regnet]⟩, 0, 0⟩) := by
    decide +kernel
  have hoverride : coinbaseOverride[(1 : UInt32)]? = some (genesisCoinbase .regnet) := by
    decide +kernel
  have hannounced : (announcement ((genesisCoinbase .regnet).compactShortId .hashing)).announced =
      [(1, (genesisCoinbase .regnet).compactShortId .hashing)] := by
    rfl
  refine ((reconstruction_announced_iff .hashing _ (fun _ => none) coinbaseOverride
    (by simp)).mpr ?_).2.2 _ hcomplete (1, _)
      (by rw [hannounced]; exact List.mem_singleton_self _)
  intro block _ request hrequest tx htx
  rw [hannounced, List.mem_singleton] at hrequest
  subst hrequest
  rw [show coinbaseOverride[UInt32.ofNat 1]? = some (genesisCoinbase .regnet) from hoverride] at htx
  cases htx
  rfl

end Atho
