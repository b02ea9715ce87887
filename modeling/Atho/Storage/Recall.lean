import Atho.Core.Retarget
import Atho.Storage.CanonicalChain

/-! What the memory keeps of a chain: its tip, the tips below it, and the blocks
that are resident. -/

namespace Atho

/-- The blocks stand at the heights 0, 1, 2 and so on, up to where heights
saturate. -/
def Numbered (blocks : List Block) : Prop :=
  ∀ index block, blocks[index]? = some block →
    block.header.height.toNat = min index (2 ^ 64 - 1)

namespace Numbered

variable {blocks : List Block} {block last : Block}

theorem singleton (hheight : block.header.height = 0) : Numbered [block] := by
  intro index found hfound
  cases index with
  | zero =>
      cases hfound
      simp [hheight]
  | succ index => simp at hfound

theorem dropLast (hnumbered : Numbered blocks) : Numbered blocks.dropLast := by
  intro index found hfound
  rw [List.getElem?_dropLast] at hfound
  split at hfound
  · exact hnumbered index found hfound
  · cases hfound

theorem left {rest : List Block} (hnumbered : Numbered (blocks ++ rest)) : Numbered blocks := by
  intro index found hfound
  have hlt := (List.getElem?_eq_some_iff.mp hfound).1
  exact hnumbered index found (by rw [List.getElem?_append_left hlt, hfound])

theorem getLast? (hnumbered : Numbered blocks) (hlast : blocks.getLast? = some last) :
    last.header.height.toNat = min (blocks.length - 1) (2 ^ 64 - 1) := by
  rw [List.getLast?_eq_getElem?] at hlast
  exact hnumbered _ last hlast

theorem concat (hnumbered : Numbered blocks) (hlast : blocks.getLast? = some last)
    (hheight : block.header.height = last.header.height.saturatingAdd 1) :
    Numbered (blocks ++ [block]) := by
  intro index found hfound
  rcases Nat.lt_trichotomy index blocks.length with hlt | rfl | hgt
  · rw [List.getElem?_append_left hlt] at hfound
    exact hnumbered index found hfound
  · rw [List.getElem?_concat_length] at hfound
    cases hfound
    have hpositive : 0 < blocks.length := List.length_pos_iff.mpr (by rintro rfl; simp at hlast)
    rw [hheight, UInt64.toNat_saturatingAdd, hnumbered.getLast? hlast, UInt64.toNat_one]
    omega
  · rw [List.getElem?_eq_none (by simp; omega)] at hfound
    cases hfound

end Numbered

/-- The tip that a block was, as an undo record keeps it. -/
def Block.asTip (crypto : Crypto) (block : Block) : Option BlockHeader × Bytes 48 :=
  (some block.header, block.header.blockHash crypto)

def ChainUndo.tip (undo : ChainUndo) : Option BlockHeader × Bytes 48 :=
  (undo.previousTip, undo.previousTipHash)

/-- The memory is one of the chain `full`, from genesis on. The resident blocks are
those from `dropped` on, possibly after one earlier block that pruning kept. -/
structure Recalls (crypto : Crypto) (full : List Block) (memory : ChainMemory) : Prop where
  numbered : Numbered full
  linked : full.IsChain fun left right =>
    right.header.previousBlockHash = left.header.blockHash crypto
  tip : ∃ last, full.getLast? = some last ∧ memory.tip = some last.header ∧
    memory.tipHash = last.header.blockHash crypto ∧ memory.height = last.header.height
  blocks : ∃ (kept : Option Block) (dropped : Nat),
    memory.blocks = kept.toList ++ full.drop dropped ∧ dropped ≤ full.length ∧
      ∀ block ∈ kept, ∃ index < dropped, full[index]? = some block
  undos : memory.undoStack.map ChainUndo.tip <:+ full.dropLast.map (Block.asTip crypto)
  undos_lt : memory.undoStack.length < memory.blocks.length

namespace Recalls

variable {crypto : Crypto} {full : List Block} {memory : ChainMemory}

theorem genesis (crypto : Crypto) (network : Network) :
    Recalls crypto [genesisBlock crypto network] (.genesis crypto network) where
  numbered := .singleton rfl
  linked := .singleton _
  tip := ⟨genesisBlock crypto network, rfl, rfl, rfl, rfl⟩
  blocks := ⟨none, 0, rfl, Nat.zero_le _, by simp⟩
  undos := List.suffix_refl []
  undos_lt := Nat.zero_lt_one

theorem push {block : Block} {undo : BlockUndo} {utxos : UtxoSet}
    (hrecalls : Recalls crypto full memory)
    (hvalid : memory.validateNext crypto now block = .ok ()) :
    Recalls crypto (full ++ [block]) (memory.pushBlock crypto block undo utxos) := by
  obtain ⟨last, hlast, htip, htipHash, hheight⟩ := hrecalls.tip
  obtain ⟨kept, dropped, hblocks, hdropped, hkept⟩ := hrecalls.blocks
  obtain ⟨accepted⟩ := ChainMemory.validateNext_ok hvalid
  have hfull : full = full.dropLast ++ [last] := (List.dropLast_append_getLast? last hlast).symm
  refine ⟨?_, ?_, ⟨block, by simp, rfl, rfl, rfl⟩, ⟨kept, dropped, ?_, ?_, ?_⟩, ?_, ?_⟩
  · exact hrecalls.numbered.concat hlast (by rw [accepted.height, hheight])
  · refine hrecalls.linked.append (.singleton _) ?_
    intro left hleft right hright
    rw [hlast] at hleft
    cases hleft
    cases hright
    exact accepted.previous.trans htipHash
  · simp only [ChainMemory.pushBlock, hblocks, List.append_assoc,
      List.drop_append_of_le_length hdropped]
  · rw [List.length_append]
    omega
  · intro first hfirst
    obtain ⟨index, hindex, hget⟩ := hkept first hfirst
    exact ⟨index, hindex, by rw [List.getElem?_append_left (by omega), hget]⟩
  · have htipOf : (⟨memory.tip, memory.tipHash, undo⟩ : ChainUndo).tip = last.asTip crypto := by
      rw [ChainUndo.tip, Block.asTip, htip, htipHash]
    rw [List.dropLast_concat]
    simp only [ChainMemory.pushBlock, List.map_append, List.map_cons, List.map_nil, htipOf]
    nth_rewrite 1 [hfull]
    rw [List.map_append, List.map_singleton]
    exact (List.suffix_append_inj_of_length_eq rfl).mpr ⟨hrecalls.undos, rfl⟩
  · simpa [ChainMemory.pushBlock] using hrecalls.undos_lt

theorem replace (hrecalls : Recalls crypto full memory) (network : Network)
    (utxos : UtxoSet) : Recalls crypto full { memory with network := network, utxos := utxos } :=
  ⟨hrecalls.numbered, hrecalls.linked, hrecalls.tip, hrecalls.blocks, hrecalls.undos,
    hrecalls.undos_lt⟩

theorem cons (hrecalls : Recalls crypto full memory) :
    ∃ first index dropped, memory.blocks = first :: full.drop dropped ∧ index < dropped ∧
      dropped ≤ full.length ∧ full[index]? = some first := by
  obtain ⟨kept, dropped, hblocks, hdropped, hkept⟩ := hrecalls.blocks
  cases kept with
  | some first =>
      obtain ⟨index, hindex, hget⟩ := hkept first rfl
      exact ⟨first, index, dropped, hblocks, hindex, hdropped, hget⟩
  | none =>
      have hlength := hrecalls.undos_lt
      have hblocks : memory.blocks = full.drop dropped := hblocks
      rw [hblocks, List.length_drop] at hlength
      have hlt : dropped < full.length := by omega
      refine ⟨full[dropped], dropped, dropped + 1, ?_, Nat.lt_succ_self _, hlt,
        List.getElem?_eq_getElem hlt⟩
      rw [hblocks, List.drop_eq_getElem_cons hlt]

theorem prune (hrecalls : Recalls crypto full memory) (retain : Nat) :
    Recalls crypto full (memory.pruneHistoryToRetain crypto retain) := by
  refine ⟨hrecalls.numbered, hrecalls.linked, by simpa using hrecalls.tip, ?_, ?_, ?_⟩ <;>
    simp only [ChainMemory.pruneHistoryToRetain] <;> split
  · exact hrecalls.blocks
  · generalize memory.blocks.length - retain = count
    obtain ⟨first, index, dropped, hblocks, hindex, hdropped, hget⟩ := hrecalls.cons
    refine ⟨some first, min (dropped + count) full.length, ?_, by omega, ?_⟩
    · simp [hblocks, Nat.add_comm 1, List.drop_drop, ← List.drop_eq_drop_min]
    · intro block hblock
      cases hblock
      exact ⟨index, by omega, hget⟩
  · exact hrecalls.undos
  · rw [List.map_drop]
    exact (List.drop_suffix _ _).trans hrecalls.undos
  · exact hrecalls.undos_lt
  · have hlt := hrecalls.undos_lt
    simp only [List.length_append, List.length_take, List.length_drop]
    omega

/-- The last undo record is of the last block, and below it is a block that is in
the chain. -/
theorem pop {undo : ChainUndo} (hrecalls : Recalls crypto full memory)
    (hundo : memory.undoStack.getLast? = some undo) (removed : Block) :
    Recalls crypto full.dropLast (memory.popBlock crypto undo removed) := by
  obtain ⟨kept, dropped, hblocks, hdropped, hkept⟩ := hrecalls.blocks
  have hlength : memory.blocks.length = kept.toList.length + (full.length - dropped) := by
    rw [hblocks, List.length_append, List.length_drop]
  have hstack : 0 < memory.undoStack.length :=
    List.length_pos_iff.mpr (by intro hnil; simp [hnil] at hundo)
  have hlt := hrecalls.undos_lt
  have hkeptLength : kept.toList.length ≤ 1 := by cases kept <;> simp
  have hresident : dropped < full.length := by omega
  refine ⟨hrecalls.numbered.dropLast, ?_, ?_, ⟨kept, dropped, ?_, ?_, ?_⟩, ?_, ?_⟩
  · rw [List.dropLast_eq_take]
    exact hrecalls.linked.take _
  · have hbelow := getLast?_of_suffix hrecalls.undos (by simpa using List.length_pos_iff.mp hstack)
    rw [List.getLast?_map, List.getLast?_map, hundo, Option.map_some,
      Option.map_eq_some_iff] at hbelow
    obtain ⟨last, hlast, htip⟩ := hbelow
    have htip : (some last.header, last.header.blockHash crypto) =
        (undo.previousTip, undo.previousTipHash) := htip
    simp only [Prod.mk.injEq] at htip
    refine ⟨last, hlast, htip.1.symm, htip.2.symm, ?_⟩
    simp [ChainMemory.popBlock, ← htip.1]
  · rw [← List.dropLast_drop_eq_drop_dropLast, ChainMemory.popBlock, hblocks,
      List.dropLast_append_of_ne_nil (by simpa using hresident)]
  · rw [List.length_dropLast]
    omega
  · intro block hblock
    obtain ⟨index, hindex, hget⟩ := hkept block hblock
    exact ⟨index, hindex, by rw [List.getElem?_dropLast, if_pos (by omega), hget]⟩
  · obtain ⟨older, holder⟩ := hrecalls.undos
    refine ⟨older, ?_⟩
    rw [ChainMemory.popBlock, List.map_dropLast, List.map_dropLast, ← holder,
      List.dropLast_append_of_ne_nil (by simpa using List.length_pos_iff.mp hstack)]
  · simp only [ChainMemory.popBlock, List.length_dropLast]
    omega

end Recalls

end Atho
