import Atho.Storage.BlockFiles
import Atho.Storage.CanonicalChain

/-! Which appended records survive: torn writes leave bytes behind on which later
records are placed, and reopening cuts a file off where its records stop being whole. -/

namespace Atho

namespace BlockFileStore

/-! The whole records at the beginning of a file. -/

section GoodLength

variable {network : Network} {bytes more : List UInt8} {length : Nat}

theorem leadingRecordLength_eq_some :
    leadingRecordLength network bytes = some length ↔
      bytes.take 4 = network.p2pMagic ∧ leValue ((bytes.drop 4).take 4) ≠ 0 ∧
      leValue ((bytes.drop 4).take 4) ≤ maxBlockSerializedBytes ∧
      length = blockFileRecordOverheadBytes + leValue ((bytes.drop 4).take 4) ∧
      length ≤ bytes.length ∧
      ∃ block, Block.fromCanonicalBytes ((bytes.drop blockFileRecordOverheadBytes).take
        (leValue ((bytes.drop 4).take 4))) = some block ∧ block.header.networkId = network := by
  simp only [leadingRecordLength, Option.bind_eq_bind]
  split
  · next hbad =>
      simp only [reduceCtorEq, false_iff]
      rintro ⟨hmagic, hpositive, hsize, rfl, hle, -⟩
      rcases hbad with hbad | hbad | hbad | hbad
      · exact hbad hmagic
      · exact hpositive hbad
      · omega
      · omega
  · next hgood =>
      simp only [not_or, not_lt, ne_eq, not_not] at hgood
      obtain ⟨hmagic, hpositive, hsize, hle⟩ := hgood
      simp only [Option.bind_eq_some_iff, Option.ite_none_right_eq_some, Option.some.injEq]
      constructor
      · rintro ⟨block, hblock, hnetwork, rfl⟩
        exact ⟨hmagic, hpositive, hsize, rfl, hle, block, hblock, hnetwork⟩
      · rintro ⟨-, -, -, rfl, -, block, hblock, hnetwork⟩
        exact ⟨block, hblock, hnetwork, rfl⟩

theorem take_drop_append {count skipped : Nat} (hle : skipped + count ≤ bytes.length) :
    ((bytes ++ more).drop skipped).take count = (bytes.drop skipped).take count := by
  rw [List.drop_append_of_le_length (by omega),
    List.take_append_of_le_length (by rw [List.length_drop]; omega)]

theorem leadingRecordLength_append (hleading : leadingRecordLength network bytes = some length) :
    leadingRecordLength network (bytes ++ more) = some length := by
  rw [leadingRecordLength_eq_some] at hleading ⊢
  obtain ⟨hmagic, hpositive, hsize, hlength, hle, hblock⟩ := hleading
  have hoverhead : 8 ≤ bytes.length := by
    rw [blockFileRecordOverheadBytes] at hlength
    omega
  rw [take_drop_append (by omega), take_drop_append (by omega),
    List.take_append_of_le_length (by omega)]
  refine ⟨hmagic, hpositive, hsize, hlength, ?_, hblock⟩
  rw [List.length_append]
  omega

theorem goodLength_le (network : Network) (rounds : Nat) (bytes : List UInt8) :
    goodLength network rounds bytes ≤ bytes.length := by
  induction rounds generalizing bytes with
  | zero => exact Nat.zero_le _
  | succ rounds ih =>
      rw [goodLength]
      split
      · exact Nat.zero_le _
      · next length hleading =>
          obtain ⟨-, -, -, -, hle, -⟩ := leadingRecordLength_eq_some.mp hleading
          have hrest := ih (bytes.drop length)
          rw [List.length_drop] at hrest
          omega

theorem le_goodLength_append {rounds rounds' : Nat}
    (hwhole : goodLength network rounds bytes = bytes.length)
    (hrounds : (bytes ++ more).length ≤ rounds') :
    bytes.length ≤ goodLength network rounds' (bytes ++ more) := by
  induction rounds generalizing bytes rounds' with
  | zero => exact hwhole ▸ Nat.zero_le _
  | succ rounds ih =>
      rw [goodLength] at hwhole
      split at hwhole
      · exact hwhole ▸ Nat.zero_le _
      · next length hleading =>
          obtain ⟨-, -, -, hlength, hle, -⟩ := leadingRecordLength_eq_some.mp hleading
          rw [blockFileRecordOverheadBytes] at hlength
          rw [List.length_append] at hrounds
          obtain ⟨rounds', rfl⟩ : ∃ left, rounds' = left + 1 := ⟨rounds' - 1, by omega⟩
          have hrest := @ih (bytes.drop length) rounds' (by rw [List.length_drop]; omega)
            (by rw [List.length_append, List.length_drop]; omega)
          rw [goodLength, leadingRecordLength_append hleading]
          dsimp only
          rw [List.drop_append_of_le_length hle]
          rw [List.length_drop] at hrest
          omega

end GoodLength

/-- The file consists of whole records. -/
def Whole (network : Network) (file : List UInt8) : Prop :=
  goodLength network file.length file = file.length

instance (network : Network) (file : List UInt8) : Decidable (Whole network file) :=
  inferInstanceAs (Decidable (_ = _))

/-! The last file. -/

theorem highestFileNumber_iff_max {store : BlockFileStore} {fileNumber : Nat} :
    store.highestFileNumber = some fileNumber ↔ store.files.keys.max = fileNumber := by
  rw [highestFileNumber]
  rcases store.files.keys.max with _ | number
  · exact iff_of_false nofun nofun
  · exact ⟨fun heq => congrArg _ (Option.some.inj heq),
      fun heq => congrArg _ (WithBot.coe_inj.mp heq)⟩

theorem highestFileNumber_eq_some {store : BlockFileStore} {fileNumber : Nat} :
    store.highestFileNumber = some fileNumber ↔
      fileNumber ∈ store.files ∧ ∀ other ∈ store.files, other ≤ fileNumber := by
  rw [highestFileNumber_iff_max]
  constructor
  · intro hmax
    exact ⟨Finmap.mem_keys.mp (Finset.mem_of_max hmax), fun other hother =>
      Finset.le_max_of_eq (Finmap.mem_keys.mpr hother) hmax⟩
  · rintro ⟨hmem, hle⟩
    refine le_antisymm (Finset.max_le fun other hother => ?_)
      (Finset.le_max (Finmap.mem_keys.mpr hmem))
    exact WithBot.coe_le_coe.mpr (hle other (Finmap.mem_keys.mp hother))

theorem highestFileNumber_extend {store : BlockFileStore} {fileNumber : Nat}
    (hhighest : ∀ other ∈ store.files, other ≤ fileNumber) (bytes : List UInt8) :
    (store.extend fileNumber bytes).highestFileNumber = some fileNumber := by
  rw [highestFileNumber_eq_some]
  refine ⟨Finmap.mem_insert.mpr (.inl rfl), fun other hother => ?_⟩
  rcases Finmap.mem_insert.mp hother with rfl | hother
  · exact le_rfl
  · exact hhighest other hother

theorem le_appendFileNumber (store : BlockFileStore) (minimum : Option Nat) (recordLength : Nat) :
    ∀ other ∈ store.files, other ≤ store.appendFileNumber minimum recordLength := by
  intro other hother
  have hhighest : other ≤ store.highestFileNumber.getD (minimum.getD 0) := by
    cases hnumber : store.highestFileNumber with
    | none =>
        obtain ⟨highest, hmax⟩ := Finset.max_of_mem (Finmap.mem_keys.mpr hother)
        rw [highestFileNumber_iff_max.mpr hmax] at hnumber
        cases hnumber
    | some highest => exact (highestFileNumber_eq_some.mp hnumber).2 other hother
  simp only [appendFileNumber]
  split <;> omega

section Append

variable {store next : BlockFileStore} {block : Block} {minimum : Option Nat}
  {fault : Option AppendFault} {location : BlockFileLocation}

theorem append_eq_ok
    (happend : store.appendBlockWithMinimumFileNumber block minimum fault =
      (.ok location, next)) :
    ∃ file, location = ⟨location.fileNumber, file.length, block.canonicalBytes.length⟩ ∧
      next.network = store.network ∧ next.highestFileNumber = some location.fileNumber ∧
      next.files.lookup location.fileNumber = some (file ++ recordBytes store.network block) ∧
      block.canonicalBytes.length ≤ maxBlockSerializedBytes := by
  unfold appendBlockWithMinimumFileNumber at happend
  dsimp only at happend
  split_ifs at happend with hrefused hsize
  · cases happend
  · cases happend
  split at happend
  · cases happend
  · cases happend
    simp only [not_or, not_lt] at hsize
    exact ⟨_, rfl, rfl, highestFileNumber_extend (le_appendFileNumber _ _ _) _,
      Finmap.lookup_insert _, hsize.2⟩

theorem length_recordBytes (network : Network) (block : Block) :
    (recordBytes network block).length =
      blockFileRecordOverheadBytes + block.canonicalBytes.length := by
  simp [recordBytes, lengthPrefixed, Network.p2pMagic, blockFileRecordOverheadBytes]
  omega

theorem le_length_of_readBlock {found : Block} {file : List UInt8}
    (hfile : store.files.lookup location.fileNumber = some file)
    (hread : store.readBlock location = .ok found) :
    location.recordOffset + blockFileRecordOverheadBytes + location.payloadLength ≤
      file.length := by
  rw [blockFileRecordOverheadBytes]
  simp only [readBlock, blockFileRecordOverheadBytes, bind_eq_ok, okOr_eq_ok, hfile, rejectWhen_eq_ok, pure_eq_ok,
    Option.some.injEq, exists_eq_left', decide_eq_false_iff_not, not_lt, not_or, ne_eq, not_not,
    List.length_drop, List.length_take] at hread
  obtain ⟨-, hoverhead, -, -, -, ⟨hdeclared, -⟩, -, hpayload, -⟩ := hread
  rw [hdeclared] at hpayload
  omega

theorem recordBytes_parts (network : Network) (rest : List UInt8)
    (hfits : block.canonicalBytes.length < 2 ^ 32) :
    (recordBytes network block ++ rest).take 4 = network.p2pMagic ∧
      leValue (((recordBytes network block ++ rest).drop 4).take 4) =
        block.canonicalBytes.length ∧
      (recordBytes network block ++ rest).drop blockFileRecordOverheadBytes =
        block.canonicalBytes ++ rest := by
  have hmagic : network.p2pMagic.length = 4 := by simp [Network.p2pMagic]
  have hsplit : recordBytes network block ++ rest =
      network.p2pMagic ++ (le32 (UInt32.ofNat block.canonicalBytes.length) ++
        (block.canonicalBytes ++ rest)) := by
    simp only [recordBytes, lengthPrefixed, List.append_assoc]
  refine ⟨?_, ?_, ?_⟩
  · rw [hsplit, List.take_left' hmagic]
  · rw [hsplit, List.drop_left' hmagic, List.take_left' (length_le32 _), le32,
      UInt32.toNat_ofNat_of_lt' hfits, leValue_leBytes hfits]
  · rw [hsplit, ← List.append_assoc,
      List.drop_left' (by rw [List.length_append, hmagic, length_le32]; rfl)]

theorem Holds.readBlock_iff {found : Block} (hholds : store.Holds location block) :
    store.readBlock location = .ok found ↔
      Block.fromCanonicalBytes block.canonicalBytes = some found ∧
        found.header.networkId = store.network := by
  have hfits := hholds.length_lt
  obtain ⟨file, rest, hfile, hrecord, hlength, hsize⟩ := hholds
  obtain ⟨hmagic, hdeclared, hpayload⟩ := recordBytes_parts store.network rest hfits
  have hlong : ¬ (recordBytes store.network block ++ rest).length <
      blockFileRecordOverheadBytes := by
    rw [List.length_append, length_recordBytes]
    omega
  simp only [readBlock, bind_eq_ok, okOr_eq_ok, hfile, rejectWhen_eq_ok, pure_eq_ok,
    Option.some.injEq, exists_eq_left', hrecord, decide_eq_false_iff_not, hmagic, hdeclared,
    hpayload, List.take_left, ne_eq, not_not]
  constructor
  · rintro ⟨-, -, -, -, -, -, -, -, decoded, hdecoded, -, hnetwork, rfl⟩
    exact ⟨hdecoded, hnetwork⟩
  · rintro ⟨hdecoded, hnetwork⟩
    exact ⟨(), hlong, (), trivial, (), by simp [hlength, hsize], (), lt_irrefl _, found, hdecoded,
      (), hnetwork, rfl⟩

end Append

/-! Runs. -/

inductive FileCall where
  | appendBlock (block : Block) (minimum : Option Nat) (fault : Option AppendFault)
  | reopen

def fileCall (store : BlockFileStore) : FileCall → BlockFileStore
  | .appendBlock block minimum fault =>
      (store.appendBlockWithMinimumFileNumber block minimum fault).2
  | .reopen => store.repairLastFileTail

def runFiles (store : BlockFileStore) (calls : List FileCall) : BlockFileStore :=
  calls.foldl fileCall store

/-- The file is there, with its bytes and perhaps more behind them. -/
def KeepsFile (network : Network) (fileNumber : Nat) (file : List UInt8)
    (store : BlockFileStore) : Prop :=
  store.network = network ∧ ∃ more, store.files.lookup fileNumber = some (file ++ more)

section Keeps

variable {network : Network} {fileNumber : Nat} {file : List UInt8} {store : BlockFileStore}

theorem KeepsFile.reopen (hkeeps : KeepsFile network fileNumber file store)
    (hwhole : Whole network file) :
    KeepsFile network fileNumber file store.repairLastFileTail := by
  obtain ⟨hnetwork, more, hfile⟩ := hkeeps
  rw [repairLastFileTail]
  split
  · exact ⟨hnetwork, more, hfile⟩
  · next highest hhighest =>
      refine ⟨hnetwork, ?_⟩
      dsimp only
      rcases eq_or_ne fileNumber highest with rfl | hne
      · have hle : file.length ≤ goodLength network (file ++ more).length (file ++ more) :=
          le_goodLength_append hwhole le_rfl
        rw [Finmap.lookup_insert, hfile, Option.getD_some, hnetwork, List.take_append,
          List.take_of_length_le hle]
        exact ⟨_, rfl⟩
      · exact ⟨more, by rw [Finmap.lookup_insert_of_ne _ hne, hfile]⟩

theorem KeepsFile.fileCall {call : FileCall} (hkeeps : KeepsFile network fileNumber file store)
    (hwhole : Whole network file) :
    KeepsFile network fileNumber file (store.fileCall call) := by
  cases call with
  | appendBlock block minimum fault =>
      obtain ⟨hnetwork, more, hfile⟩ := hkeeps
      have hextends := append_extends store block minimum fault
      obtain ⟨further, hfurther⟩ := hextends.2 hfile
      exact ⟨hextends.1.trans hnetwork, more ++ further, by rw [← List.append_assoc]; exact hfurther⟩
  | reopen => exact hkeeps.reopen hwhole

theorem KeepsFile.runFiles {calls : List FileCall}
    (hkeeps : KeepsFile network fileNumber file store) (hwhole : Whole network file) :
    KeepsFile network fileNumber file (store.runFiles calls) := by
  induction calls generalizing store with
  | nil => exact hkeeps
  | cons call calls ih => exact ih (hkeeps.fileCall hwhole)

end Keeps

/-- A block that was appended is read back after any further calls exactly when its
bytes decode and the file consisted of whole records once the record was in it. -/
theorem append_durable_iff (store next : BlockFileStore) (block : Block) (minimum : Option Nat)
    (fault : Option AppendFault) (location : BlockFileLocation)
    (hnetwork : block.header.networkId = store.network)
    (happend : store.appendBlockWithMinimumFileNumber block minimum fault =
      (.ok location, next)) :
    (∀ later, (next.runFiles later).readBlock location = .ok block) ↔
      Block.fromCanonicalBytes block.canonicalBytes = some block ∧
        ∀ file, next.files.lookup location.fileNumber = some file → Whole store.network file := by
  obtain ⟨file, hlocation, hnext, hhighest, hlookup, hsize⟩ := append_eq_ok happend
  have hholds := append_holds happend
  constructor
  · intro hdurable
    refine ⟨(hholds.readBlock_iff.mp (hdurable [])).1, fun found hfound => ?_⟩
    rw [hlookup] at hfound
    cases hfound
    -- Reopening at once must not cut anything off.
    have hreopened : (next.repairLastFileTail).files.lookup location.fileNumber =
        some ((file ++ recordBytes store.network block).take
          (goodLength store.network (file ++ recordBytes store.network block).length
            (file ++ recordBytes store.network block))) := by
      rw [repairLastFileTail, hhighest]
      dsimp only
      rw [Finmap.lookup_insert, hlookup, hnext, Option.getD_some]
    have hneeded := le_length_of_readBlock hreopened (hdurable [.reopen])
    have hbound := goodLength_le store.network (file ++ recordBytes store.network block).length
      (file ++ recordBytes store.network block)
    rw [hlocation, List.length_take] at hneeded
    rw [Whole]
    rw [List.length_append, length_recordBytes] at hbound hneeded ⊢
    dsimp only at hneeded
    omega
  · rintro ⟨hdecodes, hwhole⟩ later
    have hkeeps : KeepsFile store.network location.fileNumber
        (file ++ recordBytes store.network block) (next.runFiles later) :=
      KeepsFile.runFiles ⟨hnext, [], by rw [hlookup, List.append_nil]⟩ (hwhole _ hlookup)
    obtain ⟨hfinal, more, hfile⟩ := hkeeps
    have hlast : (next.runFiles later).Holds location block := by
      refine ⟨_, more, hfile, ?_, ?_, hsize⟩
      · rw [hlocation, hfinal, List.append_assoc, List.drop_left]
      · rw [hlocation]
    exact hlast.readBlock_iff.mpr ⟨hdecodes, hnetwork.trans hfinal.symm⟩

/-- Half a magic number is left behind, the next record goes behind it, and
reopening cuts off both. -/
theorem torn_append_loses_next :
    let torn := ((⟨.regnet, ∅⟩ : BlockFileStore).appendBlockWithMinimumFileNumber firstBlock none
      (some (.torn 2))).2
    (torn.appendBlockWithMinimumFileNumber firstBlock none none).1 =
        .ok ⟨0, 2, firstBlock.canonicalBytes.length⟩ ∧
      (((torn.appendBlockWithMinimumFileNumber firstBlock none none).2.runFiles
        [.reopen]).readBlock ⟨0, 2, firstBlock.canonicalBytes.length⟩) = .error .io := by
  decide +kernel

/-- The first record is read back although later ones are torn and cut off. -/
theorem first_append_survives :
    (((⟨.regnet, ∅⟩ : BlockFileStore).appendBlockWithMinimumFileNumber firstBlock none
        none).2.runFiles
      [.appendBlock firstBlock none (some (.torn 2)), .appendBlock firstBlock none none,
        .reopen, .appendBlock firstBlock none none]).readBlock
      ⟨0, 0, firstBlock.canonicalBytes.length⟩ = .ok firstBlock := by
  have happend : ((⟨.regnet, ∅⟩ : BlockFileStore).appendBlockWithMinimumFileNumber firstBlock none
      none).1 = .ok ⟨0, 0, firstBlock.canonicalBytes.length⟩ := by
    decide +kernel
  have hwhole : ∀ file ∈ ((⟨.regnet, ∅⟩ : BlockFileStore).appendBlockWithMinimumFileNumber
      firstBlock none none).2.files.lookup 0, Whole .regnet file := by
    decide +kernel
  have hnetwork : firstBlock.header.networkId = .regnet := by decide +kernel
  have hdecodes : Block.fromCanonicalBytes firstBlock.canonicalBytes = some firstBlock := by
    decide +kernel
  generalize houtcome : (⟨.regnet, ∅⟩ : BlockFileStore).appendBlockWithMinimumFileNumber firstBlock
    none none = outcome at happend hwhole ⊢
  obtain ⟨result, next⟩ := outcome
  obtain rfl : result = .ok ⟨0, 0, firstBlock.canonicalBytes.length⟩ := happend
  exact (append_durable_iff ⟨.regnet, ∅⟩ next firstBlock none none _ hnetwork houtcome).mpr
    ⟨hdecodes, hwhole⟩ _

end BlockFileStore

end Atho
