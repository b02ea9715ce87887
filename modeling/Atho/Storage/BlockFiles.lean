import Atho.Core.BlockCodec
import Atho.Storage.Error

/-! The flat files that hold the raw bytes of the archived blocks. -/

namespace Atho

def blockFileRotateBytes : Nat := 128 * 1024 * 1024
def blockFileRecordOverheadBytes : Nat := 8
def maxBlockSerializedBytes : Nat := maxBlockRawBytes

structure BlockFileLocation where
  fileNumber : Nat
  recordOffset : Nat
  payloadLength : Nat
  deriving DecidableEq

def BlockFileLocation.recordLength (location : BlockFileLocation) : Nat :=
  blockFileRecordOverheadBytes + location.payloadLength

/-- How an append can fail: before its file is opened, or with only the first bytes
of the record written. -/
inductive AppendFault where
  | refused
  | torn (written : Nat)
  deriving DecidableEq

/-- The numbered files and their bytes. -/
structure BlockFileStore where
  network : Network
  files : Finmap fun _ : Nat => List UInt8

namespace BlockFileStore

def recordBytes (network : Network) (block : Block) : List UInt8 :=
  network.p2pMagic ++ lengthPrefixed block.canonicalBytes

def highestFileNumber (store : BlockFileStore) : Option Nat :=
  store.files.keys.max.recBotCoe none some

def fileLength (store : BlockFileStore) (fileNumber : Nat) : Nat :=
  ((store.files.lookup fileNumber).getD []).length

/-- Write at the end of a file, which is created when there is none. -/
def extend (store : BlockFileStore) (fileNumber : Nat) (bytes : List UInt8) : BlockFileStore :=
  { store with
    files := store.files.insert fileNumber
      ((store.files.lookup fileNumber).getD [] ++ bytes) }

/-- The file that a record goes to: the highest one, or the next when the record
would make it too long. -/
def appendFileNumber (store : BlockFileStore) (minimum : Option Nat) (recordLength : Nat) :
    Nat :=
  let minimum := minimum.getD 0
  let fileNumber := max (store.highestFileNumber.getD minimum) minimum
  let offset := store.fileLength fileNumber
  if 0 < offset ∧ blockFileRotateBytes < offset + recordLength then fileNumber + 1
  else fileNumber

def appendBlockWithMinimumFileNumber (store : BlockFileStore) (block : Block)
    (minimum : Option Nat) (fault : Option AppendFault) :
    Except StorageError BlockFileLocation × BlockFileStore :=
  let payload := block.canonicalBytes
  let record := recordBytes store.network block
  let fileNumber := store.appendFileNumber minimum record.length
  if fault = some .refused then (.error .io, store)
  else if payload.length = 0 ∨ maxBlockSerializedBytes < payload.length then
    (.error .corruptData, store)
  else
    match fault with
    | some (.torn written) => (.error .io, store.extend fileNumber (record.take written))
    | _ => (.ok ⟨fileNumber, store.fileLength fileNumber, payload.length⟩,
        store.extend fileNumber record)

/-- A missing file and a file that ends too soon are both `io` errors. -/
def readBlock (store : BlockFileStore) (location : BlockFileLocation) :
    Except StorageError Block := do
  let file ← okOr (store.files.lookup location.fileNumber) StorageError.io
  let record := file.drop location.recordOffset
  rejectWhen (record.length < blockFileRecordOverheadBytes) StorageError.io
  rejectWhen (record.take 4 ≠ store.network.p2pMagic) .crossNetworkReplay
  let payloadLength := leValue ((record.drop 4).take 4)
  rejectWhen (payloadLength ≠ location.payloadLength ∨
    maxBlockSerializedBytes < payloadLength) .corruptData
  let payload := (record.drop blockFileRecordOverheadBytes).take payloadLength
  rejectWhen (payload.length < payloadLength) .io
  let block ← okOr (Block.fromCanonicalBytes payload) .corruptData
  rejectWhen (block.header.networkId ≠ store.network) .crossNetworkReplay
  pure block

def deleteFile (store : BlockFileStore) (fileNumber : Nat) : BlockFileStore :=
  { store with files := store.files.erase fileNumber }

def reset (store : BlockFileStore) : BlockFileStore :=
  { store with files := ∅ }

/-- The length of the record that the bytes begin with, when it is whole. -/
def leadingRecordLength (network : Network) (bytes : List UInt8) : Option Nat := do
  let payloadLength := leValue ((bytes.drop 4).take 4)
  let recordLength := blockFileRecordOverheadBytes + payloadLength
  if bytes.take 4 ≠ network.p2pMagic ∨ payloadLength = 0 ∨
      maxBlockSerializedBytes < payloadLength ∨ bytes.length < recordLength then none
  else
    let block ← Block.fromCanonicalBytes
      ((bytes.drop blockFileRecordOverheadBytes).take payloadLength)
    if block.header.networkId = network then some recordLength else none

/-- How many bytes the whole records at the beginning take; each takes at least one
byte, so that as many rounds as there are bytes are enough. -/
def goodLength (network : Network) : (rounds : Nat) → List UInt8 → Nat
  | 0, _ => 0
  | rounds + 1, bytes =>
      match leadingRecordLength network bytes with
      | none => 0
      | some length => length + goodLength network rounds (bytes.drop length)

/-- Cut the last file off behind its last whole record. -/
def repairLastFileTail (store : BlockFileStore) : BlockFileStore :=
  match store.highestFileNumber with
  | none => store
  | some fileNumber =>
      let file := (store.files.lookup fileNumber).getD []
      { store with
        files := store.files.insert fileNumber
          (file.take (goodLength store.network file.length file)) }

/-! What the files hold. -/

/-- The record of the block begins at the location. -/
def Holds (store : BlockFileStore) (location : BlockFileLocation) (block : Block) : Prop :=
  ∃ file rest, store.files.lookup location.fileNumber = some file ∧
    file.drop location.recordOffset = recordBytes store.network block ++ rest ∧
    location.payloadLength = block.canonicalBytes.length ∧
    block.canonicalBytes.length ≤ maxBlockSerializedBytes

/-- Every file is still there, possibly with more bytes at its end. -/
def Extends (store next : BlockFileStore) : Prop :=
  next.network = store.network ∧
    ∀ {fileNumber file}, store.files.lookup fileNumber = some file →
      ∃ more, next.files.lookup fileNumber = some (file ++ more)

section

variable {store next : BlockFileStore} {location : BlockFileLocation} {block found : Block}

theorem Extends.refl (store : BlockFileStore) : store.Extends store :=
  ⟨rfl, fun hfile => ⟨[], by rw [hfile, List.append_nil]⟩⟩

theorem Extends.trans {last : BlockFileStore} (hfirst : store.Extends next)
    (hsecond : next.Extends last) : store.Extends last := by
  refine ⟨hsecond.1.trans hfirst.1, fun hfile => ?_⟩
  obtain ⟨more, hmore⟩ := hfirst.2 hfile
  obtain ⟨most, hmost⟩ := hsecond.2 hmore
  exact ⟨more ++ most, by rw [hmost, List.append_assoc]⟩

theorem extends_extend (store : BlockFileStore) (fileNumber : Nat) (bytes : List UInt8) :
    store.Extends (store.extend fileNumber bytes) := by
  refine ⟨rfl, fun {number file} hfile => ?_⟩
  rcases eq_or_ne number fileNumber with rfl | hne
  · exact ⟨bytes, by simp [extend, hfile]⟩
  · exact ⟨[], by simp [extend, Finmap.lookup_insert_of_ne _ hne, hfile]⟩

theorem recordBytes_ne_nil (network : Network) (block : Block) :
    recordBytes network block ≠ [] := by
  simp [recordBytes, Network.p2pMagic]

theorem Holds.length_lt (hholds : store.Holds location block) :
    block.canonicalBytes.length < 2 ^ 32 := by
  obtain ⟨-, -, -, -, -, hsize⟩ := hholds
  exact Nat.lt_of_le_of_lt hsize (by decide)

theorem Holds.extends (hholds : store.Holds location block) (hextends : store.Extends next) :
    next.Holds location block := by
  obtain ⟨file, rest, hfile, hrecord, hlength, hsize⟩ := hholds
  obtain ⟨more, hmore⟩ := hextends.2 hfile
  have hoffset : location.recordOffset ≤ file.length := by
    by_contra hlong
    rw [List.drop_eq_nil_of_le (by omega)] at hrecord
    simp [recordBytes_ne_nil] at hrecord
  refine ⟨file ++ more, rest ++ more, hmore, ?_, hlength, hsize⟩
  rw [List.drop_append_of_le_length hoffset, hrecord, hextends.1, List.append_assoc]

theorem deleteFiles_network (store : BlockFileStore) (fileNumbers : List Nat) :
    (fileNumbers.foldl .deleteFile store).network = store.network := by
  induction fileNumbers generalizing store with
  | nil => rfl
  | cons fileNumber rest ih => exact ih (store.deleteFile fileNumber)

theorem Holds.deleteFiles {fileNumbers : List Nat} (hholds : store.Holds location block)
    (hkept : location.fileNumber ∉ fileNumbers) :
    (fileNumbers.foldl .deleteFile store).Holds location block := by
  induction fileNumbers generalizing store with
  | nil => exact hholds
  | cons fileNumber rest ih =>
      rw [List.mem_cons, not_or] at hkept
      obtain ⟨file, after, hfile, hrecord⟩ := hholds
      refine ih ⟨file, after, ?_, hrecord⟩ hkept.2
      rw [deleteFile, Finmap.lookup_erase_ne hkept.1, hfile]

theorem append_extends (store : BlockFileStore) (block : Block) (minimum : Option Nat)
    (fault : Option AppendFault) :
    store.Extends (store.appendBlockWithMinimumFileNumber block minimum fault).2 := by
  unfold appendBlockWithMinimumFileNumber
  dsimp only
  split_ifs
  · exact .refl store
  · exact .refl store
  · split
    · exact extends_extend store _ _
    · exact extends_extend store _ _

theorem append_holds {minimum : Option Nat} {fault : Option AppendFault}
    (happend : store.appendBlockWithMinimumFileNumber block minimum fault =
      (.ok location, next)) : next.Holds location block := by
  unfold appendBlockWithMinimumFileNumber at happend
  dsimp only at happend
  split_ifs at happend with hrefused hsize
  · cases happend
  · cases happend
  split at happend
  · cases happend
  · cases happend
    simp only [not_or, not_lt] at hsize
    refine ⟨_, [], Finmap.lookup_insert _, ?_, rfl, hsize.2⟩
    rw [List.append_nil, fileLength, List.drop_left]
    rfl

theorem Holds.readBlock_eq (hholds : store.Holds location block)
    (hread : store.readBlock location = .ok found) : found = block := by
  have hfits := hholds.length_lt
  obtain ⟨file, rest, hfile, hrecord, hlength, hsize⟩ := hholds
  simp only [readBlock, bind_eq_ok, okOr_eq_ok, hfile, rejectWhen_eq_ok, pure_eq_ok,
    Option.some.injEq, exists_eq_left', hrecord] at hread
  obtain ⟨-, -, -, -, -, hdeclared, -, -, decoded, hdecoded, -, -, rfl⟩ := hread
  simp only [decide_eq_false_iff_not, not_or, ne_eq, not_not] at hdeclared
  have hbody : (recordBytes store.network block ++ rest).drop blockFileRecordOverheadBytes =
      block.canonicalBytes ++ rest := by
    rw [recordBytes, lengthPrefixed, List.append_assoc, List.append_assoc, ← List.append_assoc]
    exact List.drop_left' (by simp [Network.p2pMagic, blockFileRecordOverheadBytes])
  rw [hbody, hdeclared.1, hlength, List.take_left] at hdecoded
  exact (Block.eq_of_canonicalBytes hfits (Block.fromCanonicalBytes_sound hdecoded)).symm

theorem readBlock_error {err : StorageError} (hread : store.readBlock location = .error err) :
    err = .io ∨ err = .corruptData ∨ err = .crossNetworkReplay := by
  simp only [readBlock, bind_eq_error, okOr_eq_error, rejectWhen_eq_error] at hread
  rcases hread with ⟨-, rfl⟩ | ⟨_, -, ⟨-, rfl⟩ | ⟨_, -, ⟨-, rfl⟩ | ⟨_, -, ⟨-, rfl⟩ | ⟨_, -,
    ⟨-, rfl⟩ | ⟨_, -, ⟨-, rfl⟩ | ⟨_, -, ⟨-, rfl⟩ | ⟨_, -, hread⟩⟩⟩⟩⟩⟩⟩
  all_goals first | simp | cases hread

end

end BlockFileStore

end Atho
