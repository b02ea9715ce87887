import Atho.Library.Codec

/-! Serializers: an encoder, the decoder that undoes it, and the values they are for. -/

open Decoder

/-- How values of a type are written and read; lengths must fit their eight bytes. -/
structure Serial (α : Type) where
  encode : α → List UInt8
  decode : Decoder α
  fits : α → Bool
  writes : Writes (fun value => fits value = true) decode encode

namespace Serial

variable {α β : Type}

def serialize (serial : Serial α) (value : α) : Option (List UInt8) :=
  if serial.fits value then some (serial.encode value) else none

/-- Bytes behind the value are ignored. -/
def deserialize (serial : Serial α) (bytes : List UInt8) : Option α :=
  (serial.decode bytes).map Prod.fst

theorem deserialize_serialize {serial : Serial α} {value : α} {bytes : List UInt8}
    (hbytes : serial.serialize value = some bytes) : serial.deserialize bytes = some value := by
  rw [serialize, Option.ite_none_right_eq_some, Option.some.injEq] at hbytes
  obtain ⟨hfits, rfl⟩ := hbytes
  have hread := serial.writes [] hfits
  rw [List.append_nil] at hread
  rw [deserialize, hread]
  rfl

/-- Bytes behind the value are an error. -/
def deserializeExact (serial : Serial α) (bytes : List UInt8) : Option α :=
  match serial.decode bytes with
  | some (value, []) => some value
  | _ => none

theorem deserializeExact_serialize {serial : Serial α} {value : α} {bytes : List UInt8}
    (hbytes : serial.serialize value = some bytes) :
    serial.deserializeExact bytes = some value := by
  rw [serialize, Option.ite_none_right_eq_some, Option.some.injEq] at hbytes
  obtain ⟨hfits, rfl⟩ := hbytes
  have hread := serial.writes [] hfits
  rw [List.append_nil] at hread
  rw [deserializeExact, hread]

def u32 : Serial UInt32 where
  encode := le32
  decode := Decoder.u32
  fits _ := true
  writes rest _ := writes_u32 rest trivial

def bytes (width : Nat) : Serial (Bytes width) where
  encode := Bytes.toList
  decode := array width
  fits _ := true
  writes rest _ := writes_array rest trivial

def pair (first : Serial α) (second : Serial β) : Serial (α × β) where
  encode value := first.encode value.1 ++ second.encode value.2
  decode := do
    let left ← first.decode
    let right ← second.decode
    pure (left, right)
  fits value := first.fits value.1 && second.fits value.2
  writes := by
    intro value rest hfits
    rw [Bool.and_eq_true] at hfits
    rw [List.append_assoc, bind_of_some (first.writes _ hfits.1),
      bind_of_some (second.writes _ hfits.2)]
    rfl

/-- Write a value as one of another type, which must be recognised when it is read. -/
def convert (serial : Serial α) (view : β → α) (recognise : α → Option β)
    (hview : ∀ value, recognise (view value) = some value) : Serial β where
  encode value := serial.encode (view value)
  decode := do
    let value ← serial.decode
    lift (recognise value)
  fits value := serial.fits (view value)
  writes := by
    intro value rest hfits
    rw [bind_of_some (serial.writes _ hfits)]
    exact lift_eq_some.mpr ⟨hview value, rfl⟩

def option (serial : Serial α) : Serial (Option α) where
  encode
    | none => [0]
    | some value => 1 :: serial.encode value
  decode := do
    let tag ← byte
    if tag = 0 then pure none
    else do
      Decoder.guard (tag = 1)
      let value ← serial.decode
      pure (some value)
  fits value := value.all serial.fits
  writes := by
    rintro (_ | value) rest hfits
    · rfl
    · rw [List.cons_append, bind_of_some (byte_eq_some.mpr rfl), if_neg (by decide),
        bind_of_some (guard_of _ rfl), bind_of_some (serial.writes rest hfits)]
      rfl

/-- Items behind their number. -/
def list (serial : Serial α) : Serial (List α) where
  encode values := le64 (UInt64.ofNat values.length) ++ values.flatMap serial.encode
  decode := do
    let count ← u64
    times count.toNat serial.decode
  fits values := values.length < 2 ^ 64 && values.all serial.fits
  writes := by
    intro values rest hfits
    rw [Bool.and_eq_true, decide_eq_true_iff, List.all_eq_true] at hfits
    rw [List.append_assoc, bind_of_some (writes_u64 _ trivial),
      UInt64.toNat_ofNat_of_lt' hfits.1]
    exact writes_times serial.writes rest hfits.2

def byte : Serial UInt8 where
  encode value := [value]
  decode := Decoder.byte
  fits _ := true
  writes _ _ := byte_eq_some.mpr rfl

theorem fromUTF8?_toByteArray (text : String) :
    String.fromUTF8? ⟨text.toByteArray.data.toList.toArray⟩ = some text := by
  have hvalid : (ByteArray.mk text.toByteArray.data.toList.toArray) = text.toByteArray := by
    simp
  rw [hvalid, String.fromUTF8?, dif_pos text.isValidUTF8]
  rfl

def string : Serial String :=
  byte.list.convert (fun text => text.toByteArray.data.toList)
    (fun bytes => String.fromUTF8? ⟨bytes.toArray⟩) fromUTF8?_toByteArray

/-! Numbers of variable length: one byte, or a tag and the shortest of two, four and
eight bytes that holds the number. Longer forms than necessary are read as well. -/

def varint : Serial Nat where
  encode value :=
    if value < 251 then [UInt8.ofNat value]
    else if value < 2 ^ 16 then 251 :: le16 (UInt16.ofNat value)
    else if value < 2 ^ 32 then 252 :: le32 (UInt32.ofNat value)
    else 253 :: le64 (UInt64.ofNat value)
  decode := do
    let tag ← Decoder.byte
    if tag.toNat < 251 then pure tag.toNat
    else if tag = 251 then do
      let value ← Decoder.u16
      pure value.toNat
    else if tag = 252 then do
      let value ← Decoder.u32
      pure value.toNat
    else if tag = 253 then do
      let value ← Decoder.u64
      pure value.toNat
    else Decoder.lift none
  fits value := value < 2 ^ 64
  writes := by
    intro value rest hfits
    rw [decide_eq_true_iff] at hfits
    dsimp only
    split_ifs with hbyte hshort hlong
    · have hvalue : (UInt8.ofNat value).toNat = value :=
        UInt8.toNat_ofNat_of_lt' (Nat.lt_trans hbyte (by decide))
      rw [List.singleton_append, bind_of_some (byte_eq_some.mpr rfl), hvalue, if_pos hbyte]
      rfl
    · rw [List.cons_append, bind_of_some (byte_eq_some.mpr rfl), if_neg (by decide),
        if_pos rfl, bind_of_some (writes_u16 _ trivial), UInt16.toNat_ofNat_of_lt' hshort]
      rfl
    · rw [List.cons_append, bind_of_some (byte_eq_some.mpr rfl), if_neg (by decide),
        if_neg (by decide), if_pos rfl, bind_of_some (writes_u32 _ trivial),
        UInt32.toNat_ofNat_of_lt' hlong]
      rfl
    · rw [List.cons_append, bind_of_some (byte_eq_some.mpr rfl), if_neg (by decide),
        if_neg (by decide), if_neg (by decide), if_pos rfl, bind_of_some (writes_u64 _ trivial),
        UInt64.toNat_ofNat_of_lt' hfits]
      rfl

/-- Items behind their number, which has variable length. -/
def varlist (serial : Serial α) : Serial (List α) where
  encode values := varint.encode values.length ++ values.flatMap serial.encode
  decode := do
    let count ← varint.decode
    times count serial.decode
  fits values := varint.fits values.length && values.all serial.fits
  writes := by
    intro values rest hfits
    rw [Bool.and_eq_true, List.all_eq_true] at hfits
    rw [List.append_assoc, bind_of_some (varint.writes _ hfits.1)]
    exact writes_times serial.writes rest hfits.2

/-- A machine number; one that does not fit its type is refused when it is read. -/
def machine (toNat : α → Nat) (ofNat : Nat → α) (size : Nat)
    (hofNat : ∀ value, ofNat (toNat value) = value) (hlt : ∀ value, toNat value < size) :
    Serial α :=
  varint.convert toNat (fun value => if value < size then some (ofNat value) else none)
    fun value => by rw [if_pos (hlt value), hofNat]

def var16 : Serial UInt16 :=
  machine UInt16.toNat UInt16.ofNat (2 ^ 16) (fun _ => UInt16.ofNat_toNat) UInt16.toNat_lt

def var32 : Serial UInt32 :=
  machine UInt32.toNat UInt32.ofNat (2 ^ 32) (fun _ => UInt32.ofNat_toNat) UInt32.toNat_lt

def var64 : Serial UInt64 :=
  machine UInt64.toNat UInt64.ofNat (2 ^ 64) (fun _ => UInt64.ofNat_toNat) UInt64.toNat_lt

/-- A signed number, with the sign in the lowest bit. -/
def zigzag : Serial Int64 :=
  varint.convert
    (fun value =>
      if 0 ≤ value.toInt then 2 * value.toInt.toNat else 2 * (-value.toInt).toNat - 1)
    (fun value => some (Int64.ofInt
      (if value % 2 = 0 then (value / 2 : Nat) else -((value + 1) / 2 : Nat))))
    (by
      intro value
      rw [Option.some.injEq]
      refine (congrArg Int64.ofInt ?_).trans (Int64.ofInt_toInt value)
      split_ifs <;> omega)

def bool : Serial Bool :=
  byte.convert (fun value => if value then 1 else 0)
    (fun value => if value = 0 then some false else if value = 1 then some true else none)
    (by decide)

def text : Serial String :=
  byte.varlist.convert (fun text => text.toByteArray.data.toList)
    (fun bytes => String.fromUTF8? ⟨bytes.toArray⟩) fromUTF8?_toByteArray

/-- The variants of an enumeration, written as their positions. -/
def enumeration [DecidableEq α] (variants : List α) (hall : ∀ value, value ∈ variants) :
    Serial α :=
  varint.convert variants.idxOf (fun index => variants[index]?) fun value => by
    rw [List.getElem?_idxOf (hall value)]

end Serial
