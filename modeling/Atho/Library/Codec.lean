import Atho.Library.Bytes

/-! Machine integers as bytes, decoders that read from the front of a byte
string, and encodings that can be cut off unambiguously from what follows. -/

def le16 (value : UInt16) : List UInt8 := leBytes 2 value.toNat

def le32 (value : UInt32) : List UInt8 := leBytes 4 value.toNat

def le64 (value : UInt64) : List UInt8 := leBytes 8 value.toNat

def be32 (value : UInt32) : List UInt8 := beBytes 4 value.toNat

def be64 (value : UInt64) : List UInt8 := beBytes 8 value.toNat

/-- The number a little-endian byte string denotes. -/
def leValue : List UInt8 → Nat
  | [] => 0
  | byte :: rest => byte.toNat + 256 * leValue rest

@[simp] theorem length_le16 (value : UInt16) : (le16 value).length = 2 := by
  simp [le16]

@[simp] theorem length_le32 (value : UInt32) : (le32 value).length = 4 := by
  simp [le32]

@[simp] theorem length_le64 (value : UInt64) : (le64 value).length = 8 := by
  simp [le64]

theorem le16_injective : Function.Injective le16 := fun _ _ heq =>
  UInt16.toNat_inj.mp (leBytes_injective (UInt16.toNat_lt _) (UInt16.toNat_lt _) heq)

theorem le32_injective : Function.Injective le32 := fun _ _ heq =>
  UInt32.toNat_inj.mp (leBytes_injective (UInt32.toNat_lt _) (UInt32.toNat_lt _) heq)

theorem le64_injective : Function.Injective le64 := fun _ _ heq =>
  UInt64.toNat_inj.mp (leBytes_injective (UInt64.toNat_lt _) (UInt64.toNat_lt _) heq)

theorem leValue_lt (bytes : List UInt8) : leValue bytes < 256 ^ bytes.length := by
  induction bytes with
  | nil => simp [leValue]
  | cons byte rest ih =>
      have hbyte := byte.toNat_lt
      simp only [leValue, List.length_cons, Nat.pow_succ]
      omega

theorem leBytes_leValue (bytes : List UInt8) :
    leBytes bytes.length (leValue bytes) = bytes := by
  induction bytes with
  | nil => rfl
  | cons byte rest ih =>
      have hbyte := byte.toNat_lt
      have hlow : UInt8.ofNat (byte.toNat + 256 * leValue rest) = byte := by
        apply UInt8.toNat_inj.mp
        simp only [UInt8.toNat_ofNat']
        omega
      have hhigh : (byte.toNat + 256 * leValue rest) / 256 = leValue rest := by
        omega
      simp only [leValue, List.length_cons, leBytes, hlow, hhigh, ih]

theorem leValue_leBytes {width value : Nat} (hlt : value < 256 ^ width) :
    leValue (leBytes width value) = value := by
  have hbytes := leBytes_leValue (leBytes width value)
  have hvalue := leValue_lt (leBytes width value)
  rw [length_leBytes] at hbytes hvalue
  exact leBytes_injective hvalue hlt hbytes

/-! Decoders. -/

abbrev Decoder := StateT (List UInt8) Option

namespace Decoder

/-- Read exactly `count` bytes. -/
def take (count : Nat) : Decoder (List UInt8) := fun input =>
  if count ≤ input.length then some (input.take count, input.drop count) else none

/-- The number of bytes not read yet. -/
def remaining : Decoder Nat := fun input => some (input.length, input)

/-- Fail unless the condition holds. -/
def guard (condition : Prop) [Decidable condition] : Decoder Unit := fun input =>
  if condition then some ((), input) else none

def array (width : Nat) : Decoder (Bytes width) := fun input =>
  if hle : width ≤ input.length then
    some (⟨input.take width, by simp [hle]⟩, input.drop width)
  else none

def byte : Decoder UInt8
  | [] => none
  | head :: rest => some (head, rest)

def u16 : Decoder UInt16 := do
  let bytes ← take 2
  pure (UInt16.ofNat (leValue bytes))

def u32 : Decoder UInt32 := do
  let bytes ← take 4
  pure (UInt32.ofNat (leValue bytes))

def u64 : Decoder UInt64 := do
  let bytes ← take 8
  pure (UInt64.ofNat (leValue bytes))

/-- Go on with a value that was found elsewhere. -/
def lift (found : Option α) : Decoder α := fun input => found.map (·, input)

/-- Read a byte string behind its length. -/
def sized : Decoder (List UInt8) := do
  let length ← u32
  take length.toNat

/-- Read `count` items one after another. -/
def times (count : Nat) (item : Decoder α) : Decoder (List α) :=
  match count with
  | 0 => pure []
  | count + 1 => do
      let head ← item
      let tail ← times count item
      pure (head :: tail)

/-- Read items behind their number, which the bytes left must be able to hold when
an item takes `least` bytes or more. -/
def counted (least : Nat) (item : Decoder α) : Decoder (List α) := do
  let count ← u32
  let remaining ← remaining
  guard (count.toNat ≤ remaining / least)
  times count.toNat item

theorem bind_eq_some {first : Decoder α} {next : α → Decoder β}
    {input rest : List UInt8} {result : β} :
    (first >>= next) input = some (result, rest) ↔
      ∃ value middle, first input = some (value, middle) ∧
        next value middle = some (result, rest) := by
  change (first input).bind (fun pair => next pair.1 pair.2) = _ ↔ _
  simp [Option.bind_eq_some_iff]

theorem pure_eq_some {input rest : List UInt8} {value result : α} :
    (pure value : Decoder α) input = some (result, rest) ↔
      value = result ∧ input = rest := by
  change some (value, input) = _ ↔ _
  simp

theorem guard_eq_some {condition : Prop} [Decidable condition]
    {input rest : List UInt8} {result : Unit} :
    guard condition input = some (result, rest) ↔ condition ∧ input = rest := by
  unfold guard
  split <;> simp_all

theorem remaining_eq_some {input rest : List UInt8} {count : Nat} :
    remaining input = some (count, rest) ↔ input.length = count ∧ input = rest := by
  simp [remaining]

theorem take_eq_some {count : Nat} {input bytes rest : List UInt8} :
    take count input = some (bytes, rest) ↔
      input = bytes ++ rest ∧ bytes.length = count := by
  unfold take
  constructor
  · intro hread
    split at hread
    · rename_i hle
      cases hread
      simp [hle]
    · cases hread
  · rintro ⟨rfl, rfl⟩
    simp

theorem array_eq_some {width : Nat} {input rest : List UInt8} {bytes : Bytes width} :
    array width input = some (bytes, rest) ↔ input = bytes.toList ++ rest := by
  unfold array
  constructor
  · intro hread
    split at hread
    · cases hread
      simp
    · cases hread
  · rintro rfl
    have htake : (bytes.toList ++ rest).take width = bytes.toList :=
      List.take_left' bytes.length_toList
    have hdrop : (bytes.toList ++ rest).drop width = rest :=
      List.drop_left' bytes.length_toList
    simp [hdrop, htake]

theorem byte_eq_some {input rest : List UInt8} {value : UInt8} :
    byte input = some (value, rest) ↔ input = value :: rest := by
  cases input <;> simp [byte]

theorem lift_eq_some {found : Option α} {input rest : List UInt8} {value : α} :
    lift found input = some (value, rest) ↔ found = some value ∧ input = rest := by
  cases found <;> simp [lift]

/-- Every success of the decoder consumed the encoding of its result. -/
def Reads (decoder : Decoder α) (encode : α → List UInt8) : Prop :=
  ∀ {input rest value}, decoder input = some (value, rest) →
    input = encode value ++ rest

theorem reads_take {width : Nat} {ofNat : Nat → α} {encode : α → List UInt8}
    (hencode : ∀ value < 256 ^ width, encode (ofNat value) = leBytes width value) :
    Reads (do
      let bytes ← take width
      pure (ofNat (leValue bytes))) encode := by
  intro input rest value hread
  obtain ⟨bytes, middle, htake, hvalue⟩ := bind_eq_some.mp hread
  obtain ⟨rfl, rfl⟩ := take_eq_some.mp htake
  obtain ⟨rfl, rfl⟩ := pure_eq_some.mp hvalue
  rw [hencode _ (leValue_lt bytes), leBytes_leValue]

theorem reads_u16 : Reads u16 le16 :=
  reads_take fun value hlt => by rw [le16, UInt16.toNat_ofNat_of_lt' hlt]

theorem reads_u32 : Reads u32 le32 :=
  reads_take fun value hlt => by rw [le32, UInt32.toNat_ofNat_of_lt' hlt]

theorem reads_u64 : Reads u64 le64 :=
  reads_take fun value hlt => by rw [le64, UInt64.toNat_ofNat_of_lt' hlt]

theorem reads_times {item : Decoder α} {encode : α → List UInt8}
    (hitem : Reads item encode) (count : Nat) :
    Reads (times count item) (List.flatMap encode) := by
  induction count with
  | zero =>
      intro input rest value hread
      obtain ⟨rfl, rfl⟩ := pure_eq_some.mp hread
      rfl
  | succ count ih =>
      intro input rest value hread
      obtain ⟨head, middle, hhead, hread⟩ := bind_eq_some.mp hread
      obtain ⟨tail, last, htail, hread⟩ := bind_eq_some.mp hread
      obtain ⟨rfl, rfl⟩ := pure_eq_some.mp hread
      rw [hitem hhead, ih htail]
      simp

/-- The decoder gives back every valid value whose encoding starts the input. -/
def Writes (valid : α → Prop) (decoder : Decoder α) (encode : α → List UInt8) : Prop :=
  ∀ {value} rest, valid value → decoder (encode value ++ rest) = some (value, rest)

theorem bind_of_some {first : Decoder α} {next : α → Decoder β} {input middle : List UInt8}
    {value : α} (hfirst : first input = some (value, middle)) :
    (first >>= next) input = next value middle := by
  change (first input).bind (fun pair => next pair.1 pair.2) = _
  rw [hfirst, Option.bind_some]

theorem guard_of {condition : Prop} [Decidable condition] (input : List UInt8)
    (hcondition : condition) : guard condition input = some ((), input) := by
  rw [guard, if_pos hcondition]

theorem writes_take {width : Nat} {toNat : α → Nat} {ofNat : Nat → α}
    {encode : α → List UInt8} (hencode : ∀ value, encode value = leBytes width (toNat value))
    (hlt : ∀ value, toNat value < 256 ^ width) (hof : ∀ value, ofNat (toNat value) = value) :
    Writes (fun _ => True) (do
      let bytes ← take width
      pure (ofNat (leValue bytes))) encode := by
  intro value rest _
  have hwidth : (encode value).length = width := by simp [hencode]
  rw [bind_of_some (take_eq_some.mpr ⟨rfl, hwidth⟩), hencode, leValue_leBytes (hlt value), hof]
  rfl

theorem writes_u16 : Writes (fun _ => True) u16 le16 :=
  writes_take (fun _ => rfl) UInt16.toNat_lt fun _ => UInt16.ofNat_toNat

theorem writes_u32 : Writes (fun _ => True) u32 le32 :=
  writes_take (fun _ => rfl) UInt32.toNat_lt fun _ => UInt32.ofNat_toNat

theorem writes_u64 : Writes (fun _ => True) u64 le64 :=
  writes_take (fun _ => rfl) UInt64.toNat_lt fun _ => UInt64.ofNat_toNat

theorem writes_array {width : Nat} :
    Writes (fun _ => True) (array width) (@Bytes.toList width) :=
  fun _ _ => array_eq_some.mpr rfl

theorem u32_count {count : Nat} (rest : List UInt8) (hcount : count < 2 ^ 32) :
    ∃ read : UInt32, u32 (le32 (UInt32.ofNat count) ++ rest) = some (read, rest) ∧
      read.toNat = count :=
  ⟨_, writes_u32 rest trivial, UInt32.toNat_ofNat_of_lt' hcount⟩

theorem writes_times {item : Decoder α} {encode : α → List UInt8} {valid : α → Prop}
    (hitem : Writes valid item encode) {values : List α} (rest : List UInt8)
    (hvalid : ∀ value ∈ values, valid value) :
    times values.length item (values.flatMap encode ++ rest) = some (values, rest) := by
  induction values with
  | nil => rfl
  | cons head tail ih =>
      obtain ⟨hhead, htail⟩ := List.forall_mem_cons.mp hvalid
      rw [List.length_cons, List.flatMap_cons, List.append_assoc, times,
        bind_of_some (hitem _ hhead), bind_of_some (ih htail)]
      rfl

theorem times_length {item : Decoder α} {count : Nat} {input rest : List UInt8}
    {values : List α} (hread : times count item input = some (values, rest)) :
    values.length = count := by
  induction count generalizing input values with
  | zero =>
      obtain ⟨rfl, rfl⟩ := pure_eq_some.mp hread
      rfl
  | succ count ih =>
      obtain ⟨head, middle, _, hread⟩ := bind_eq_some.mp hread
      obtain ⟨tail, last, htail, hread⟩ := bind_eq_some.mp hread
      obtain ⟨rfl, rfl⟩ := pure_eq_some.mp hread
      simp [ih htail]

end Decoder

/-! Encodings. -/

/-- Byte strings written behind their length. -/
def lengthPrefixed (bytes : List UInt8) : List UInt8 :=
  le32 (UInt32.ofNat bytes.length) ++ bytes

/-- Items written one after another behind their number. -/
def countPrefixed (encode : α → List UInt8) (items : List α) : List UInt8 :=
  le32 (UInt32.ofNat items.length) ++ items.flatMap encode

namespace Decoder

theorem reads_sized : Reads sized lengthPrefixed := by
  intro input rest bytes hread
  obtain ⟨length, middle, hlength, htake⟩ := bind_eq_some.mp hread
  obtain ⟨rfl, hbytes⟩ := take_eq_some.mp htake
  rw [reads_u32 hlength, lengthPrefixed, hbytes, UInt32.ofNat_toNat, List.append_assoc]

theorem reads_counted {item : Decoder α} {encode : α → List UInt8} (least : Nat)
    (hitem : Reads item encode) : Reads (counted least item) (countPrefixed encode) := by
  intro input rest values hread
  obtain ⟨count, afterCount, hcount, hread⟩ := bind_eq_some.mp hread
  obtain ⟨remaining, _, hremaining, hread⟩ := bind_eq_some.mp hread
  obtain ⟨-, rfl⟩ := remaining_eq_some.mp hremaining
  obtain ⟨_, _, hguard, hread⟩ := bind_eq_some.mp hread
  obtain ⟨-, rfl⟩ := guard_eq_some.mp hguard
  rw [reads_u32 hcount, reads_times hitem _ hread, countPrefixed, times_length hread,
    UInt32.ofNat_toNat, List.append_assoc]

end Decoder

theorem length_flatMap_ge {encode : α → List UInt8} {least : Nat} {items : List α}
    (hleast : ∀ item ∈ items, least ≤ (encode item).length) :
    items.length * least ≤ (items.flatMap encode).length := by
  induction items with
  | nil => simp
  | cons head tail ih =>
      obtain ⟨hhead, htail⟩ := List.forall_mem_cons.mp hleast
      have hrest := ih htail
      rw [List.flatMap_cons, List.length_append, List.length_cons, Nat.succ_mul]
      omega

namespace Decoder

theorem writes_sized : Writes (fun bytes => bytes.length < 2 ^ 32) sized lengthPrefixed := by
  intro bytes rest hlength
  obtain ⟨read, hread, hcount⟩ := u32_count (bytes ++ rest) hlength
  rw [sized, lengthPrefixed, List.append_assoc, bind_of_some hread, hcount]
  exact take_eq_some.mpr ⟨rfl, rfl⟩

theorem writes_counted {item : Decoder α} {encode : α → List UInt8} {valid : α → Prop}
    {least : Nat} (hpos : 0 < least) (hleast : ∀ value, least ≤ (encode value).length)
    (hitem : Writes valid item encode) :
    Writes (fun items => items.length < 2 ^ 32 ∧ ∀ value ∈ items, valid value)
      (counted least item) (countPrefixed encode) := by
  rintro items rest ⟨hlength, hvalid⟩
  obtain ⟨read, hread, hcount⟩ := u32_count (items.flatMap encode ++ rest) hlength
  have hheld : items.length ≤ (items.flatMap encode ++ rest).length / least := by
    have hbytes := @length_flatMap_ge _ encode least items fun value _ => hleast value
    rw [Nat.le_div_iff_mul_le hpos, List.length_append]
    omega
  rw [counted, countPrefixed, List.append_assoc, bind_of_some hread,
    bind_of_some (remaining_eq_some.mpr ⟨rfl, rfl⟩), hcount, bind_of_some (guard_of _ hheld)]
  exact writes_times hitem rest hvalid

end Decoder

/-- Two valid encodings that start one byte string are the same encoding. -/
def Unambiguous (valid : α → Prop) (encode : α → List UInt8) : Prop :=
  ∀ {left right : α} {after after' : List UInt8}, valid left → valid right →
    encode left ++ after = encode right ++ after' →
      left = right ∧ after = after'

theorem unambiguous_of_length {encode : α → List UInt8} {width : Nat}
    (hlength : ∀ value, (encode value).length = width)
    (hinjective : Function.Injective encode) :
    Unambiguous (fun _ => True) encode := by
  intro left right after after' _ _ heq
  obtain ⟨hencode, hafter⟩ :=
    List.append_inj heq ((hlength left).trans (hlength right).symm)
  exact ⟨hinjective hencode, hafter⟩

theorem unambiguous_le16 : Unambiguous (fun _ => True) le16 :=
  unambiguous_of_length length_le16 le16_injective

theorem unambiguous_le32 : Unambiguous (fun _ => True) le32 :=
  unambiguous_of_length length_le32 le32_injective

theorem unambiguous_le64 : Unambiguous (fun _ => True) le64 :=
  unambiguous_of_length length_le64 le64_injective

theorem unambiguous_bytes {width : Nat} :
    Unambiguous (fun _ => True) (@Bytes.toList width) :=
  unambiguous_of_length Bytes.length_toList fun _ _ => Bytes.ext

theorem count_eq_of_le32 {left right : Nat} {after after' : List UInt8}
    (hleft : left < 2 ^ 32) (hright : right < 2 ^ 32)
    (heq : le32 (UInt32.ofNat left) ++ after =
      le32 (UInt32.ofNat right) ++ after') :
    left = right ∧ after = after' := by
  obtain ⟨hcount, hafter⟩ := unambiguous_le32 trivial trivial heq
  refine ⟨?_, hafter⟩
  have := congrArg UInt32.toNat hcount
  rwa [UInt32.toNat_ofNat_of_lt' hleft, UInt32.toNat_ofNat_of_lt' hright] at this

theorem unambiguous_lengthPrefixed :
    Unambiguous (fun bytes => bytes.length < 2 ^ 32) lengthPrefixed := by
  intro left right after after' hleft hright heq
  simp only [lengthPrefixed, List.append_assoc] at heq
  obtain ⟨hlength, hbytes⟩ := count_eq_of_le32 hleft hright heq
  exact List.append_inj hbytes hlength

theorem Unambiguous.flatMap {encode : α → List UInt8} {valid : α → Prop}
    (hitem : Unambiguous valid encode) {left right : List α}
    {after after' : List UInt8} (hlength : left.length = right.length)
    (hleft : ∀ item ∈ left, valid item) (hright : ∀ item ∈ right, valid item)
    (heq : left.flatMap encode ++ after = right.flatMap encode ++ after') :
    left = right ∧ after = after' := by
  induction left generalizing right with
  | nil =>
      obtain rfl : right = [] := List.length_eq_zero_iff.mp hlength.symm
      exact ⟨rfl, heq⟩
  | cons head tail ih =>
      cases right with
      | nil => simp at hlength
      | cons head' tail' =>
          simp only [List.flatMap_cons, List.append_assoc] at heq
          obtain ⟨rfl, hrest⟩ :=
            hitem (hleft head (by simp)) (hright head' (by simp)) heq
          obtain ⟨rfl, hafter⟩ := ih (by simpa using hlength)
            (fun item hmem => hleft item (by simp [hmem]))
            (fun item hmem => hright item (by simp [hmem])) hrest
          exact ⟨rfl, hafter⟩

theorem unambiguous_countPrefixed {encode : α → List UInt8} {valid : α → Prop}
    (hitem : Unambiguous valid encode) :
    Unambiguous (fun items => items.length < 2 ^ 32 ∧ ∀ item ∈ items, valid item)
      (countPrefixed encode) := by
  intro left right after after' hleft hright heq
  simp only [countPrefixed, List.append_assoc] at heq
  obtain ⟨hlength, hitems⟩ := count_eq_of_le32 hleft.1 hright.1 heq
  exact hitem.flatMap hlength hleft.2 hright.2 hitems
