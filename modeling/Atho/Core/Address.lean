import Atho.Core.Network
import Atho.Library.Radix

/-! Visible addresses: a payment digest as text with a network symbol and a checksum. -/

namespace Atho

inductive AddressError where
  | invalidAlphabet
  | invalidPrefix
  | invalidChecksum
  deriving DecidableEq

def addressChecksumBytes : Nat := 4
def addressChecksumBase56Chars : Nat := 6

/-- The alphabet has 54 characters, in spite of its name. -/
def base56Alphabet : List Char :=
  "23456789ABCDEFGHJKMNPQRSTUVWXYZabcdefghjkmnpqrstuvwxyz".toList

def Network.visiblePrefix : Network → Char
  | mainnet => 'A'
  | testnet => 'T'
  | regnet => 'R'
  | prunetest => 'P'

/-! Texts by bytes. -/

def utf8Length (text : List Char) : Nat :=
  (text.map Char.utf8Size).sum

/-- A text cut at a byte offset; none where the offset is past the end or inside a
character, which is where slicing panics. -/
def splitAtByte (offset : Nat) : List Char → Option (List Char × List Char)
  | [] => if offset = 0 then some ([], []) else none
  | char :: rest =>
      if offset = 0 then some ([], char :: rest)
      else if offset < char.utf8Size then none
      else (splitAtByte (offset - char.utf8Size) rest).map fun parts =>
        (char :: parts.1, parts.2)

def byteSlice (text : List Char) (start stop : Nat) : Option (List Char) := do
  let upper ← splitAtByte stop text
  let lower ← splitAtByte start upper.1
  some lower.2

/-! Base conversion. A result of none is a panic. -/

def base56Value (char : Char) : Option Nat :=
  base56Alphabet.findIdx? (· = char)

def base56EncodeBytes (data : List UInt8) : Option (List Char) :=
  if data.isEmpty then some [base56Alphabet.head?.getD '2']
  else
    let digits := Radix.convert base56Alphabet.length 256 (data.map UInt8.toNat)
    digits.reverse.mapM fun digit => base56Alphabet[digit]?

def base56EncodeFixedBytes (data : List UInt8) (width : Nat) : Option (List Char) := do
  let encoded ← base56EncodeBytes data
  if width ≤ encoded.length then some encoded
  else some (List.replicate (width - encoded.length) (base56Alphabet.head?.getD '2') ++ encoded)

/-- The bytes have the highest one first; the loop over them runs from the last. -/
def base56DecodeLoop : (bytes : List Nat) → List Char → Except AddressError (List Nat)
  | bytes, [] => .ok bytes
  | bytes, char :: rest => do
      let value ← okOr (base56Value char) .invalidAlphabet
      base56DecodeLoop
        (Radix.mulAdd 256 base56Alphabet.length value bytes.reverse).reverse rest

def base56DecodeToBytes (text : List Char) (expectedLen : Nat) :
    Except AddressError (List UInt8) := do
  rejectWhen text.isEmpty .invalidAlphabet
  let bytes ← base56DecodeLoop [0] text
  let bytes := bytes.map UInt8.ofNat
  rejectWhen (expectedLen < bytes.length) .invalidChecksum
  if bytes.length < expectedLen then
    pure (List.replicate (expectedLen - bytes.length) 0 ++ bytes)
  else pure bytes

/-! Addresses. -/

def addressChecksum (crypto : Crypto) (visible : Char) (body : List Char) : Bytes 4 :=
  (crypto.sha3_256 (UInt8.ofNat visible.toNat ::
    body.flatMap String.utf8EncodeChar)).truncate 4 (by decide)

def isVisiblePrefix (char : Char) : Bool :=
  ['A', 'T', 'R', 'P'].contains char

def encodeBase56Address (crypto : Crypto) (network : Network) (digest : Bytes 32) :
    Option String := do
  let visible := network.visiblePrefix
  let body ← base56EncodeBytes digest.toList
  let checksum := addressChecksum crypto visible body
  let checksumBody ← base56EncodeFixedBytes checksum.toList addressChecksumBase56Chars
  some (String.ofList (visible :: (body ++ checksumBody)))

def networkOfVisiblePrefix : Char → Option Network
  | 'A' => some .mainnet
  | 'T' => some .testnet
  | 'R' => some .regnet
  | 'P' => some .prunetest
  | _ => none

/-- What decoding does after the address is cut into its parts. -/
def decodeAddressParts (crypto : Crypto) (visible : Char) (body checksumBody : List Char) :
    Option (Except AddressError (Bytes 32 × Network)) :=
  match networkOfVisiblePrefix visible with
  | none => some (.error .invalidPrefix)
  | some network => do
      let expectedChecksumBody ← base56EncodeFixedBytes
        (addressChecksum crypto visible body).toList addressChecksumBase56Chars
      if checksumBody ≠ expectedChecksumBody then some (.error .invalidChecksum)
      else match base56DecodeToBytes body addressDigestBytes with
        | .error err => some (.error err)
        | .ok decoded =>
            -- copying into the digest panics on any other length
            if hlength : decoded.length = 32 then some (.ok (⟨decoded, hlength⟩, network))
            else none

/-- Decoding, with none for a panic. -/
def decodeBase56Address (crypto : Crypto) (address : String) :
    Option (Except AddressError (Bytes 32 × Network)) :=
  let text := address.toList
  match text.head? with
  | none => some (.error .invalidPrefix)
  | some visible =>
      if !isVisiblePrefix visible then some (.error .invalidPrefix)
      else if utf8Length text ≤ 1 + addressChecksumBase56Chars then
        some (.error .invalidChecksum)
      else do
        let cut := utf8Length text - addressChecksumBase56Chars
        let body ← byteSlice text 1 cut
        let checksumBody ← byteSlice text cut (utf8Length text)
        decodeAddressParts crypto visible body checksumBody

/-! Cutting texts. -/

theorem utf8Length_cons (char : Char) (text : List Char) :
    utf8Length (char :: text) = char.utf8Size + utf8Length text := by
  simp [utf8Length]

theorem utf8Length_append (before after : List Char) :
    utf8Length (before ++ after) = utf8Length before + utf8Length after := by
  simp [utf8Length]

theorem splitAtByte_append (before after : List Char) :
    splitAtByte (utf8Length before) (before ++ after) = some (before, after) := by
  induction before with
  | nil => cases after <;> rfl
  | cons char rest ih =>
      have hsize := char.utf8Size_pos
      rw [utf8Length_cons, List.cons_append, splitAtByte, if_neg (by omega), if_neg (by omega),
        Nat.add_sub_cancel_left, ih]
      rfl

theorem append_of_splitAtByte {offset : Nat} {text : List Char} {parts : List Char × List Char}
    (hsplit : splitAtByte offset text = some parts) :
    text = parts.1 ++ parts.2 ∧ utf8Length parts.1 = offset := by
  induction text generalizing offset parts with
  | nil =>
      rw [splitAtByte] at hsplit
      split at hsplit
      · next hzero =>
          cases hsplit
          exact ⟨rfl, hzero.symm⟩
      · cases hsplit
  | cons char rest ih =>
      rw [splitAtByte] at hsplit
      split at hsplit
      · next hzero =>
          cases hsplit
          exact ⟨rfl, hzero.symm⟩
      · split at hsplit
        · cases hsplit
        · next hinside =>
            obtain ⟨tail, htail, rfl⟩ := Option.map_eq_some_iff.mp hsplit
            obtain ⟨rfl, hlength⟩ := ih htail
            refine ⟨rfl, ?_⟩
            rw [utf8Length_cons, hlength]
            omega

/-- An offset between two characters, at the start or at the end. -/
def IsCharBoundary (text : List Char) (offset : Nat) : Prop :=
  ∃ before after, text = before ++ after ∧ utf8Length before = offset

theorem splitAtByte_isSome_iff {text : List Char} {offset : Nat} :
    (splitAtByte offset text).isSome ↔ IsCharBoundary text offset := by
  constructor
  · intro hsome
    obtain ⟨parts, hsplit⟩ := Option.isSome_iff_exists.mp hsome
    exact ⟨parts.1, parts.2, append_of_splitAtByte hsplit⟩
  · rintro ⟨before, after, rfl, rfl⟩
    rw [splitAtByte_append]
    rfl

/-! Numbers as texts. -/

def base56Symbol (digit : Nat) : Char :=
  base56Alphabet[digit]?.getD '2'

/-- The text of a number, without the first symbol in front. -/
def base56Text (number : Nat) : List Char :=
  (Radix.canonical base56Alphabet.length number).reverse.map base56Symbol

theorem base56Value_eq_some {char : Char} {digit : Nat} :
    base56Value char = some digit ↔ base56Alphabet[digit]? = some char := by
  have hnodup : base56Alphabet.Nodup := by decide +kernel
  rw [base56Value, List.findIdx?_eq_some_iff_getElem]
  constructor
  · rintro ⟨hlt, hfound, -⟩
    rw [List.getElem?_eq_getElem hlt, of_decide_eq_true hfound]
  · intro hfound
    obtain ⟨hlt, hfound⟩ := List.getElem?_eq_some_iff.mp hfound
    refine ⟨hlt, decide_eq_true hfound, fun earlier hearlier hsame => ?_⟩
    have heq := (of_decide_eq_true hsame).trans hfound.symm
    exact hearlier.ne ((hnodup.getElem_inj_iff).mp heq)

theorem base56Value_base56Symbol {digit : Nat} (hdigit : digit < base56Alphabet.length) :
    base56Value (base56Symbol digit) = some digit := by
  rw [base56Value_eq_some, base56Symbol, List.getElem?_eq_getElem hdigit, Option.getD_some]

theorem base56Symbol_of_value {char : Char} {digit : Nat} (hvalue : base56Value char = some digit) :
    base56Symbol digit = char ∧ digit < base56Alphabet.length := by
  rw [base56Value_eq_some] at hvalue
  exact ⟨by rw [base56Symbol, hvalue, Option.getD_some], (List.getElem?_eq_some_iff.mp hvalue).1⟩

theorem one_lt_base : 1 < base56Alphabet.length := by
  decide

theorem base56EncodeBytes_eq (data : List UInt8) :
    base56EncodeBytes data = some (base56Text (Radix.value 256 (data.map UInt8.toNat))) := by
  rw [base56EncodeBytes]
  split
  · next hempty =>
      rw [List.isEmpty_iff.mp hempty]
      decide +kernel
  · rw [Radix.convert_eq one_lt_base (by decide)]
    refine mapM_eq_some_map fun digit hdigit => ?_
    have hlt := Radix.lt_of_mem_canonical one_lt_base (List.mem_reverse.mp hdigit)
    rw [base56Symbol, List.getElem?_eq_getElem hlt, Option.getD_some]

theorem mapM_base56Value_base56Text (number : Nat) :
    (base56Text number).mapM base56Value =
      some (Radix.canonical base56Alphabet.length number).reverse := by
  rw [base56Text, List.mapM_map]
  have hvalues := @mapM_eq_some_map _ _ (base56Value ∘ base56Symbol) id
    (Radix.canonical base56Alphabet.length number).reverse fun digit hdigit =>
      base56Value_base56Symbol (Radix.lt_of_mem_canonical one_lt_base (List.mem_reverse.mp hdigit))
  rwa [List.map_id] at hvalues

theorem length_base56Text_le_iff {number width : Nat} (hwidth : 0 < width) :
    (base56Text number).length ≤ width ↔ number < base56Alphabet.length ^ width := by
  rw [base56Text, List.length_map, List.length_reverse,
    Radix.length_canonical_le_iff one_lt_base hwidth]

theorem base56Text_ne (number : Nat) : base56Text number ≠ [] := by
  have hpos := @Radix.length_canonical_pos base56Alphabet.length number
  rw [← List.length_pos_iff, base56Text, List.length_map, List.length_reverse]
  exact hpos

/-! Decoding. -/

theorem base56DecodeLoop_eq_ok {bytes result : List Nat} {text : List Char} :
    base56DecodeLoop bytes.reverse text = .ok result ↔
      ∃ values, text.mapM base56Value = some values ∧
        (values.foldl (fun digits value => Radix.mulAdd 256 base56Alphabet.length value digits)
          bytes).reverse = result := by
  induction text generalizing bytes with
  | nil => simp [base56DecodeLoop]
  | cons char rest ih =>
      simp only [base56DecodeLoop, bind_eq_ok, okOr_eq_ok, List.reverse_reverse, ih,
        List.mapM_cons, Option.bind_eq_bind, Option.bind_eq_some_iff, Option.pure_def,
        Option.some.injEq]
      constructor
      · rintro ⟨value, hvalue, values, hvalues, rfl⟩
        exact ⟨value :: values, ⟨value, hvalue, values, hvalues, rfl⟩, rfl⟩
      · rintro ⟨_, ⟨value, hvalue, values, hvalues, rfl⟩, rfl⟩
        exact ⟨value, hvalue, values, hvalues, rfl⟩

theorem Bytes.toNat_eq_value (bytes : Bytes width) :
    bytes.toNat = Radix.value 256 (bytes.toList.map UInt8.toNat) := by
  rw [Bytes.toNat, Radix.value, List.foldl_map]

/-- The number that the symbols of a text denote, if they all are symbols. -/
def base56Number (text : List Char) : Option Nat :=
  (text.mapM base56Value).map (Radix.value base56Alphabet.length)

/-- The bytes of a number, filled up with zeros in front. -/
def paddedBytes (number : Nat) : List UInt8 :=
  let bytes := (Radix.canonical 256 number).reverse.map UInt8.ofNat
  List.replicate (32 - bytes.length) 0 ++ bytes

theorem value_paddedBytes (number : Nat) :
    Radix.value 256 ((paddedBytes number).map UInt8.toNat) = number := by
  have hdigits : ((Radix.canonical 256 number).reverse.map UInt8.ofNat).map UInt8.toNat =
      (Radix.canonical 256 number).reverse := by
    rw [List.map_map]
    refine (List.map_congr_left fun digit hdigit => ?_).trans (List.map_id _)
    exact UInt8.toNat_ofNat_of_lt'
      (Radix.lt_of_mem_canonical (by decide) (List.mem_reverse.mp hdigit))
  rw [paddedBytes, List.map_append, List.map_replicate, hdigits]
  exact (Radix.value_replicate_zero _ _).trans (Radix.value_canonical number)

theorem length_paddedBytes {number : Nat} (hnumber : number < 256 ^ 32) :
    (paddedBytes number).length = 32 := by
  have hlength := (Radix.length_canonical_le_iff (by decide) (by decide)).mpr hnumber
  simp only [paddedBytes, List.length_append, List.length_replicate, List.length_map,
    List.length_reverse]
  omega

theorem paddedBytes_toNat (digest : Bytes 32) : paddedBytes digest.toNat = digest.toList := by
  have hlength := length_paddedBytes digest.toNat_lt
  have hvalue := value_paddedBytes digest.toNat
  rw [← Bytes.toNat_eq_value ⟨_, hlength⟩] at hvalue
  exact congrArg Bytes.toList (Bytes.eq_of_toNat_eq hvalue)

theorem base56DecodeToBytes_eq_ok {text : List Char} {decoded : List UInt8} :
    base56DecodeToBytes text 32 = .ok decoded ↔
      text ≠ [] ∧ ∃ number < 256 ^ 32, base56Number text = some number ∧
        decoded = paddedBytes number := by
  have hloop : ∀ bytes, base56DecodeLoop [0] text = .ok bytes ↔
      ∃ number, base56Number text = some number ∧
        (Radix.canonical 256 number).reverse = bytes := by
    intro bytes
    rw [← List.reverse_singleton, base56DecodeLoop_eq_ok, base56Number]
    simp only [Option.map_eq_some_iff]
    constructor
    · rintro ⟨values, hvalues, rfl⟩
      refine ⟨_, ⟨values, hvalues, rfl⟩, ?_⟩
      rw [← Radix.convert_eq (by decide) (by decide), Radix.convert]
    · rintro ⟨_, ⟨values, hvalues, rfl⟩, rfl⟩
      refine ⟨values, hvalues, ?_⟩
      rw [← Radix.convert_eq (by decide) (by decide), Radix.convert]
  have hpad : ∀ number, (if (Radix.canonical 256 number).reverse.length < 32 then
        pure (List.replicate (32 - (Radix.canonical 256 number).reverse.length) 0 ++
          (Radix.canonical 256 number).reverse.map UInt8.ofNat)
      else pure ((Radix.canonical 256 number).reverse.map UInt8.ofNat) :
        Except AddressError (List UInt8)) = .ok (paddedBytes number) := by
    intro number
    simp only [paddedBytes, List.length_map]
    split
    · rfl
    · next hlong => rw [Nat.sub_eq_zero_of_le (not_lt.mp hlong)]; rfl
  simp only [base56DecodeToBytes, bind_eq_ok, rejectWhen_eq_ok, hloop, decide_eq_false_iff_not,
    List.length_map, not_lt, List.isEmpty_eq_false_iff]
  constructor
  · rintro ⟨-, hne, _, ⟨number, hnumber, rfl⟩, -, hfits, hresult⟩
    rw [List.length_reverse, Radix.length_canonical_le_iff (by decide) (by decide)] at hfits
    refine ⟨hne, number, hfits, hnumber, ?_⟩
    rw [hpad] at hresult
    exact (Except.ok.inj hresult).symm
  · rintro ⟨hne, number, hfits, hnumber, rfl⟩
    refine ⟨(), hne, _, ⟨number, hnumber, rfl⟩, (), ?_, hpad number⟩
    rwa [List.length_reverse, Radix.length_canonical_le_iff (by decide) (by decide)]

theorem base56Number_base56Text (number : Nat) :
    base56Number (base56Text number) = some number := by
  rw [base56Number, mapM_base56Value_base56Text, Option.map_some, Radix.value_canonical]

theorem map_base56Symbol_of_values {text : List Char} {values : List Nat}
    (hvalues : text.mapM base56Value = some values) :
    text = values.map base56Symbol ∧ ∀ value ∈ values, value < base56Alphabet.length := by
  induction text generalizing values with
  | nil =>
      cases hvalues
      exact ⟨rfl, by simp⟩
  | cons char rest ih =>
      simp only [List.mapM_cons, Option.bind_eq_bind, Option.bind_eq_some_iff, Option.pure_def,
        Option.some.injEq] at hvalues
      obtain ⟨value, hvalue, values, hrest, rfl⟩ := hvalues
      obtain ⟨rfl, hbound⟩ := ih hrest
      obtain ⟨rfl, hlt⟩ := base56Symbol_of_value hvalue
      exact ⟨rfl, List.forall_mem_cons.mpr ⟨hlt, hbound⟩⟩

theorem base56Symbol_eq_first_iff {digit : Nat} (hdigit : digit < base56Alphabet.length) :
    base56Symbol digit = '2' ↔ digit = 0 := by
  constructor
  · intro hfirst
    have hvalue := base56Value_base56Symbol hdigit
    rw [hfirst] at hvalue
    exact (Option.some.inj hvalue).symm
  · rintro rfl
    rfl

theorem base56Text_eq_iff {text : List Char} {number : Nat} (hne : text ≠ [])
    (hnumber : base56Number text = some number) :
    base56Text number = text ↔ text.head? ≠ some '2' ∨ text = ['2'] := by
  obtain ⟨values, hvalues, rfl⟩ := Option.map_eq_some_iff.mp hnumber
  obtain ⟨rfl, hbound⟩ := map_base56Symbol_of_values hvalues
  have hcanonical := Radix.canonical_value_iff one_lt_base (by simpa using hne) hbound
  have htext : base56Text (Radix.value base56Alphabet.length values) = values.map base56Symbol ↔
      (Radix.canonical base56Alphabet.length
        (Radix.value base56Alphabet.length values)).reverse = values := by
    constructor
    · intro heq
      have hmapped := mapM_base56Value_base56Text (Radix.value base56Alphabet.length values)
      rw [heq, hvalues] at hmapped
      exact (Option.some.inj hmapped).symm
    · intro heq
      rw [base56Text, heq]
  rw [htext, hcanonical]
  cases values with
  | nil => exact absurd rfl hne
  | cons value rest =>
      have hfirst := base56Symbol_eq_first_iff (hbound value (by simp))
      simp [hfirst]

/-! Addresses in their parts. -/

/-- The checksum as it is written: always six symbols. -/
def checksumText (crypto : Crypto) (visible : Char) (body : List Char) : List Char :=
  let text := base56Text (addressChecksum crypto visible body).toNat
  List.replicate (6 - text.length) '2' ++ text

theorem length_checksumText (crypto : Crypto) (visible : Char) (body : List Char) :
    (checksumText crypto visible body).length = 6 := by
  have hfits : (addressChecksum crypto visible body).toNat < base56Alphabet.length ^ 6 :=
    (Bytes.toNat_lt _).trans_le (by decide +kernel)
  have hlength := (length_base56Text_le_iff (by decide)).mpr hfits
  simp only [checksumText, List.length_append, List.length_replicate]
  omega

theorem base56EncodeFixedBytes_eq (crypto : Crypto) (visible : Char) (body : List Char) :
    base56EncodeFixedBytes (addressChecksum crypto visible body).toList 6 =
      some (checksumText crypto visible body) := by
  rw [base56EncodeFixedBytes, base56EncodeBytes_eq, ← Bytes.toNat_eq_value]
  simp only [Option.bind_eq_bind, Option.bind_some, checksumText]
  split
  · next hlong => rw [Nat.sub_eq_zero_of_le hlong]; rfl
  · rfl

theorem encodeBase56Address_eq (crypto : Crypto) (network : Network) (digest : Bytes 32) :
    encodeBase56Address crypto network digest =
      some (String.ofList (network.visiblePrefix :: (base56Text digest.toNat ++
        checksumText crypto network.visiblePrefix (base56Text digest.toNat)))) := by
  simp only [encodeBase56Address, base56EncodeBytes_eq, ← Bytes.toNat_eq_value,
    Option.bind_eq_bind, Option.bind_some, addressChecksumBase56Chars, base56EncodeFixedBytes_eq]

theorem networkOfVisiblePrefix_visiblePrefix (network : Network) :
    networkOfVisiblePrefix network.visiblePrefix = some network := by
  cases network <;> rfl

theorem exists_network_of_isVisiblePrefix {visible : Char}
    (hvisible : isVisiblePrefix visible = true) :
    ∃ network : Network, network.visiblePrefix = visible := by
  simp only [isVisiblePrefix, List.contains_iff_mem, List.mem_cons, List.not_mem_nil,
    or_false] at hvisible
  rcases hvisible with rfl | rfl | rfl | rfl
  · exact ⟨.mainnet, rfl⟩
  · exact ⟨.testnet, rfl⟩
  · exact ⟨.regnet, rfl⟩
  · exact ⟨.prunetest, rfl⟩

theorem decodeAddressParts_eq_ok {crypto : Crypto} {network network' : Network}
    {body checksumBody : List Char} {digest : Bytes 32} :
    decodeAddressParts crypto network.visiblePrefix body checksumBody =
        some (.ok (digest, network')) ↔
      network' = network ∧ checksumBody = checksumText crypto network.visiblePrefix body ∧
        body ≠ [] ∧ base56Number body = some digest.toNat := by
  rw [decodeAddressParts, networkOfVisiblePrefix_visiblePrefix]
  simp only [addressChecksumBase56Chars, base56EncodeFixedBytes_eq, Option.bind_eq_bind,
    Option.bind_some, addressDigestBytes]
  split
  · next hdiffers => simp [hdiffers]
  · next hsame =>
      rw [not_not] at hsame
      split
      · next err herr =>
          simp only [Option.some.injEq, reduceCtorEq, false_iff]
          rintro ⟨-, -, hne, hnumber⟩
          have hdecoded := base56DecodeToBytes_eq_ok.mpr
            ⟨hne, digest.toNat, digest.toNat_lt, hnumber, rfl⟩
          rw [herr] at hdecoded
          cases hdecoded
      · next decoded hdecoded =>
          obtain ⟨hne, number, hfits, hnumber, rfl⟩ := base56DecodeToBytes_eq_ok.mp hdecoded
          rw [dif_pos (length_paddedBytes hfits)]
          simp only [Option.some.injEq, Except.ok.injEq, Prod.mk.injEq, hsame, hnumber, true_and,
            ne_eq, hne, not_false_eq_true]
          constructor
          · rintro ⟨rfl, rfl⟩
            exact ⟨rfl, by rw [Bytes.toNat_eq_value]; exact (value_paddedBytes number).symm⟩
          · rintro ⟨rfl, rfl⟩
            exact ⟨Bytes.ext (paddedBytes_toNat digest), rfl⟩

theorem decodeAddressParts_isSome (crypto : Crypto) (network : Network)
    (body checksumBody : List Char) :
    (decodeAddressParts crypto network.visiblePrefix body checksumBody).isSome := by
  rw [decodeAddressParts, networkOfVisiblePrefix_visiblePrefix]
  simp only [addressChecksumBase56Chars, base56EncodeFixedBytes_eq, Option.bind_eq_bind,
    Option.bind_some, addressDigestBytes]
  split
  · rfl
  · split
    · rfl
    · next decoded hdecoded =>
        obtain ⟨-, number, hfits, -, rfl⟩ := base56DecodeToBytes_eq_ok.mp hdecoded
        rw [dif_pos (length_paddedBytes hfits)]
        rfl

/-! The cuts. -/

theorem utf8Size_visiblePrefix (network : Network) : network.visiblePrefix.utf8Size = 1 := by
  cases network <;> rfl

theorem utf8Length_checksumText (crypto : Crypto) (visible : Char) (body : List Char) :
    utf8Length (checksumText crypto visible body) = 6 := by
  have halphabet : ∀ char ∈ base56Alphabet, char.utf8Size = 1 := by
    have hall : base56Alphabet.all (fun char => char.utf8Size == 1) = true := by decide +kernel
    simpa using hall
  have hsize : ∀ char ∈ checksumText crypto visible body, char.utf8Size = 1 := by
    intro char hchar
    rcases List.mem_append.mp hchar with hpad | htext
    · rw [List.eq_of_mem_replicate hpad]
      rfl
    · obtain ⟨digit, hdigit, rfl⟩ := List.mem_map.mp htext
      have hlt := Radix.lt_of_mem_canonical one_lt_base (List.mem_reverse.mp hdigit)
      rw [base56Symbol, List.getElem?_eq_getElem hlt, Option.getD_some]
      exact halphabet _ (List.getElem_mem hlt)
  rw [utf8Length, List.map_congr_left hsize, List.map_const', List.sum_replicate,
    length_checksumText, smul_eq_mul]

theorem utf8Length_pos {text : List Char} (hne : text ≠ []) : 0 < utf8Length text := by
  obtain ⟨char, rest, rfl⟩ := List.exists_cons_of_ne_nil hne
  have hsize := char.utf8Size_pos
  rw [utf8Length_cons]
  omega

/-- A long enough text with a network symbol in front that can be cut is decoded from its
parts. -/
theorem decodeBase56Address_of_cut (crypto : Crypto) {network : Network}
    {body checksumBody : List Char} (hbody : body ≠ []) (hchecksum : utf8Length checksumBody = 6)
    {address : String}
    (haddress : address.toList = network.visiblePrefix :: (body ++ checksumBody)) :
    decodeBase56Address crypto address =
      decodeAddressParts crypto network.visiblePrefix body checksumBody := by
  have hvisible : isVisiblePrefix network.visiblePrefix = true := by cases network <;> rfl
  have hpos := utf8Length_pos hbody
  have hlength : utf8Length address.toList = 1 + utf8Length body + 6 := by
    rw [haddress, utf8Length_cons, utf8Length_append, utf8Size_visiblePrefix, hchecksum,
      Nat.add_assoc]
  have hfront : utf8Length [network.visiblePrefix] = 1 := by
    rw [utf8Length_cons, utf8Size_visiblePrefix]
    rfl
  have hcut : splitAtByte (1 + utf8Length body) address.toList =
      some (network.visiblePrefix :: body, checksumBody) := by
    have hsplit := splitAtByte_append (network.visiblePrefix :: body) checksumBody
    rw [utf8Length_cons, utf8Size_visiblePrefix] at hsplit
    rw [haddress]
    exact hsplit
  have hfirst : splitAtByte 1 (network.visiblePrefix :: body) =
      some ([network.visiblePrefix], body) := by
    have hsplit := splitAtByte_append [network.visiblePrefix] body
    rwa [hfront] at hsplit
  have hall : splitAtByte (utf8Length address.toList) address.toList =
      some (address.toList, []) := by
    have hsplit := splitAtByte_append address.toList []
    rwa [List.append_nil] at hsplit
  have hhead : address.toList.head? = some network.visiblePrefix := by rw [haddress]; rfl
  have hshort : ¬ utf8Length address.toList ≤ 1 + addressChecksumBase56Chars := by
    rw [hlength, addressChecksumBase56Chars]
    omega
  have hoffset : utf8Length address.toList - addressChecksumBase56Chars =
      1 + utf8Length body := by
    rw [hlength, addressChecksumBase56Chars, Nat.add_sub_cancel]
  simp only [decodeBase56Address, hhead, hvisible, hshort, hoffset, Bool.not_true,
    Bool.false_eq_true, if_false, byteSlice, hcut, hall, hfirst, Option.bind_eq_bind,
    Option.bind_some]

/-- A text that passes the checks before the cuts. -/
structure Addressed (network : Network) (text : List Char) : Prop where
  head : text.head? = some network.visiblePrefix
  long : 1 + addressChecksumBase56Chars < utf8Length text

theorem Addressed.exists_cut {network : Network} {text : List Char}
    (haddressed : Addressed network text)
    (hboundary : IsCharBoundary text (utf8Length text - addressChecksumBase56Chars)) :
    ∃ body checksumBody, body ≠ [] ∧ utf8Length checksumBody = 6 ∧
      text = network.visiblePrefix :: (body ++ checksumBody) := by
  obtain ⟨before, checksumBody, rfl, hbefore⟩ := hboundary
  have hlong := haddressed.long
  have hhead := haddressed.head
  rw [utf8Length_append, addressChecksumBase56Chars] at hlong hbefore
  cases before with
  | nil =>
      rw [utf8Length, List.map_nil, List.sum_nil] at hbefore hlong
      omega
  | cons visible body =>
      obtain rfl : visible = network.visiblePrefix := Option.some.inj hhead
      rw [utf8Length_cons, utf8Size_visiblePrefix] at hbefore hlong
      refine ⟨body, checksumBody, ?_, by omega, rfl⟩
      rintro rfl
      rw [utf8Length, List.map_nil, List.sum_nil] at hbefore hlong
      omega

theorem decodeBase56Address_of_not_addressed (crypto : Crypto) {address : String}
    (hnot : ∀ network, ¬ Addressed network address.toList) :
    ∃ err, decodeBase56Address crypto address = some (.error err) := by
  rw [decodeBase56Address]
  dsimp only
  split
  · exact ⟨_, rfl⟩
  · next visible hhead =>
      split
      · exact ⟨_, rfl⟩
      · next hvisible =>
          obtain ⟨network, rfl⟩ := exists_network_of_isVisiblePrefix (by simpa using hvisible)
          split
          · exact ⟨_, rfl⟩
          · next hlong => exact absurd ⟨hhead, not_le.mp hlong⟩ (hnot network)

theorem decodeBase56Address_eq_none (crypto : Crypto) {network : Network} {address : String}
    (haddressed : Addressed network address.toList)
    (hinside : ¬ IsCharBoundary address.toList
      (utf8Length address.toList - addressChecksumBase56Chars)) :
    decodeBase56Address crypto address = none := by
  have hvisible : isVisiblePrefix network.visiblePrefix = true := by cases network <;> rfl
  have hcut : splitAtByte (utf8Length address.toList - addressChecksumBase56Chars)
      address.toList = none := by
    rw [← Option.not_isSome_iff_eq_none, splitAtByte_isSome_iff]
    exact hinside
  simp only [decodeBase56Address, haddressed.head, hvisible, not_le.mpr haddressed.long,
    Bool.not_true, Bool.false_eq_true, if_false, byteSlice, hcut, Option.bind_eq_bind,
    Option.bind_none]

/-- Which texts are addresses of which digest: any body that denotes its number, followed by
the checksum of that body. -/
theorem decodeBase56Address_eq_ok {crypto : Crypto} {address : String} {digest : Bytes 32}
    {network : Network} :
    decodeBase56Address crypto address = some (.ok (digest, network)) ↔
      ∃ body, body ≠ [] ∧ base56Number body = some digest.toNat ∧
        address.toList = network.visiblePrefix ::
          (body ++ checksumText crypto network.visiblePrefix body) := by
  constructor
  · intro hdecoded
    by_cases haddressed : ∃ found, Addressed found address.toList
    · obtain ⟨found, haddressed⟩ := haddressed
      by_cases hboundary : IsCharBoundary address.toList
          (utf8Length address.toList - addressChecksumBase56Chars)
      · obtain ⟨body, checksumBody, hne, hlength, htext⟩ := haddressed.exists_cut hboundary
        rw [decodeBase56Address_of_cut crypto hne hlength htext,
          decodeAddressParts_eq_ok] at hdecoded
        obtain ⟨rfl, rfl, -, hnumber⟩ := hdecoded
        exact ⟨body, hne, hnumber, htext⟩
      · rw [decodeBase56Address_eq_none crypto haddressed hboundary] at hdecoded
        cases hdecoded
    · obtain ⟨err, herr⟩ := decodeBase56Address_of_not_addressed crypto
        (not_exists.mp haddressed)
      rw [herr] at hdecoded
      cases hdecoded
  · rintro ⟨body, hne, hnumber, htext⟩
    rw [decodeBase56Address_of_cut crypto hne (utf8Length_checksumText crypto _ body) htext,
      decodeAddressParts_eq_ok]
    exact ⟨rfl, rfl, hne, hnumber⟩

/-! Round trips. -/

/-- Every digest of every network is read back from its address, whose last six characters
are the checksum. -/
theorem decode_encode_address (crypto : Crypto) (network : Network) (digest : Bytes 32) :
    ∃ address, encodeBase56Address crypto network digest = some address ∧
      decodeBase56Address crypto address = some (.ok (digest, network)) ∧
      ∃ body checksumBody, address = String.ofList (network.visiblePrefix ::
          (body ++ checksumBody)) ∧ checksumBody.length = addressChecksumBase56Chars ∧
        base56EncodeBytes digest.toList = some body ∧
        base56EncodeFixedBytes (addressChecksum crypto network.visiblePrefix body).toList
          addressChecksumBase56Chars = some checksumBody := by
  refine ⟨_, encodeBase56Address_eq crypto network digest, ?_, base56Text digest.toNat,
    checksumText crypto network.visiblePrefix (base56Text digest.toNat), rfl,
    length_checksumText crypto _ _, ?_, base56EncodeFixedBytes_eq crypto _ _⟩
  · exact decodeBase56Address_eq_ok.mpr ⟨base56Text digest.toNat, base56Text_ne _,
      base56Number_base56Text _, String.toList_ofList⟩
  · rw [base56EncodeBytes_eq, ← Bytes.toNat_eq_value]

/-- An address that decodes is the address of what it decodes to exactly if its body has no
needless first symbol in front. -/
theorem encode_decoded_address_iff {crypto : Crypto} {address : String} {digest : Bytes 32}
    {network : Network}
    (hdecoded : decodeBase56Address crypto address = some (.ok (digest, network))) :
    encodeBase56Address crypto network digest = some address ↔
      address.toList[1]? ≠ some '2' ∨
        address.toList.length = 2 + addressChecksumBase56Chars := by
  obtain ⟨body, hne, hnumber, htext⟩ := decodeBase56Address_eq_ok.mp hdecoded
  have hbody := base56Text_eq_iff hne hnumber
  obtain ⟨first, rest, rfl⟩ := List.exists_cons_of_ne_nil hne
  have hcondition : (address.toList[1]? ≠ some '2' ∨
      address.toList.length = 2 + addressChecksumBase56Chars) ↔
        ((first :: rest).head? ≠ some '2' ∨ first :: rest = ['2']) := by
    have hlength : address.toList.length = 2 + rest.length + 6 := by
      rw [htext, List.length_cons, List.length_append, length_checksumText, List.length_cons]
      omega
    have hshort : address.toList.length = 2 + addressChecksumBase56Chars ↔ rest = [] := by
      rw [hlength, addressChecksumBase56Chars, ← List.length_eq_zero_iff]
      omega
    have hsecond : address.toList[1]? = some first := by
      rw [htext]
      rfl
    rw [hshort, hsecond, List.head?_cons, List.cons.injEq, ne_eq, Option.some.injEq]
    tauto
  rw [hcondition, ← hbody, encodeBase56Address_eq, Option.some.injEq, ← String.toList_inj,
    String.toList_ofList, htext, List.cons.injEq]
  constructor
  · rintro ⟨-, heq⟩
    exact List.append_inj_left' heq (by rw [length_checksumText, length_checksumText])
  · rintro heq
    exact ⟨rfl, by rw [heq]⟩

/-- The digest of 32 bytes 7. -/
def sevens : Bytes 32 :=
  ⟨List.replicate 32 7, by decide⟩

theorem sevens_address_unique :
    decodeBase56Address .hashing "ACDgWrGzxwDDvyvuE4Q33Qjr9A9r9qvtMkJJxm7qj4HCtAdMbwY" =
        some (.ok (sevens, .mainnet)) ∧
      encodeBase56Address .hashing .mainnet sevens =
        some "ACDgWrGzxwDDvyvuE4Q33Qjr9A9r9qvtMkJJxm7qj4HCtAdMbwY" := by
  have hdecoded : decodeBase56Address .hashing
      "ACDgWrGzxwDDvyvuE4Q33Qjr9A9r9qvtMkJJxm7qj4HCtAdMbwY" =
        some (.ok (sevens, .mainnet)) := by
    decide +kernel
  exact ⟨hdecoded, (encode_decoded_address_iff hdecoded).mpr (.inl (by decide +kernel))⟩

/-- The same digest has a second address, with a `2` after the network symbol. -/
theorem sevens_second_address :
    decodeBase56Address .hashing "A2CDgWrGzxwDDvyvuE4Q33Qjr9A9r9qvtMkJJxm7qj4HCtAHZUF3" =
        some (.ok (sevens, .mainnet)) ∧
      encodeBase56Address .hashing .mainnet sevens ≠
        some "A2CDgWrGzxwDDvyvuE4Q33Qjr9A9r9qvtMkJJxm7qj4HCtAHZUF3" := by
  decide +kernel

/-- Decoding panics exactly on addresses that pass the first checks and whose last six bytes
start inside a character. -/
theorem decode_address_returns_iff (crypto : Crypto) (address : String) :
    decodeBase56Address crypto address ≠ none ↔
      ∀ network, Addressed network address.toList → IsCharBoundary address.toList
        (utf8Length address.toList - addressChecksumBase56Chars) := by
  constructor
  · intro hreturns network haddressed
    by_contra hinside
    exact hreturns (decodeBase56Address_eq_none crypto haddressed hinside)
  · intro hboundary
    by_cases haddressed : ∃ network, Addressed network address.toList
    · obtain ⟨network, haddressed⟩ := haddressed
      obtain ⟨body, checksumBody, hne, hlength, htext⟩ :=
        haddressed.exists_cut (hboundary network haddressed)
      rw [decodeBase56Address_of_cut crypto hne hlength htext, ← Option.isSome_iff_ne_none]
      exact decodeAddressParts_isSome crypto network body checksumBody
    · obtain ⟨err, herr⟩ := decodeBase56Address_of_not_addressed crypto
        (not_exists.mp haddressed)
      simp [herr]

/-- The last six bytes of this text start inside its second character. -/
theorem decode_panics_inside_character :
    decodeBase56Address .hashing "Aé22222" = none := by
  decide +kernel

end Atho
