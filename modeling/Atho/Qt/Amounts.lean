import Mathlib.Data.Rat.Defs
import Mathlib.Tactic.FieldSimp
import Atho.Core.Address
import Atho.Library.Decimal
import Atho.Library.Text

/-! Amounts as they are typed and shown in the desktop client. -/

namespace Atho

def decimals : Nat := 8
def atomsPerAtho : UInt64 := 100000000
def atomsPerMilliatho : UInt64 := atomsPerAtho / 1000
def atomsPerMicroatho : UInt64 := atomsPerAtho / 1000000

inductive InputUnit where
  | atho
  | milliAtho
  | microAtho
  | nanoAtho
  | atom
  deriving DecidableEq

namespace InputUnit

def factor : InputUnit → UInt64
  | atho => atomsPerAtho
  | milliAtho => atomsPerMilliatho
  | microAtho => atomsPerMicroatho
  | nanoAtho => 1
  | atom => 1

def maxDecimals : InputUnit → Nat
  | atho => decimals
  | milliAtho => decimals - 3
  | microAtho => decimals - 6
  | nanoAtho => 0
  | atom => 0

theorem toNat_factor (unit : InputUnit) : unit.factor.toNat = 10 ^ unit.maxDecimals := by
  cases unit <;> rfl

end InputUnit

/-! Showing. -/

def formatGroupedU64 (value : UInt64) : List Char :=
  let digits := Decimal.text value.toNat
  let remainder := digits.length % 3
  digits.zipIdx.flatMap fun (char, index) =>
    if index ≠ 0 ∧ (index = remainder ∨ remainder < index ∧ (index - remainder) % 3 = 0) then
      [',', char]
    else [char]

/-- A number with zeros in front up to the width. -/
def formatPadded (width : Nat) (value : UInt64) : List Char :=
  let digits := Decimal.text value.toNat
  List.replicate (width - digits.length) '0' ++ digits

def trimZeros (text : List Char) : List Char :=
  text.rdropWhile (· == '0')

def formatAmountComponents (amountAtoms unitFactor : UInt64) (decimals : Nat)
    (trimFractional : Bool) : List Char :=
  if decimals = 0 then formatGroupedU64 amountAtoms
  else
    let whole := amountAtoms / unitFactor
    let fractional := amountAtoms % unitFactor
    if fractional = 0 then formatGroupedU64 whole
    else
      let fractionalText := formatPadded decimals fractional
      formatGroupedU64 whole ++
        '.' :: if trimFractional then trimZeros fractionalText else fractionalText

def formatAmountAtomsWithoutUnit (amountAtoms : UInt64) (inputUnit : InputUnit) : String :=
  String.ofList
    (formatAmountComponents amountAtoms inputUnit.factor inputUnit.maxDecimals true)

/-! Reading. -/

def isCounted (char : Char) : Bool :=
  !Text.isWhitespace char && char != ','

def stripPlus : List Char → List Char
  | '+' :: rest => rest
  | text => text

def allDigits (text : List Char) : Bool :=
  text.all Char.isDigit

def parseWhole (text : List Char) : Except String UInt64 :=
  if text = [] then .ok 0 else okOr (Decimal.parseU64 text) "Amount is too large"

def parseFraction (inputUnit : InputUnit) : Option (List Char) → Except String UInt64
  | none => .ok 0
  | some [] => .ok 0
  | some text => do
      let maxDecimals := inputUnit.maxDecimals
      rejectWhen (maxDecimals == 0) "atoms cannot be fractional"
      rejectWhen (maxDecimals < utf8Length text)
        s!"Amount supports up to {maxDecimals} decimal places"
      rejectWhen (!allDigits text) "Amount must contain only digits, commas, and one decimal point"
      okOr (Decimal.parseU64 (text ++ List.replicate (maxDecimals - utf8Length text) '0'))
        "Amount is too large"

def parseAmountToAtoms (input : String) (inputUnit : InputUnit) : Except String UInt64 := do
  let normalized := (Text.trim input.toList).filter isCounted
  rejectWhen (normalized == []) "Enter an amount"
  rejectWhen (normalized.head? == some '-') "Amount must be greater than zero"
  let parts := (stripPlus normalized).splitOn '.'
  let wholeText := parts.headD []
  rejectWhen (2 < parts.length) "Amount may contain only one decimal point"
  -- an empty whole part passes
  rejectWhen (!allDigits wholeText)
    "Amount must contain only digits, commas, and one decimal point"
  let wholeUnits ← parseWhole wholeText
  let fractionalUnits ← parseFraction inputUnit parts[1]?
  let atoms ← okOr
    ((wholeUnits.checkedMul inputUnit.factor).bind fun value => value.checkedAdd fractionalUnits)
    "Amount is too large"
  rejectWhen (atoms == 0) "Amount must be greater than zero"
  return atoms

/-! What is accepted. -/

/-- The text that counts: without commas, blanks and a plus sign in front. -/
def countedText (input : String) : List Char :=
  stripPlus (input.toList.filter isCounted)

/-- Digits in front of the point, if there is one, and behind it. -/
def SplitsInto (text whole fraction : List Char) : Prop :=
  text = whole ∧ fraction = [] ∨ text = whole ++ '.' :: fraction

theorem filter_trim (text : List Char) :
    (Text.trim text).filter isCounted = text.filter isCounted := by
  apply Text.filter_trimMatches
  intro char hblank
  simp [isCounted, hblank]

theorem utf8Length_of_allDigits {text : List Char} (hdigits : allDigits text = true) :
    utf8Length text = text.length := by
  have hone {char : Char} (hdigit : char.isDigit = true) : char.utf8Size = 1 := by
    simp only [Char.isDigit, ge_iff_le, Bool.and_eq_true, decide_eq_true_eq] at hdigit
    have hupper : char.val ≤ 127 := UInt32.le_trans hdigit.2 (by decide)
    simp [Char.utf8Size, hupper]
  rw [utf8Length, List.map_congr_left fun char hchar => hone (List.all_eq_true.mp hdigits char hchar)]
  simp

theorem parseWhole_eq_ok {text : List Char} {units : UInt64} (hdigits : allDigits text = true) :
    parseWhole text = .ok units ↔ units.toNat = Decimal.value text := by
  unfold parseWhole
  split
  · next hempty =>
      rw [hempty, Except.ok.injEq, ← UInt64.toNat_inj]
      exact eq_comm
  · next hne => rw [okOr_eq_ok, Decimal.parseU64_eq_some hne (List.all_eq_true.mp hdigits)]

theorem parseFraction_eq_ok {inputUnit : InputUnit} {text : List Char} {units : UInt64} :
    parseFraction inputUnit (some text) = .ok units ↔
      allDigits text = true ∧ text.length ≤ inputUnit.maxDecimals ∧
        units.toNat = Decimal.value text * 10 ^ (inputUnit.maxDecimals - text.length) := by
  cases text with
  | nil =>
      simp only [parseFraction, allDigits, List.all_nil, List.length_nil, Nat.zero_le, true_and,
        Except.ok.injEq, ← UInt64.toNat_inj]
      exact eq_comm.trans (by simp [Decimal.value, Radix.value])
  | cons first rest =>
      have hpadded (hdigits : allDigits (first :: rest) = true) (count : Nat) :
          ∀ char ∈ first :: rest ++ List.replicate count '0', char.isDigit = true := by
        intro char hchar
        rcases List.mem_append.mp hchar with htext | hzero
        · exact List.all_eq_true.mp hdigits char htext
        · rw [List.eq_of_mem_replicate hzero]
          rfl
      simp only [parseFraction, bind_eq_ok, rejectWhen_eq_ok, okOr_eq_ok, exists_const]
      constructor
      · rintro ⟨-, hlength, hdigits, hparse⟩
        have hdigits : allDigits (first :: rest) = true := by simpa using hdigits
        rw [utf8Length_of_allDigits hdigits] at hlength hparse
        rw [Decimal.parseU64_eq_some (by simp) (hpadded hdigits _), Decimal.value_append_zeros]
          at hparse
        exact ⟨hdigits, by simpa using hlength, hparse⟩
      · rintro ⟨hdigits, hlength, hunits⟩
        have hsome : inputUnit.maxDecimals ≠ 0 := by
          rw [List.length_cons] at hlength
          omega
        rw [utf8Length_of_allDigits hdigits, Decimal.parseU64_eq_some (by simp) (hpadded hdigits _),
          Decimal.value_append_zeros]
        exact ⟨by simpa using hsome, by simpa using hlength, by simp [hdigits], hunits⟩

theorem not_mem_of_allDigits {text : List Char} {char : Char} (hdigits : allDigits text = true)
    (hother : char.isDigit = false) : char ∉ text := by
  intro hmem
  rw [List.all_eq_true.mp hdigits char hmem] at hother
  cases hother

theorem splitsInto_of_splitOn {text : List Char} (hparts : (text.splitOn '.').length ≤ 2) :
    SplitsInto text ((text.splitOn '.').headD []) ((text.splitOn '.')[1]?.getD []) := by
  have hjoin : ['.'].intercalate (text.splitOn '.') = text := List.intercalate_splitOn '.'
  rcases hsplit : text.splitOn '.' with _ | ⟨whole, _ | ⟨fraction, _ | ⟨third, rest⟩⟩⟩
  · rw [hsplit] at hjoin
    exact .inl ⟨by simpa using hjoin.symm, rfl⟩
  · rw [hsplit] at hjoin
    exact .inl ⟨by simpa using hjoin.symm, rfl⟩
  · rw [hsplit] at hjoin
    exact .inr (by simpa [List.intercalate] using hjoin.symm)
  · rw [hsplit] at hparts
    simp at hparts

theorem SplitsInto.splitOn {text whole fraction : List Char} (hsplits : SplitsInto text whole fraction)
    (hwhole : allDigits whole = true) (hfraction : allDigits fraction = true) :
    (text.splitOn '.').length ≤ 2 ∧ (text.splitOn '.').headD [] = whole ∧
      (text.splitOn '.')[1]?.getD [] = fraction := by
  have hfree {part : List Char} (hdigits : allDigits part = true) : '.' ∉ part :=
    not_mem_of_allDigits hdigits rfl
  rcases hsplits with ⟨rfl, rfl⟩ | rfl
  · have hsplit : text.splitOn '.' = [text] := by
      simpa using @List.splitOn_intercalate _ [text] _ _ '.' (by simpa using hfree hwhole) (by simp)
    simp [hsplit]
  · have hsplit : (whole ++ '.' :: fraction).splitOn '.' = [whole, fraction] := by
      simpa [List.intercalate] using @List.splitOn_intercalate _ [whole, fraction] _ _ '.'
        (by simpa using ⟨hfree hwhole, hfree hfraction⟩) (by simp)
    simp [hsplit]

theorem SplitsInto.head_ne_minus {text whole fraction : List Char}
    (hsplits : SplitsInto text whole fraction) (hwhole : allDigits whole = true) :
    text.head? ≠ some '-' := by
  have hfree : '-' ∉ whole := not_mem_of_allDigits hwhole rfl
  intro hminus
  cases whole with
  | nil => rcases hsplits with ⟨rfl, -⟩ | rfl <;> simp at hminus
  | cons first rest => rcases hsplits with ⟨rfl, -⟩ | rfl <;> simp_all

theorem parseFraction_getD {inputUnit : InputUnit} {parts : List (List Char)} :
    parseFraction inputUnit (some (parts[1]?.getD [])) = parseFraction inputUnit parts[1]? := by
  cases parts[1]? <;> rfl

/-- A typed amount is accepted just when what counts of it is digits around at most one point,
not more of them behind it than the unit has places, and they denote a positive number of atoms
that fits. -/
theorem parseAmountToAtoms_eq_ok {input : String} {inputUnit : InputUnit} {atoms : UInt64} :
    parseAmountToAtoms input inputUnit = .ok atoms ↔
      ∃ whole fraction, SplitsInto (countedText input) whole fraction ∧
        allDigits whole = true ∧ allDigits fraction = true ∧
        fraction.length ≤ inputUnit.maxDecimals ∧
        atoms.toNat = Decimal.value whole * 10 ^ inputUnit.maxDecimals +
          Decimal.value fraction * 10 ^ (inputUnit.maxDecimals - fraction.length) ∧
        0 < atoms.toNat := by
  rw [parseAmountToAtoms, filter_trim]
  simp only [bind_eq_ok, rejectWhen_eq_ok, okOr_eq_ok, pure_eq_ok, exists_const,
    Option.bind_eq_some_iff, UInt64.checkedMul_eq_some, UInt64.checkedAdd_eq_some,
    InputUnit.toNat_factor]
  rw [countedText]
  constructor
  · rintro ⟨-, -, hparts, hdigits, wholeUnits, hwhole, fractionalUnits, hfraction, atoms,
      ⟨product, hproduct, hsum⟩, hpositive, rfl⟩
    have hdigits : allDigits _ = true := Bool.not_eq_eq_eq_not.mp hdigits
    rw [parseWhole_eq_ok hdigits] at hwhole
    rw [← parseFraction_getD, parseFraction_eq_ok] at hfraction
    obtain ⟨hfractional, hlength, hunits⟩ := hfraction
    refine ⟨_, _, splitsInto_of_splitOn (by simpa using hparts), hdigits, hfractional, hlength,
      ?_, ?_⟩
    · rw [hsum, hproduct, hwhole, hunits]
    · have hne : atoms ≠ 0 := by simpa using hpositive
      exact Nat.pos_of_ne_zero fun hzero => hne (UInt64.toNat_inj.mp hzero)
  · rintro ⟨whole, fraction, hsplits, hwhole, hfraction, hlength, hatoms, hpositive⟩
    have hnonempty : input.toList.filter isCounted ≠ [] := by
      intro hempty
      rw [hempty] at hsplits
      rcases hsplits with ⟨rfl, rfl⟩ | hsplits
      · rw [hatoms] at hpositive
        simp [stripPlus, Decimal.value, Radix.value] at hpositive
      · simp [stripPlus] at hsplits
    have hminus : (input.toList.filter isCounted).head? ≠ some '-' := by
      intro hminus
      obtain ⟨rest, hcons⟩ := List.head?_eq_some_iff.mp hminus
      rw [hcons] at hsplits
      exact hsplits.head_ne_minus hwhole rfl
    have hbound := atoms.toNat_lt
    have hunits (units : Nat) (hunits : units ≤ atoms.toNat) : (UInt64.ofNat units).toNat = units := by
      rw [UInt64.toNat_ofNat']
      exact Nat.mod_eq_of_lt (by omega)
    have hwholeUnits := hunits (Decimal.value whole) (by
      have := Nat.le_mul_of_pos_right (Decimal.value whole)
        (Nat.pow_pos (n := inputUnit.maxDecimals) (show 0 < 10 by decide))
      omega)
    have hproduct := hunits (Decimal.value whole * 10 ^ inputUnit.maxDecimals) (by omega)
    have hfractional := hunits (Decimal.value fraction *
      10 ^ (inputUnit.maxDecimals - fraction.length)) (by omega)
    have hread : parseFraction inputUnit (some fraction) = .ok _ :=
      parseFraction_eq_ok.mpr ⟨hfraction, hlength, hfractional⟩
    obtain ⟨hparts, hhead, hsecond⟩ := hsplits.splitOn hwhole hfraction
    rw [← parseFraction_getD, hhead, hsecond]
    refine ⟨by simpa using hnonempty, by simpa using hminus, by simpa using hparts,
      by simp [hwhole], _, (parseWhole_eq_ok hwhole).mpr hwholeUnits, _, hread, atoms,
      ⟨_, by rw [hproduct, hwholeUnits], by rw [hproduct, hfractional, hatoms]⟩, ?_, rfl⟩
    have hne : atoms ≠ 0 := by
      rintro rfl
      simp at hpositive
    simpa using hne

/-! What is shown is read back. -/

theorem isCounted_of_isDigit {char : Char} (hdigit : char.isDigit = true) :
    isCounted char = true := by
  simp only [Char.isDigit, ge_iff_le, Bool.and_eq_true, decide_eq_true_eq] at hdigit
  have hlower : 48 ≤ char.toNat := UInt32.le_iff_toNat_le.mp hdigit.1
  have hupper : char.toNat ≤ 57 := UInt32.le_iff_toNat_le.mp hdigit.2
  have hcomma : char ≠ ',' := by
    rintro rfl
    exact absurd hlower (by decide)
  simp [isCounted, Text.isWhitespace, hcomma]
  omega

theorem filter_text (number : Nat) :
    (Decimal.text number).filter isCounted = Decimal.text number :=
  List.filter_eq_self.mpr fun _ hchar => isCounted_of_isDigit (Decimal.isDigit_of_mem_text hchar)

theorem filter_formatGroupedU64 (value : UInt64) :
    (formatGroupedU64 value).filter isCounted = Decimal.text value.toNat := by
  have hcomma (char : Char) : [',', char].filter isCounted = [char].filter isCounted := by
    simp [isCounted]
  have hgroup (entry : Char × Nat) (apart : Prop) [Decidable apart] :
      (if apart then [',', entry.1] else [entry.1]).filter isCounted = [entry.1].filter isCounted := by
    split
    · exact hcomma entry.1
    · rfl
  rw [formatGroupedU64, List.filter_flatMap]
  simp only [hgroup]
  rw [← List.filter_flatMap, ← List.map_eq_flatMap, List.zipIdx_map_fst, filter_text]

theorem allDigits_formatPadded (width : Nat) (value : UInt64) :
    allDigits (formatPadded width value) = true := by
  apply List.all_eq_true.mpr
  intro char hchar
  rcases List.mem_append.mp hchar with hzero | hdigit
  · rw [List.eq_of_mem_replicate hzero]
    rfl
  · exact Decimal.isDigit_of_mem_text hdigit

theorem value_formatPadded (width : Nat) (value : UInt64) :
    Decimal.value (formatPadded width value) = value.toNat := by
  rw [formatPadded, Decimal.value_zeros_append, Decimal.value_text]

theorem length_formatPadded {width : Nat} {value : UInt64} (hwidth : 0 < width)
    (hvalue : value.toNat < 10 ^ width) : (formatPadded width value).length = width := by
  have hlength := (Decimal.length_text_le hwidth).mpr hvalue
  rw [formatPadded, List.length_append, List.length_replicate]
  omega

theorem trimZeros_append (text : List Char) :
    trimZeros text ++ List.replicate (text.length - (trimZeros text).length) '0' = text := by
  have hsplit := List.rdropWhile_append_rtakeWhile (p := (· == '0')) (l := text)
  have hzeros : text.rtakeWhile (· == '0') =
      List.replicate (text.rtakeWhile (· == '0')).length '0' :=
    List.eq_replicate_iff.mpr ⟨rfl, fun char hchar => by simpa using List.mem_rtakeWhile_imp hchar⟩
  have hlength := congrArg List.length hsplit
  rw [List.length_append] at hlength
  conv_rhs => rw [← hsplit, hzeros]
  rw [trimZeros]
  congr 2
  omega

theorem trimZeros_formatPadded {width : Nat} {value : UInt64} (hwidth : 0 < width)
    (hvalue : value.toNat < 10 ^ width) :
    allDigits (trimZeros (formatPadded width value)) = true ∧
      (trimZeros (formatPadded width value)).length ≤ width ∧
      Decimal.value (trimZeros (formatPadded width value)) *
        10 ^ (width - (trimZeros (formatPadded width value)).length) = value.toNat := by
  have hdigits := allDigits_formatPadded width value
  have hdenoted := value_formatPadded width value
  have hlength := length_formatPadded hwidth hvalue
  have hrestored := trimZeros_append (formatPadded width value)
  rw [hlength] at hrestored
  rw [← hrestored] at hdigits hdenoted hlength
  rw [allDigits, List.all_append, Bool.and_eq_true] at hdigits
  rw [Decimal.value_append_zeros] at hdenoted
  rw [List.length_append] at hlength
  exact ⟨hdigits.1, by omega, hdenoted⟩

theorem stripPlus_text_append (number : Nat) (rest : List Char) :
    stripPlus (Decimal.text number ++ rest) = Decimal.text number ++ rest := by
  have hfree : '+' ∉ Decimal.text number := fun hplus =>
    absurd (Decimal.isDigit_of_mem_text hplus) (by decide)
  cases hdigits : Decimal.text number with
  | nil => exact absurd hdigits (Decimal.text_ne_nil number)
  | cons first others =>
      rw [List.cons_append, stripPlus]
      intro rest hplus
      rw [List.cons.injEq] at hplus
      simp [hdigits, hplus.1] at hfree

theorem allDigits_text (number : Nat) : allDigits (Decimal.text number) = true :=
  List.all_eq_true.mpr fun _ hchar => Decimal.isDigit_of_mem_text hchar

theorem countedText_formatGroupedU64 (value : UInt64) :
    countedText (String.ofList (formatGroupedU64 value)) = Decimal.text value.toNat := by
  rw [countedText, String.toList_ofList, filter_formatGroupedU64]
  simpa using stripPlus_text_append value.toNat []

theorem splitsInto_formatGroupedU64 (value : UInt64) :
    SplitsInto (countedText (String.ofList (formatGroupedU64 value))) (Decimal.text value.toNat) [] :=
  .inl ⟨countedText_formatGroupedU64 value, rfl⟩

theorem splitsInto_format {whole : UInt64} {fraction : List Char} (hdigits : allDigits fraction = true) :
    SplitsInto (countedText (String.ofList (formatGroupedU64 whole ++ '.' :: fraction)))
      (Decimal.text whole.toNat) fraction := by
  have hfraction : fraction.filter isCounted = fraction :=
    List.filter_eq_self.mpr fun char hchar =>
      isCounted_of_isDigit (List.all_eq_true.mp hdigits char hchar)
  refine .inr ?_
  rw [countedText, String.toList_ofList, List.filter_append, filter_formatGroupedU64,
    List.filter_cons_of_pos (by decide), hfraction, stripPlus_text_append]

theorem parseAmountToAtoms_format {amountAtoms : UInt64} (inputUnit : InputUnit)
    (hpositive : 0 < amountAtoms.toNat) :
    parseAmountToAtoms (formatAmountAtomsWithoutUnit amountAtoms inputUnit) inputUnit =
      .ok amountAtoms := by
  have hfactor := inputUnit.toNat_factor
  have hdivision : amountAtoms.toNat / 10 ^ inputUnit.maxDecimals * 10 ^ inputUnit.maxDecimals +
      amountAtoms.toNat % 10 ^ inputUnit.maxDecimals = amountAtoms.toNat :=
    Nat.div_add_mod' ..
  apply parseAmountToAtoms_eq_ok.mpr
  unfold formatAmountAtomsWithoutUnit formatAmountComponents
  split
  · next hzero =>
      refine ⟨_, [], splitsInto_formatGroupedU64 _, allDigits_text _, rfl, Nat.zero_le _, ?_, hpositive⟩
      rw [Decimal.value_text, hzero]
      simp [Decimal.value, Radix.value]
  · next hplaces =>
      dsimp only
      split
      · next hzero =>
          have hzero : amountAtoms.toNat % 10 ^ inputUnit.maxDecimals = 0 := by
            rw [← hfactor, ← UInt64.toNat_mod, hzero]
            rfl
          refine ⟨_, [], splitsInto_formatGroupedU64 _, allDigits_text _, rfl, Nat.zero_le _, ?_,
            hpositive⟩
          rw [Decimal.value_text, UInt64.toNat_div, hfactor]
          simp only [Decimal.value, Radix.value, List.map_nil, List.foldl_nil]
          omega
      · obtain ⟨hdigits, hlength, hvalue⟩ :=
          @trimZeros_formatPadded _ (amountAtoms % inputUnit.factor)
            (Nat.pos_of_ne_zero hplaces) (by
              rw [UInt64.toNat_mod, hfactor]
              exact Nat.mod_lt _ (Nat.pow_pos (by decide)))
        rw [if_pos rfl]
        refine ⟨_, _, splitsInto_format hdigits, allDigits_text _, hdigits, hlength, ?_, hpositive⟩
        rw [Decimal.value_text, UInt64.toNat_div, hfactor, hvalue, UInt64.toNat_mod, hfactor,
          hdivision]

/-! The value of a decimal text. -/

def isDecimalText (text : List Char) : Bool :=
  text.all (fun char => char.isDigit || char == '.') && decide (text.count '.' ≤ 1)

/-- The exact value of digits around at most one point. -/
def decimalValue (text : List Char) : ℚ :=
  let whole := text.takeWhile (· != '.')
  let fraction := (text.dropWhile (· != '.')).drop 1
  Decimal.value whole + Decimal.value fraction / 10 ^ fraction.length

theorem SplitsInto.isDecimalText {text whole fraction : List Char}
    (hsplits : SplitsInto text whole fraction) (hwhole : allDigits whole = true)
    (hfraction : allDigits fraction = true) : isDecimalText text = true := by
  have hall {part : List Char} (hdigits : allDigits part = true) :
      ∀ char ∈ part, (char.isDigit || char == '.') = true := fun char hchar => by
    rw [List.all_eq_true.mp hdigits char hchar, Bool.true_or]
  have hcount {part : List Char} (hdigits : allDigits part = true) : part.count '.' = 0 :=
    List.count_eq_zero.mpr (not_mem_of_allDigits hdigits rfl)
  rw [Atho.isDecimalText, Bool.and_eq_true, List.all_eq_true, decide_eq_true_eq]
  rcases hsplits with ⟨rfl, -⟩ | rfl
  · exact ⟨hall hwhole, by rw [hcount hwhole]; decide⟩
  · refine ⟨?_, by rw [List.count_append, List.count_cons_self, hcount hwhole, hcount hfraction]⟩
    intro char hchar
    rcases List.mem_append.mp hchar with hchar | hchar
    · exact hall hwhole char hchar
    · rcases List.mem_cons.mp hchar with rfl | hchar
      · rfl
      · exact hall hfraction char hchar

theorem SplitsInto.decimalValue {text whole fraction : List Char}
    (hsplits : SplitsInto text whole fraction) (hwhole : allDigits whole = true) :
    decimalValue text = Decimal.value whole + Decimal.value fraction / 10 ^ fraction.length := by
  have hfree : ∀ char ∈ whole, (char != '.') = true := fun char hchar => by
    have hother : char ≠ '.' := fun heq => not_mem_of_allDigits hwhole rfl (heq ▸ hchar)
    simpa using hother
  rcases hsplits with ⟨rfl, rfl⟩ | rfl
  · rw [Atho.decimalValue, List.takeWhile_eq_self_iff.mpr hfree, List.dropWhile_eq_nil_iff.mpr hfree]
    rfl
  · rw [Atho.decimalValue, List.takeWhile_append_of_pos hfree, List.dropWhile_append_of_pos hfree]
    simp

/-- An amount that is shown is read back, and what is read is the exact value of the text. -/
theorem typed_amounts_exact :
    (∀ (amountAtoms : UInt64) (inputUnit : InputUnit), 0 < amountAtoms →
      parseAmountToAtoms (formatAmountAtomsWithoutUnit amountAtoms inputUnit) inputUnit =
        .ok amountAtoms) ∧
    ∀ (input : String) (inputUnit : InputUnit) (atoms : UInt64),
      parseAmountToAtoms input inputUnit = .ok atoms →
        isDecimalText (countedText input) = true ∧
          (atoms.toNat : ℚ) = decimalValue (countedText input) * inputUnit.factor.toNat := by
  constructor
  · intro amountAtoms inputUnit hpositive
    exact parseAmountToAtoms_format inputUnit (UInt64.lt_iff_toNat_lt.mp hpositive)
  · intro input inputUnit atoms hparse
    obtain ⟨whole, fraction, hsplits, hwhole, hfraction, hlength, hatoms, -⟩ :=
      parseAmountToAtoms_eq_ok.mp hparse
    refine ⟨hsplits.isDecimalText hwhole hfraction, ?_⟩
    have hplaces : (10 : ℚ) ^ inputUnit.maxDecimals =
        10 ^ (inputUnit.maxDecimals - fraction.length) * 10 ^ fraction.length := by
      rw [← pow_add, Nat.sub_add_cancel hlength]
    rw [hsplits.decimalValue hwhole, hatoms, InputUnit.toNat_factor]
    push_cast
    rw [add_mul, hplaces]
    field_simp

theorem typed_amounts_exact_at_samples :
    parseAmountToAtoms "123,456,789.01" .atho = .ok 12345678901000000 ∧
      parseAmountToAtoms (formatAmountAtomsWithoutUnit 12345678901000000 .milliAtho) .milliAtho =
        .ok 12345678901000000 ∧
      (12345678901000000 : ℚ) = decimalValue (countedText "123,456,789.01") * 100000000 := by
  have hread : parseAmountToAtoms "123,456,789.01" .atho = .ok 12345678901000000 := by decide +kernel
  exact ⟨hread, typed_amounts_exact.1 _ .milliAtho (by decide),
    (typed_amounts_exact.2 _ _ _ hread).2⟩

end Atho
