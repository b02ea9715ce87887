import Mathlib.Data.Finmap
import Mathlib.Tactic
import Atho.Library.Forall2

/-! Fallible steps, checked and saturating 64-bit arithmetic. -/

theorem bind_eq_ok {step : Except ε α} {next : α → Except ε β} {result : β} :
    step >>= next = .ok result ↔ ∃ value, step = .ok value ∧ next value = .ok result := by
  cases step with
  | error err => simp [bind, Except.bind]
  | ok value => simp [bind, Except.bind]

theorem pure_eq_ok {value result : α} :
    (pure value : Except ε α) = .ok result ↔ value = result := by
  simp [pure, Except.pure]

theorem bind_eq_error {step : Except ε α} {next : α → Except ε β} {err : ε} :
    step >>= next = .error err ↔
      step = .error err ∨ ∃ value, step = .ok value ∧ next value = .error err := by
  cases step with
  | error err => simp [bind, Except.bind]
  | ok value => simp [bind, Except.bind]

theorem mapError_eq_ok {step : Except ε α} {change : ε → δ} {value : α} :
    step.mapError change = .ok value ↔ step = .ok value := by
  cases step <;> simp [Except.mapError]

theorem mapM_eq_ok {step : α → Except ε β} {items : List α} {results : List β} :
    items.mapM step = .ok results ↔
      List.Forall₂ (fun item result => step item = .ok result) items results := by
  induction items generalizing results with
  | nil => rw [List.mapM_nil, pure_eq_ok, List.forall₂_nil_left_iff, eq_comm]
  | cons item items ih =>
      simp only [List.mapM_cons, bind_eq_ok, pure_eq_ok, ih, List.forall₂_cons_left_iff]
      constructor
      · rintro ⟨result, hresult, rest, hrest, rfl⟩
        exact ⟨result, rest, hresult, hrest, rfl⟩
      · rintro ⟨result, rest, hresult, hrest, rfl⟩
        exact ⟨result, hresult, rest, hrest, rfl⟩

theorem exists_mapM_ok {step : α → Except ε β} {items : List α}
    (hstep : ∀ item ∈ items, ∃ result, step item = .ok result) :
    ∃ results, items.mapM step = .ok results := by
  obtain ⟨results, hresults⟩ := exists_forall₂ hstep
  exact ⟨results, mapM_eq_ok.mpr hresults⟩

theorem mapM_eq_some_map {step : α → Option β} {next : α → β} {items : List α}
    (hstep : ∀ item ∈ items, step item = some (next item)) :
    items.mapM step = some (items.map next) := by
  induction items with
  | nil => rfl
  | cons item rest ih =>
      obtain ⟨hitem, hrest⟩ := List.forall_mem_cons.mp hstep
      simp [hitem, ih hrest]

/-- Fail with `err` when the test for something bad succeeds. -/
def rejectWhen (bad : Bool) (err : ε) : Except ε Unit :=
  if bad then .error err else .ok ()

@[simp] theorem rejectWhen_eq_ok {bad : Bool} {err : ε} {result : Unit} :
    rejectWhen bad err = .ok result ↔ bad = false := by
  cases bad <;> simp [rejectWhen]

theorem rejectWhen_eq_error {bad : Bool} {err found : ε} :
    rejectWhen bad err = .error found ↔ bad = true ∧ err = found := by
  cases bad <;> simp [rejectWhen]

/-- The value of an option, or the error that its absence is. -/
def okOr (value : Option α) (err : ε) : Except ε α :=
  match value with
  | some value => .ok value
  | none => .error err

@[simp] theorem okOr_eq_ok {value : Option α} {err : ε} {result : α} :
    okOr value err = .ok result ↔ value = some result := by
  cases value <;> simp [okOr]

theorem okOr_eq_error {value : Option α} {err found : ε} :
    okOr value err = .error found ↔ value = none ∧ err = found := by
  cases value <;> simp [okOr]

namespace UInt64

def checkedAdd (left right : UInt64) : Option UInt64 :=
  if left.toNat + right.toNat < 2 ^ 64 then some (left + right) else none

def saturatingAdd (left right : UInt64) : UInt64 :=
  (left.checkedAdd right).getD (UInt64.ofNat (2 ^ 64 - 1))

def saturatingSub (left right : UInt64) : UInt64 :=
  if right ≤ left then left - right else 0

def checkedSub (left right : UInt64) : Option UInt64 :=
  if right ≤ left then some (left - right) else none

theorem checkedAdd_eq_some {left right sum : UInt64} :
    left.checkedAdd right = some sum ↔ sum.toNat = left.toNat + right.toNat := by
  have hbound := sum.toNat_lt
  unfold checkedAdd
  split
  · next hlt =>
      rw [Option.some.injEq, ← UInt64.toNat_inj, UInt64.toNat_add, Nat.mod_eq_of_lt hlt]
      exact eq_comm
  · next hge =>
      simp only [reduceCtorEq, false_iff]
      omega

theorem toNat_saturatingAdd (left right : UInt64) :
    (left.saturatingAdd right).toNat = min (left.toNat + right.toNat) (2 ^ 64 - 1) := by
  unfold saturatingAdd checkedAdd
  split
  · next hlt =>
      simp only [Option.getD_some, UInt64.toNat_add, Nat.mod_eq_of_lt hlt]
      omega
  · next hge =>
      simp only [Option.getD_none, UInt64.toNat_ofNat']
      omega

theorem toNat_saturatingSub (left right : UInt64) :
    (left.saturatingSub right).toNat = left.toNat - right.toNat := by
  unfold saturatingSub
  split
  · next hle => exact UInt64.toNat_sub_of_le _ _ hle
  · next hnot =>
      rw [UInt64.le_iff_toNat_le] at hnot
      simp only [UInt64.toNat_zero]
      omega

theorem checkedSub_eq_some {left right difference : UInt64} :
    left.checkedSub right = some difference ↔
      left.toNat = right.toNat + difference.toNat := by
  unfold checkedSub
  split
  · next hle =>
      have hsub := UInt64.toNat_sub_of_le _ _ hle
      rw [UInt64.le_iff_toNat_le] at hle
      rw [Option.some.injEq, ← UInt64.toNat_inj, hsub]
      omega
  · next hlt =>
      rw [UInt64.le_iff_toNat_le] at hlt
      simp only [reduceCtorEq, false_iff]
      omega

/-- Add up, failing on the first sum that does not fit. -/
def checkedSum (total : UInt64) : List UInt64 → Option UInt64
  | [] => some total
  | value :: rest => (total.checkedAdd value).bind fun total => checkedSum total rest

theorem checkedSum_eq_some {total sum : UInt64} {values : List UInt64}
    (hsum : checkedSum total values = some sum) :
    sum.toNat = total.toNat + (values.map UInt64.toNat).sum := by
  induction values generalizing total with
  | nil =>
      obtain rfl : total = sum := by simpa [checkedSum] using hsum
      simp
  | cons value rest ih =>
      obtain ⟨next, hnext, hrest⟩ := Option.bind_eq_some_iff.mp hsum
      rw [ih hrest, checkedAdd_eq_some.mp hnext, List.map_cons, List.sum_cons]
      omega

end UInt64
