import Mathlib.Data.List.Basic

/-! Taking a list up to the first item that stops it, that item included. -/

namespace List

variable {α β : Type}

def takeThrough (stops : α → Bool) : (limit : Nat) → List α → List α
  | 0, _ => []
  | _ + 1, [] => []
  | limit + 1, item :: rest =>
      item :: if stops item then [] else takeThrough stops limit rest

variable {stops : α → Bool}

theorem takeThrough_isPrefix (limit : Nat) (items : List α) :
    takeThrough stops limit items <+: items := by
  induction limit generalizing items with
  | zero => exact nil_prefix
  | succ limit ih =>
      cases items with
      | nil => exact nil_prefix
      | cons item rest =>
          rw [takeThrough, prefix_cons_inj]
          split
          · exact nil_prefix
          · exact ih rest

theorem length_takeThrough_le (limit : Nat) (items : List α) :
    (takeThrough stops limit items).length ≤ limit := by
  induction limit generalizing items with
  | zero => exact Nat.le_refl _
  | succ limit ih =>
      cases items with
      | nil => exact Nat.zero_le _
      | cons item rest =>
          rw [takeThrough, length_cons, Nat.add_le_add_iff_right]
          split
          · exact Nat.zero_le _
          · exact ih rest

theorem takeThrough_ends (limit : Nat) (items : List α) :
    (takeThrough stops limit items).length = limit ∨ takeThrough stops limit items = items ∨
      ∃ last, (takeThrough stops limit items).getLast? = some last ∧ stops last = true := by
  induction limit generalizing items with
  | zero => exact .inl rfl
  | succ limit ih =>
      cases items with
      | nil => exact .inr (.inl rfl)
      | cons item rest =>
          rw [takeThrough]
          split
          · next hstops => exact .inr (.inr ⟨item, rfl, hstops⟩)
          · rcases ih rest with hlength | hwhole | ⟨last, hlast, hstops⟩
            · exact .inl (by rw [length_cons, hlength])
            · exact .inr (.inl (by rw [hwhole]))
            · exact .inr (.inr ⟨last, by rw [getLast?_cons, hlast, Option.getD_some], hstops⟩)

theorem not_stops_of_mem_dropLast (limit : Nat) (items : List α) :
    ∀ item ∈ (takeThrough stops limit items).dropLast, stops item = false := by
  induction limit generalizing items with
  | zero => simp [takeThrough]
  | succ limit ih =>
      cases items with
      | nil => simp [takeThrough]
      | cons item rest =>
          rw [takeThrough]
          split
          · simp
          · next hgoes =>
              intro other hother
              cases htaken : takeThrough stops limit rest with
              | nil => simp [htaken] at hother
              | cons first others =>
                  rw [htaken, dropLast_cons_cons, mem_cons, ← htaken] at hother
                  rcases hother with rfl | hother
                  · simpa using hgoes
                  · exact ih rest other hother

end List
