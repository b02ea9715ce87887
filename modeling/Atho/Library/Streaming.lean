import Mathlib.Tactic

/-! Byte strings that are consumed or written piece by piece: digests that are fed
in several updates, and buffers of a fixed length that are filled in order. -/

/-- A hash state that is fed bytes; how they are cut into updates does not
matter. -/
structure Digest (σ : Type) where
  update : σ → List UInt8 → σ
  update_nil : ∀ state, update state [] = state
  update_append : ∀ state first second,
    update state (first ++ second) = update (update state first) second

namespace Digest

/-- The digest that keeps everything it was fed. -/
def transcript : Digest (List UInt8) where
  update := (· ++ ·)
  update_nil := List.append_nil
  update_append state first second := (List.append_assoc state first second).symm

variable {σ : Type} (digest : Digest σ)

/-- Several updates, one after another. -/
def feed (state : σ) (chunks : List (List UInt8)) : σ :=
  chunks.foldl digest.update state

theorem feed_eq_update (state : σ) (chunks : List (List UInt8)) :
    digest.feed state chunks = digest.update state chunks.flatten := by
  induction chunks generalizing state with
  | nil => exact (digest.update_nil state).symm
  | cons chunk chunks ih =>
      rw [feed, List.foldl_cons, List.flatten_cons, digest.update_append]
      exact ih _

theorem foldl_update (encode : α → List UInt8) {step : σ → α → σ}
    (hstep : ∀ state item, step state item = digest.update state (encode item))
    (state : σ) (items : List α) :
    items.foldl step state = digest.update state (items.flatMap encode) := by
  induction items generalizing state with
  | nil => exact (digest.update_nil state).symm
  | cons item items ih =>
      rw [List.foldl_cons, ih, hstep, List.flatMap_cons, digest.update_append]

end Digest

/-- A buffer and the offset up to which it has been filled. -/
structure FilledBuffer where
  bytes : List UInt8
  offset : Nat

namespace FilledBuffer

/-- A buffer of zeroes with nothing filled in. -/
def new (size : Nat) : FilledBuffer := ⟨List.replicate size 0, 0⟩

/-- Copy a field to the offset and move on behind it. -/
def copyFromSlice (buffer : FilledBuffer) (field : List UInt8) : FilledBuffer :=
  ⟨buffer.bytes.take buffer.offset ++ field ++
      buffer.bytes.drop (buffer.offset + field.length),
    buffer.offset + field.length⟩

/-- What has been written, and how many bytes are left. -/
structure Holds (buffer : FilledBuffer) (written : List UInt8) (left : Nat) : Prop where
  offset : buffer.offset = written.length
  taken : buffer.bytes.take buffer.offset = written
  length : buffer.bytes.length = written.length + left

theorem holds_new (size : Nat) : (new size).Holds [] size :=
  ⟨rfl, rfl, by simp [new]⟩

theorem Holds.copyFromSlice {buffer : FilledBuffer} {written field : List UInt8} {left : Nat}
    (hbuffer : buffer.Holds written (field.length + left)) :
    (buffer.copyFromSlice field).Holds (written ++ field) left := by
  have hlength := hbuffer.length
  have hoffset := hbuffer.offset
  refine ⟨by simp [FilledBuffer.copyFromSlice, hoffset], ?_, ?_⟩
  · rw [FilledBuffer.copyFromSlice, hbuffer.taken]
    exact List.take_left' (by simp [hoffset])
  · simp only [FilledBuffer.copyFromSlice, hbuffer.taken, List.length_append, List.length_drop]
    omega

theorem Holds.bytes_eq {buffer : FilledBuffer} {written : List UInt8}
    (hbuffer : buffer.Holds written 0) : buffer.bytes = written := by
  have htaken := hbuffer.taken
  have hlength : buffer.bytes.length ≤ written.length := hbuffer.length.le
  rwa [hbuffer.offset, List.take_of_length_le hlength] at htaken

theorem foldl_copyFromSlice {buffer : FilledBuffer} {written : List UInt8}
    (fields : List (List UInt8)) (hbuffer : buffer.Holds written fields.flatten.length) :
    (fields.foldl FilledBuffer.copyFromSlice buffer).bytes = written ++ fields.flatten := by
  induction fields generalizing buffer written with
  | nil => simpa using hbuffer.bytes_eq
  | cons field fields ih =>
      rw [List.flatten_cons, List.length_append] at hbuffer
      rw [List.foldl_cons, ih hbuffer.copyFromSlice, List.flatten_cons, List.append_assoc]

end FilledBuffer
