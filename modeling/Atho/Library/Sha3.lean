import Atho.Library.Codec

/-! SHA3-256 and SHA3-384 on byte strings. Lanes are numbers below `2 ^ 64`, so
that the functions can be evaluated inside a proof. -/

namespace Sha3

def laneBits : Nat := 64

def rotateLeft (lane amount : Nat) : Nat :=
  (lane <<< amount) % 2 ^ laneBits ||| (lane >>> (laneBits - amount))

/-- Five lanes that share their `y` coordinate. -/
structure Plane where
  a : Nat
  b : Nat
  c : Nat
  d : Nat
  e : Nat

structure State where
  y0 : Plane
  y1 : Plane
  y2 : Plane
  y3 : Plane
  y4 : Plane

namespace Plane

def xor (left right : Plane) : Plane :=
  ⟨left.a ^^^ right.a, left.b ^^^ right.b, left.c ^^^ right.c, left.d ^^^ right.d,
    left.e ^^^ right.e⟩

def chiLane (lane next afterNext : Nat) : Nat :=
  lane ^^^ (((2 ^ laneBits - 1) ^^^ next) &&& afterNext)

def chi (plane : Plane) : Plane :=
  ⟨chiLane plane.a plane.b plane.c, chiLane plane.b plane.c plane.d,
    chiLane plane.c plane.d plane.e, chiLane plane.d plane.e plane.a,
    chiLane plane.e plane.a plane.b⟩

def lanes (plane : Plane) : List Nat :=
  [plane.a, plane.b, plane.c, plane.d, plane.e]

/-- The plane of the five lanes from position `start` on. -/
def ofLanes (lanes : List Nat) (start : Nat) : Plane :=
  ⟨lanes.getD start 0, lanes.getD (start + 1) 0, lanes.getD (start + 2) 0,
    lanes.getD (start + 3) 0, lanes.getD (start + 4) 0⟩

end Plane

namespace State

def theta (state : State) : State :=
  let column := (((state.y0.xor state.y1).xor state.y2).xor state.y3).xor state.y4
  let parity : Plane :=
    ⟨column.e ^^^ rotateLeft column.b 1, column.a ^^^ rotateLeft column.c 1,
      column.b ^^^ rotateLeft column.d 1, column.c ^^^ rotateLeft column.e 1,
      column.d ^^^ rotateLeft column.a 1⟩
  ⟨state.y0.xor parity, state.y1.xor parity, state.y2.xor parity, state.y3.xor parity,
    state.y4.xor parity⟩

def rhoPi (state : State) : State where
  y0 := ⟨state.y0.a, rotateLeft state.y1.b 44, rotateLeft state.y2.c 43,
    rotateLeft state.y3.d 21, rotateLeft state.y4.e 14⟩
  y1 := ⟨rotateLeft state.y0.d 28, rotateLeft state.y1.e 20, rotateLeft state.y2.a 3,
    rotateLeft state.y3.b 45, rotateLeft state.y4.c 61⟩
  y2 := ⟨rotateLeft state.y0.b 1, rotateLeft state.y1.c 6, rotateLeft state.y2.d 25,
    rotateLeft state.y3.e 8, rotateLeft state.y4.a 18⟩
  y3 := ⟨rotateLeft state.y0.e 27, rotateLeft state.y1.a 36, rotateLeft state.y2.b 10,
    rotateLeft state.y3.c 15, rotateLeft state.y4.d 56⟩
  y4 := ⟨rotateLeft state.y0.c 62, rotateLeft state.y1.d 55, rotateLeft state.y2.e 39,
    rotateLeft state.y3.a 41, rotateLeft state.y4.b 2⟩

def chiIota (state : State) (constant : Nat) : State :=
  let first := state.y0.chi
  ⟨{ first with a := first.a ^^^ constant }, state.y1.chi, state.y2.chi, state.y3.chi,
    state.y4.chi⟩

def round (state : State) (constant : Nat) : State :=
  (state.theta.rhoPi).chiIota constant

def roundConstants : List Nat :=
  [0x0000000000000001, 0x0000000000008082, 0x800000000000808A, 0x8000000080008000,
    0x000000000000808B, 0x0000000080000001, 0x8000000080008081, 0x8000000000008009,
    0x000000000000008A, 0x0000000000000088, 0x0000000080008009, 0x000000008000000A,
    0x000000008000808B, 0x800000000000008B, 0x8000000000008089, 0x8000000000008003,
    0x8000000000008002, 0x8000000000000080, 0x000000000000800A, 0x800000008000000A,
    0x8000000080008081, 0x8000000000008080, 0x0000000080000001, 0x8000000080008008]

def permute (state : State) : State :=
  roundConstants.foldl round state

def xor (left right : State) : State :=
  ⟨left.y0.xor right.y0, left.y1.xor right.y1, left.y2.xor right.y2,
    left.y3.xor right.y3, left.y4.xor right.y4⟩

def lanes (state : State) : List Nat :=
  state.y0.lanes ++ state.y1.lanes ++ state.y2.lanes ++ state.y3.lanes ++ state.y4.lanes

def ofLanes (lanes : List Nat) : State :=
  ⟨.ofLanes lanes 0, .ofLanes lanes 5, .ofLanes lanes 10, .ofLanes lanes 15,
    .ofLanes lanes 20⟩

@[simp] theorem length_lanes (state : State) : state.lanes.length = 25 :=
  rfl

end State

/-- The message with the domain bits of SHA3 and padding up to a whole number of
blocks of `rate` bytes. -/
def pad (rate : Nat) (message : List UInt8) : List UInt8 :=
  match rate - message.length % rate with
  | 0 => message
  | 1 => message ++ [0x86]
  | count + 2 => message ++ 0x06 :: (List.replicate count 0 ++ [0x80])

def lanesOf : List UInt8 → List Nat
  | b0 :: b1 :: b2 :: b3 :: b4 :: b5 :: b6 :: b7 :: rest =>
      leValue [b0, b1, b2, b3, b4, b5, b6, b7] :: lanesOf rest
  | _ => []

def absorb (laneRate : Nat) : (blocks : Nat) → State → List Nat → State
  | 0, state, _ => state
  | blocks + 1, state, lanes =>
      let block := State.ofLanes (lanes.take laneRate)
      absorb laneRate blocks (state.xor block).permute (lanes.drop laneRate)

theorem length_flatMap_leBytes (width : Nat) (values : List Nat) :
    (values.flatMap (leBytes width)).length = width * values.length := by
  induction values with
  | nil => rfl
  | cons value values ih =>
      rw [List.flatMap_cons, List.length_append, length_leBytes, ih, List.length_cons]
      ring

/-- Hash with a rate of `laneRate` lanes and read `digestLanes` lanes out. -/
def hash (laneRate digestLanes : Nat) (message : List UInt8) : List UInt8 :=
  let lanes := lanesOf (pad (8 * laneRate) message)
  let state := absorb laneRate (message.length / (8 * laneRate) + 1) (.ofLanes []) lanes
  (state.lanes.take digestLanes).flatMap (leBytes 8)

theorem length_hash (laneRate digestLanes : Nat) (message : List UInt8)
    (hlanes : digestLanes ≤ 25) :
    (hash laneRate digestLanes message).length = 8 * digestLanes := by
  rw [hash, length_flatMap_leBytes, List.length_take, State.length_lanes,
    Nat.min_eq_left hlanes]

/-- SHA3-256. -/
def digest256 (message : List UInt8) : Bytes 32 :=
  ⟨hash 17 4 message, length_hash 17 4 message (by decide)⟩

/-- SHA3-384. -/
def digest384 (message : List UInt8) : Bytes 48 :=
  ⟨hash 13 6 message, length_hash 13 6 message (by decide)⟩

example : digest384 [] = Bytes.ofNat 48
    0x0c63a75b845e4f7d01107d852e4c2485c51a50aaaa94fc61995e71bbee983a2ac3713831264adb47fb6bd1e058d5f004 := by
  decide +kernel

end Sha3
