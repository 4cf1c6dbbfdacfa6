import Mathlib.Algebra.Group.Nat.Defs
import Columnar.Bytes

/-!
Operations as a machine checks them. Each gives the exact result or nothing: nothing if a number
does not fit its type, if an index or a slice is out of range, or if a copy does not have the
length of its target. A computation that comes to nothing is one that stops the program.
-/
namespace Columnar.Checked

/-- A number that has to lie within bounds. -/
def within (low high value : Int) : Option Int :=
  if low ≤ value ∧ value ≤ high then some value else none

/-- Signed numbers of 32 bits. -/
def int32 (value : Int) : Option Int := within (-0x80000000) 0x7fffffff value

/-- Signed numbers of 64 bits. -/
def int64 (value : Int) : Option Int := within (-0x8000000000000000) 0x7fffffffffffffff value

/-- Unsigned numbers of 32 bits. -/
def nat32 (value : Int) : Option Nat := (within 0 0xffffffff value).map Int.toNat

/-- Sizes. -/
def word (value : Int) : Option Nat := (within 0 maxSize value).map Int.toNat

/-- Division that rounds towards the past. -/
def quotient (dividend divisor : Int) : Option Int :=
  if divisor = 0 then none else int64 (dividend / divisor)

/-- What that division leaves, which is never negative. -/
def remainder (dividend divisor : Int) : Option Int :=
  if divisor = 0 then none else int64 (dividend % divisor)

/-- What is left of a size. -/
def difference (whole part : Nat) : Option Nat := if part ≤ whole then some (whole - part) else none

/-- The bytes from `start` up to `stop`. -/
def slice (start stop : Nat) (bytes : Bytes) : Option Bytes :=
  if start ≤ stop ∧ stop ≤ bytes.length then some ((bytes.take stop).drop start) else none

/-- The whole cells of a block. Cells of no bytes cannot be counted. -/
def wholeCells (size : Nat) (block : Bytes) : Option (List Bytes) :=
  if size = 0 then none else some (Bytes.wholeCells size block)

/-- A copy to a place for `size` bytes. -/
def copied (size : Nat) (bytes : Bytes) : Option Bytes :=
  if bytes.length = size then some bytes else none

/-- Values in a list that takes `room` bytes for each. -/
def collected (room : Nat) (values : List α) : Option (List α) :=
  if maxAllocation < room * values.length then none else some values

/-- A step that has a result is followed by what comes behind it. -/
theorem andThen {step : Option α} {rest : α → Option β} {a : α} {last : Option β}
    (hstep : step = some a) (hrest : rest a = last) : step >>= rest = last := by
  rw [hstep]
  exact hrest

variable {value : Int} {result : Nat}

theorem within_eq {low high : Int} (hlow : low ≤ value) (hhigh : value ≤ high) :
    within low high value = some value :=
  if_pos ⟨hlow, hhigh⟩

theorem int32_eq (hlow : -0x80000000 ≤ value) (hhigh : value ≤ 0x7fffffff) :
    int32 value = some value :=
  within_eq hlow hhigh

theorem int64_eq {exact : Int} (hvalue : value = exact) (hlow : -0x8000000000000000 ≤ exact)
    (hhigh : exact ≤ 0x7fffffffffffffff) : int64 value = some exact := by
  rw [hvalue]
  exact within_eq hlow hhigh

theorem quotient_eq {dividend divisor : Int} (hdivisor : divisor ≠ 0)
    (hlow : -0x8000000000000000 ≤ dividend / divisor)
    (hhigh : dividend / divisor ≤ 0x7fffffffffffffff) :
    quotient dividend divisor = some (dividend / divisor) := by
  rw [quotient, if_neg hdivisor]
  exact within_eq hlow hhigh

theorem remainder_eq {dividend divisor : Int} (hdivisor : divisor ≠ 0)
    (hlow : -0x8000000000000000 ≤ dividend % divisor)
    (hhigh : dividend % divisor ≤ 0x7fffffffffffffff) :
    remainder dividend divisor = some (dividend % divisor) := by
  rw [remainder, if_neg hdivisor]
  exact within_eq hlow hhigh

theorem nat32_eq (hvalue : value = result) (hhigh : result ≤ 0xffffffff) :
    nat32 value = some result := by
  rw [nat32, within_eq (by omega) (by omega), hvalue]
  rfl

theorem word_eq (hvalue : value = result) (hhigh : result ≤ maxSize) :
    word value = some result := by
  rw [word, within_eq (by omega) (by omega), hvalue]
  rfl

theorem difference_eq {whole part : Nat} (h : part ≤ whole) :
    difference whole part = some (whole - part) :=
  if_pos h

theorem collected_eq {room : Nat} {values : List α} (h : room * values.length ≤ maxAllocation) :
    collected room values = some values :=
  if_neg (Nat.not_lt.mpr h)

/-- The bytes at a place are a slice, and what comes behind them stands at the next place. -/
theorem slice_front {place size : Nat} {data front rest : Bytes} (hplace : place ≤ data.length)
    (hunread : data.drop place = front ++ rest) (hsize : front.length = size) :
    slice place (place + size) data = some front ∧ data.drop (place + size) = rest ∧
      place + size ≤ data.length := by
  have hlength := congrArg List.length hunread
  rw [List.length_drop, List.length_append] at hlength
  refine ⟨?_, ?_, by omega⟩
  · rw [slice, if_pos (by omega), List.drop_take, hunread, Nat.add_sub_cancel_left, ← hsize,
      List.take_left]
  · rw [← List.drop_drop, hunread, ← hsize, List.drop_left]

/-- The cell of a row is a slice of its block. -/
theorem slice_cell {size row : Nat} {block : Bytes} (h : (row + 1) * size ≤ block.length) :
    slice (row * size) ((row + 1) * size) block = some ((block.drop (row * size)).take size) := by
  have hle : row * size ≤ (row + 1) * size := Nat.mul_le_mul_right size (Nat.le_succ row)
  have hlength : (row + 1) * size - row * size = size := by
    rw [Nat.succ_mul]
    omega
  rw [slice, if_pos ⟨hle, h⟩, List.drop_take, hlength]

end Columnar.Checked
