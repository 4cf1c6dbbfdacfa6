import Columnar.Proofs.Checked.Machine
import Columnar.Proofs.Chunk.Cutting

/-!
Cutting a payload in checked operations. Every chunk is a slice of the payload, from one place to
another that is added up or clamped, and none of this ever fails, whatever the distance or the
offsets are.
-/
namespace Columnar.Checked

/-- The number within bounds that is closest to the value. There is none between bounds that are
the wrong way around. -/
def clamped (low high value : Nat) : Option Nat :=
  if low ≤ high then some (max low (min value high)) else none

/-- The chunks from `start` on, each `size` bytes behind the one before it. -/
def chunksFrom (size start : Nat) (data : Bytes) : Option (List Bytes) :=
  if _ : start < data.length ∧ 0 < size then do
    let stop ← word (start + size)
    let chunk ← slice start (min stop data.length) data
    let later ← chunksFrom size (start + size) data
    return chunk :: later
  else some []
termination_by data.length - start

def splitEvery (size : Nat) (data : Bytes) : Option (List Bytes) := chunksFrom (max size 1) 0 data

/-- The chunks from `start` on, cut at the offsets. -/
def cutsFrom (start : Nat) (data : Bytes) : List Nat → Option (List Bytes)
  | [] =>
    if start < data.length then do
      let last ← slice start data.length data
      return [last]
    else some []
  | offset :: offsets => do
    let stop ← clamped start data.length offset
    if start < stop then
      let chunk ← slice start stop data
      let later ← cutsFrom stop data offsets
      return chunk :: later
    else cutsFrom stop data offsets

def splitAtOffsets (offsets : List Nat) (data : Bytes) : Option (List Bytes) :=
  cutsFrom 0 data offsets

variable {size start : Nat} {data : Bytes}

/-- The first bytes from a place on are a slice. -/
theorem slice_take {stop : Nat} (hstart : start ≤ stop) (hstop : stop ≤ data.length) :
    slice start stop data = some ((data.drop start).take (stop - start)) := by
  rw [slice, if_pos ⟨hstart, hstop⟩, List.drop_take]

/-- A chunk that is not the first begins at least a whole distance behind the start, so the
distance is no longer than the payload. -/
theorem chunksFrom_eq (hsize : 0 < size) (hword : size ≤ maxSize)
    (hdata : data.length ≤ maxAllocation) (hstart : start = 0 ∨ size ≤ start) :
    chunksFrom size start data = some (Bytes.splitEvery size (data.drop start)) := by
  induction hleft : data.length - start using Nat.strongRecOn generalizing start with
  | ind left ih =>
    rw [chunksFrom]
    by_cases hmore : start < data.length
    · have hunread : data.drop start ≠ [] := by
        rw [Ne, List.drop_eq_nil_iff]
        omega
      have hstop : word (start + size) = some (start + size) := by
        rw [maxSize] at hword
        rw [maxAllocation] at hdata
        exact word_eq rfl (by rw [maxSize]; omega)
      have hchunk : slice start (min (start + size) data.length) data =
          some ((data.drop start).take size) := by
        rw [slice_take (by omega) (Nat.min_le_right _ _)]
        congr 1
        rw [List.take_eq_take_iff, List.length_drop]
        omega
      have hlater := ih (data.length - (start + size)) (by omega) (.inr (Nat.le_add_left _ _)) rfl
      rw [dif_pos ⟨hmore, hsize⟩, Bytes.splitEvery_of_ne_nil hsize hunread, List.drop_drop]
      exact andThen hstop (andThen hchunk (andThen hlater rfl))
    · rw [dif_neg (fun h => hmore h.1), List.drop_eq_nil_of_le (Nat.not_lt.mp hmore),
        Bytes.splitEvery_nil]

theorem splitEvery_eq (hword : size ≤ maxSize) (hdata : data.length ≤ maxAllocation) :
    splitEvery size data = some (Bytes.splitEvery size data) := by
  have hmax : max size 1 ≤ maxSize := Nat.max_le.mpr ⟨hword, by decide⟩
  rw [splitEvery, chunksFrom_eq (Nat.lt_of_lt_of_le Nat.one_pos (Nat.le_max_right _ _)) hmax hdata
    (.inl rfl), List.drop_zero, Bytes.splitEvery_max]

/-- The start never passes the end of the payload, so there is always a place to clamp to. -/
theorem cutsFrom_eq (offsets : List Nat) (hstart : start ≤ data.length) :
    cutsFrom start data offsets = some (Bytes.cutsAfter start (data.drop start) [] offsets) := by
  induction offsets generalizing start with
  | nil =>
    rw [cutsFrom, Bytes.cutsAfter]
    by_cases hmore : start < data.length
    · have hunread : ¬ (data.drop start).isEmpty := by simpa using hmore
      have hlast : slice start data.length data = some (data.drop start) := by
        rw [slice_take hstart (Nat.le_refl _), ← List.length_drop, List.take_length]
      rw [if_pos hmore, if_neg hunread]
      exact andThen hlast rfl
    · have hnone : (data.drop start).isEmpty := by simpa using hmore
      rw [if_neg hmore, if_pos hnone]
      rfl
  | cons offset offsets ih =>
    generalize hstop : max start (min offset data.length) = stop
    have hclamped : clamped start data.length offset = some stop := by
      rw [← hstop]
      exact if_pos hstart
    have hwithin : stop ≤ data.length := by omega
    have hfront : (data.drop start).take (offset - start) = (data.drop start).take (stop - start) := by
      rw [List.take_eq_take_iff, List.length_drop]
      omega
    have hrest : (data.drop start).drop (offset - start) = data.drop stop := by
      rw [List.drop_drop, List.drop_eq_drop_iff]
      omega
    have hlength : start + ((data.drop start).take (stop - start)).length = stop := by
      rw [List.length_take, List.length_drop]
      omega
    have hlater := ih hwithin
    rw [cutsFrom, Bytes.cutsAfter_cons, hfront, hrest, hlength]
    refine andThen hclamped ?_
    by_cases hcuts : start < stop
    · have hchunk := slice_take (Nat.le_of_lt hcuts) hwithin
      have hsome : ¬ ((data.drop start).take (stop - start)).isEmpty := by
        rw [List.isEmpty_iff, ← List.length_eq_zero_iff]
        omega
      rw [if_pos hcuts, if_neg hsome]
      exact andThen hchunk (andThen hlater rfl)
    · have hnone : ((data.drop start).take (stop - start)).isEmpty := by
        rw [List.isEmpty_iff, ← List.length_eq_zero_iff]
        omega
      rw [if_neg hcuts, if_pos hnone]
      exact hlater

theorem splitAtOffsets_eq (offsets : List Nat) (data : Bytes) :
    splitAtOffsets offsets data = some (Bytes.splitAtOffsets offsets data) := by
  rw [splitAtOffsets, cutsFrom_eq offsets (Nat.zero_le _), List.drop_zero]
  rfl

end Columnar.Checked
