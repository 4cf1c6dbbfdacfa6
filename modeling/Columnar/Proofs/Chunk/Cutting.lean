import Columnar.Proofs.Chunk.Supply

/-!
Cutting a payload. Whatever the distance or the offsets are, the chunks come to the payload and none
is empty. At a fixed distance all chunks but the last have that length. At offsets a chunk ends
wherever one of them goes farther than all before it, but not to the end of the payload.
-/
namespace Columnar.Bytes

/-- Chunks that come to the data, and none of them is empty. -/
structure Partitions (data : Bytes) (chunks : List Bytes) : Prop where
  whole : chunks.flatten = data
  nonempty : ∀ chunk ∈ chunks, chunk ≠ []

namespace Partitions

variable {data : Bytes} {chunks : List Bytes}

theorem nil : Partitions [] [] := ⟨rfl, nofun⟩

theorem cons {front rest : Bytes} (hfront : front ≠ []) (hrest : Partitions rest chunks) :
    Partitions (front ++ rest) (front :: chunks) where
  whole := by rw [List.flatten_cons, hrest.whole]
  nonempty := List.forall_mem_cons.mpr ⟨hfront, hrest.nonempty⟩

/-- A source that hands the chunks out has the data before it. -/
theorem exists_chunks (h : Partitions data chunks) :
    ∃ supplied : List Chunk, chunks = supplied.map Chunk.bytes ∧ joined supplied = data := by
  obtain ⟨rfl, hnonempty⟩ := h
  induction chunks with
  | nil => exact ⟨[], rfl, rfl⟩
  | cons chunk chunks ih =>
    rw [List.forall_mem_cons] at hnonempty
    obtain ⟨supplied, hsupplied, hjoined⟩ := ih hnonempty.2
    cases chunk with
    | nil => exact absurd rfl hnonempty.1
    | cons head tail =>
      refine ⟨⟨head, tail⟩ :: supplied, ?_, ?_⟩
      · rw [hsupplied]
        rfl
      · rw [joined_cons, hjoined]
        rfl

end Partitions

section Every

theorem chunksAfter_eq (size : Nat) (data : Bytes) (earlier : List Bytes) :
    chunksAfter size data earlier = earlier.reverse ++ chunksAfter size data [] := by
  induction hlength : data.length using Nat.strongRecOn generalizing data earlier with
  | ind length ih =>
    cases data with
    | nil => simp [chunksAfter]
    | cons head tail =>
      have hshort : (tail.drop size).length < length := by
        rw [← hlength, List.length_drop, List.length_cons]
        omega
      rw [chunksAfter, chunksAfter, ih _ hshort (tail.drop size) _ rfl,
        ih _ hshort (tail.drop size) [_] rfl]
      simp

theorem splitEvery_nil (size : Nat) : splitEvery size [] = [] := by
  rw [splitEvery, chunksAfter]
  rfl

/-- A distance of zero is one of one byte. -/
theorem splitEvery_max (size : Nat) (data : Bytes) :
    splitEvery (max size 1) data = splitEvery size data := by
  rw [splitEvery, splitEvery, show max size 1 - 1 = size - 1 by omega]

variable {size : Nat} {data : Bytes}

/-- The first chunk and those of the rest. -/
theorem splitEvery_of_ne_nil (hsize : 0 < size) (hdata : data ≠ []) :
    splitEvery size data = data.take size :: splitEvery size (data.drop size) := by
  obtain ⟨less, rfl⟩ := Nat.exists_eq_add_one_of_ne_zero (Nat.ne_of_gt hsize)
  cases data with
  | nil => exact absurd rfl hdata
  | cons head tail =>
    rw [splitEvery, splitEvery, Nat.add_sub_cancel, chunksAfter, chunksAfter_eq]
    rfl

/-- What holds of no data, and of data and their first chunk if it holds of the rest. -/
theorem splitEvery_induction {P : Bytes → List Bytes → Prop} (hsize : 0 < size) (hnil : P [] [])
    (hcons : ∀ data, data ≠ [] → P (data.drop size) (splitEvery size (data.drop size)) →
      P data (data.take size :: splitEvery size (data.drop size)))
    (data : Bytes) : P data (splitEvery size data) := by
  induction hlength : data.length using Nat.strongRecOn generalizing data with
  | ind length ih =>
    by_cases hdata : data = []
    · rw [hdata, splitEvery_nil]
      exact hnil
    · have hpos := List.length_pos_iff.mpr hdata
      have hshort : (data.drop size).length < length := by
        rw [List.length_drop]
        omega
      rw [splitEvery_of_ne_nil hsize hdata]
      exact hcons data hdata (ih _ hshort _ rfl)

/-- Chunks of one length, but for the last. -/
structure EvenlyCut (size : Nat) (data : Bytes) (chunks : List Bytes) : Prop extends
    Partitions data chunks where
  count : chunks.length = (data.length + size - 1) / size
  full : ∀ chunk ∈ chunks.dropLast, chunk.length = size
  within : ∀ chunk ∈ chunks, chunk.length ≤ size

/-- A first chunk is full if anything comes behind it. -/
theorem EvenlyCut.cons (hsize : 0 < size) (hdata : data ≠ []) {chunks : List Bytes}
    (h : EvenlyCut size (data.drop size) chunks) :
    EvenlyCut size data (data.take size :: chunks) := by
  have hpos := List.length_pos_iff.mpr hdata
  have hfront : data.take size ≠ [] := by
    rw [← List.length_pos_iff, List.length_take]
    omega
  have hpartitions := h.toPartitions.cons hfront
  rw [List.take_append_drop] at hpartitions
  refine ⟨hpartitions, ?count, ?full, ?within⟩
  case count =>
    rw [List.length_cons, h.count, List.length_drop]
    by_cases hlast : data.length ≤ size
    · rw [Nat.sub_eq_zero_of_le hlast, Nat.zero_add, Nat.div_eq_of_lt (Nat.sub_lt hsize Nat.one_pos)]
      exact (Nat.div_eq_of_lt_le (by omega) (by omega)).symm
    · rw [← Nat.add_div_right _ hsize]
      congr 1
      omega
  case full =>
    intro chunk hchunk
    by_cases hlast : chunks = []
    · rw [hlast] at hchunk
      cases hchunk
    · rw [List.dropLast_cons_of_ne_nil hlast, List.mem_cons] at hchunk
      rcases hchunk with rfl | hchunk
      · have hmore : (data.drop size).length ≠ 0 := by
          rw [← h.whole]
          intro hnone
          have hempty := List.flatten_eq_nil_iff.mp (List.length_eq_zero_iff.mp hnone)
          obtain ⟨first, hfirst⟩ := List.exists_mem_of_ne_nil chunks hlast
          exact h.nonempty first hfirst (hempty first hfirst)
        rw [List.length_drop] at hmore
        rw [List.length_take]
        omega
      · exact h.full chunk hchunk
  case within =>
    exact List.forall_mem_cons.mpr ⟨List.length_take_le _ _, h.within⟩

theorem evenlyCut_splitEvery (hsize : 0 < size) (data : Bytes) :
    EvenlyCut size data (splitEvery size data) := by
  refine splitEvery_induction hsize ?_ (fun _ hdata => EvenlyCut.cons hsize hdata) data
  refine ⟨.nil, ?_, nofun, nofun⟩
  rw [List.length_nil, List.length_nil, Nat.zero_add,
    Nat.div_eq_of_lt (Nat.sub_lt hsize Nat.one_pos)]

end Every

section Offsets

/-- Where each chunk ends, if the first begins at `start`. -/
def ends (start : Nat) : List Bytes → List Nat
  | [] => []
  | chunk :: chunks => (start + chunk.length) :: ends (start + chunk.length) chunks

/-- Where a chunk ends and another begins. -/
def cutPoints (chunks : List Bytes) : List Nat := (ends 0 chunks).dropLast

variable {start point : Nat} {chunks : List Bytes} {data : Bytes} {offsets : List Nat}

theorem lt_of_mem_ends (hchunks : ∀ chunk ∈ chunks, chunk ≠ []) (h : point ∈ ends start chunks) :
    start < point := by
  induction chunks generalizing start with
  | nil => cases h
  | cons chunk chunks ih =>
    rw [List.forall_mem_cons] at hchunks
    have hpos := List.length_pos_iff.mpr hchunks.1
    rcases List.mem_cons.mp h with rfl | hlater
    · omega
    · have hbehind := ih hchunks.2 hlater
      omega

theorem pairwise_ends (hchunks : ∀ chunk ∈ chunks, chunk ≠ []) :
    (ends start chunks).Pairwise (· < ·) := by
  induction chunks generalizing start with
  | nil => exact .nil
  | cons chunk chunks ih =>
    rw [List.forall_mem_cons] at hchunks
    exact .cons (fun _ => lt_of_mem_ends hchunks.2) (ih hchunks.2)

theorem ends_ne_nil (hchunks : chunks ≠ []) : ends start chunks ≠ [] := by
  cases chunks with
  | nil => exact absurd rfl hchunks
  | cons => exact List.cons_ne_nil _ _

/-- All ends but the last lie before the end of the whole. -/
theorem mem_dropLast_ends (hchunks : ∀ chunk ∈ chunks, chunk ≠ []) :
    point ∈ (ends start chunks).dropLast ↔
      point ∈ ends start chunks ∧ point < start + chunks.flatten.length := by
  induction chunks generalizing start with
  | nil => simp [ends]
  | cons chunk chunks ih =>
    rw [List.forall_mem_cons] at hchunks
    rw [ends, List.flatten_cons, List.length_append, ← Nat.add_assoc]
    by_cases hlast : chunks = []
    · rw [hlast]
      simp [ends]
      omega
    · have hmore : 0 < chunks.flatten.length := by
        obtain ⟨first, hfirst⟩ := List.exists_mem_of_ne_nil chunks hlast
        refine List.length_pos_iff.mpr fun hnone => ?_
        exact hchunks.2 first hfirst (List.flatten_eq_nil_iff.mp hnone first hfirst)
      rw [List.dropLast_cons_of_ne_nil (ends_ne_nil hlast), List.mem_cons, List.mem_cons,
        ih hchunks.2]
      constructor
      · rintro (rfl | ⟨hpoint, hlt⟩)
        · exact ⟨.inl rfl, by omega⟩
        · exact ⟨.inr hpoint, hlt⟩
      · rintro ⟨rfl | hpoint, hlt⟩
        · exact .inl rfl
        · exact .inr ⟨hpoint, hlt⟩

theorem cutsAfter_eq (start : Nat) (data : Bytes) (earlier : List Bytes) (offsets : List Nat) :
    cutsAfter start data earlier offsets = earlier.reverse ++ cutsAfter start data [] offsets := by
  induction offsets generalizing start data earlier with
  | nil =>
    rw [cutsAfter, cutsAfter]
    by_cases hdata : data.isEmpty
    · simp [hdata]
    · simp [hdata]
  | cons offset offsets ih =>
    simp only [cutsAfter]
    by_cases hfront : (data.take (offset - start)).isEmpty
    · rw [if_pos hfront, if_pos hfront]
      exact ih _ _ _
    · rw [if_neg hfront, if_neg hfront, ih _ _ (_ :: earlier), ih _ _ [_]]
      simp

/-- An offset cuts a chunk off, unless there is nothing before it. -/
theorem cutsAfter_cons (start offset : Nat) (data : Bytes) (offsets : List Nat) :
    cutsAfter start data [] (offset :: offsets) =
      (if (data.take (offset - start)).isEmpty then [] else [data.take (offset - start)]) ++
        cutsAfter (start + (data.take (offset - start)).length) (data.drop (offset - start)) []
          offsets := by
  simp only [cutsAfter]
  rw [cutsAfter_eq]
  congr 1
  split <;> rfl

theorem partitions_cutsAfter (start : Nat) (data : Bytes) (offsets : List Nat) :
    Partitions data (cutsAfter start data [] offsets) := by
  induction offsets generalizing start data with
  | nil =>
    rw [cutsAfter]
    by_cases hdata : data = []
    · rw [hdata]
      exact .nil
    · rw [if_neg (by simpa using hdata)]
      have hall := Partitions.nil.cons hdata
      rw [List.append_nil] at hall
      exact hall
  | cons offset offsets ih =>
    have hrest := ih (start + (data.take (offset - start)).length) (data.drop (offset - start))
    have hsplit := List.take_append_drop (offset - start) data
    rw [cutsAfter_cons]
    by_cases hfront : data.take (offset - start) = []
    · rw [hfront, List.nil_append] at hsplit
      rw [if_pos (by simp [hfront]), List.nil_append]
      rw [hsplit] at hrest ⊢
      exact hrest
    · rw [if_neg (by simpa using hfront)]
      have hall := hrest.cons hfront
      rw [hsplit] at hall
      exact hall

theorem le_of_mem_scanl_max {largest : Nat} (h : point ∈ offsets.scanl max largest) :
    largest ≤ point := by
  induction offsets generalizing largest with
  | nil =>
    rw [List.scanl_nil, List.mem_singleton] at h
    omega
  | cons offset offsets ih =>
    rw [List.scanl_cons, List.mem_cons] at h
    rcases h with rfl | hlater
    · exact Nat.le_refl _
    · have hbehind := ih hlater
      omega

theorem mem_scanl_max (largest : Nat) (offsets : List Nat) :
    largest ∈ offsets.scanl max largest := by
  cases offsets with
  | nil => exact List.mem_singleton_self _
  | cons =>
    rw [List.scanl_cons]
    exact List.mem_cons_self

/-- Offsets that ascend are their own running maxima. -/
theorem scanl_max_of_pairwise {largest : Nat} (h : (largest :: offsets).Pairwise (· ≤ ·)) :
    offsets.scanl max largest = largest :: offsets := by
  induction offsets generalizing largest with
  | nil => rfl
  | cons offset offsets ih =>
    obtain ⟨hfirst, hlater⟩ := List.pairwise_cons.mp h
    have hle : largest ≤ offset := hfirst offset List.mem_cons_self
    rw [List.scanl_cons, Nat.max_eq_right hle, ih hlater]

theorem mem_ends_front {front : Bytes} :
    point ∈ ends start ((if front.isEmpty then [] else [front]) ++ chunks) ↔
      start < point ∧ point = start + front.length ∨ point ∈ ends (start + front.length) chunks := by
  cases front with
  | nil =>
    simp only [List.isEmpty_nil, if_true, List.nil_append, List.length_nil, Nat.add_zero]
    exact (or_iff_right (by omega)).symm
  | cons head tail =>
    simp only [List.isEmpty_cons, Bool.false_eq_true, if_false, List.singleton_append, ends,
      List.mem_cons, List.length_cons]
    exact or_congr_left ⟨fun hends => ⟨by omega, hends⟩, And.right⟩

/-- The chunks end at the running maxima of the offsets as far as they go, and at the end. -/
theorem mem_ends_cutsAfter : point ∈ ends start (cutsAfter start data [] offsets) ↔
    start < point ∧ (point = start + data.length ∨
      point < start + data.length ∧ point ∈ offsets.scanl max start) := by
  induction offsets generalizing start data with
  | nil =>
    rw [cutsAfter, List.scanl_nil, List.mem_singleton]
    cases data with
    | nil => simp [ends]; omega
    | cons => simp [ends]; omega
  | cons offset offsets ih =>
    rw [cutsAfter_cons, mem_ends_front, ih, List.scanl_cons, List.mem_cons, List.length_take,
      List.length_drop]
    by_cases hwithin : max start offset ≤ start + data.length
    · -- the first chunk ends at the first maximum
      have hstop : start + min (offset - start) data.length = max start offset := by omega
      have hrest : max start offset + (data.length - (offset - start)) = start + data.length := by
        omega
      rw [hstop, hrest]
      by_cases hmember : point ∈ offsets.scanl max (max start offset)
      · have hle := le_of_mem_scanl_max hmember
        simp only [hmember, or_true, and_true]
        omega
      · have hne : point ≠ max start offset := by
          rintro rfl
          exact hmember (mem_scanl_max _ _)
        simp only [hmember, or_false, and_false]
        omega
    · -- the first chunk is all of the data
      have hbehind : point ∈ offsets.scanl max (max start offset) → start + data.length < point :=
        fun hmember => Nat.lt_of_lt_of_le (Nat.lt_of_not_le hwithin) (le_of_mem_scanl_max hmember)
      have hstop : start + min (offset - start) data.length = start + data.length := by omega
      have hrest : data.length - (offset - start) = 0 := by omega
      rw [hstop, hrest]
      by_cases hmember : point ∈ offsets.scanl max (max start offset)
      · have hlt := hbehind hmember
        omega
      · simp only [hmember, or_false]
        omega

/-- Chunks that end where an offset goes farther than all before it, but not to the end. -/
structure CutAt (offsets : List Nat) (data : Bytes) (chunks : List Bytes) : Prop extends
    Partitions data chunks where
  ascending : (cutPoints chunks).Pairwise (· < ·)
  points : ∀ point, point ∈ cutPoints chunks ↔
    0 < point ∧ point < data.length ∧ point ∈ offsets.scanl max 0
  /-- Offsets in order are all cut points, as far as they lie inside. -/
  inOrder : offsets.Pairwise (· ≤ ·) → ∀ point, point ∈ cutPoints chunks ↔
    0 < point ∧ point < data.length ∧ point ∈ offsets

theorem cutAt_splitAtOffsets (offsets : List Nat) (data : Bytes) :
    CutAt offsets data (splitAtOffsets offsets data) := by
  have hpartitions := partitions_cutsAfter 0 data offsets
  have hpoints (point : Nat) : point ∈ cutPoints (splitAtOffsets offsets data) ↔
      0 < point ∧ point < data.length ∧ point ∈ offsets.scanl max 0 := by
    rw [cutPoints, splitAtOffsets, mem_dropLast_ends hpartitions.nonempty, hpartitions.whole,
      mem_ends_cutsAfter]
    by_cases hmember : point ∈ offsets.scanl max 0
    · simp only [hmember, and_true]
      omega
    · simp only [hmember, and_false, or_false, iff_false]
      omega
  refine ⟨hpartitions, ?ascending, hpoints, ?inOrder⟩
  case ascending =>
    exact (pairwise_ends hpartitions.nonempty).sublist (List.dropLast_sublist _)
  case inOrder =>
    intro horder point
    have hzero : (0 :: offsets).Pairwise (· ≤ ·) := .cons (fun _ _ => Nat.zero_le _) horder
    rw [hpoints, scanl_max_of_pairwise hzero, List.mem_cons]
    refine and_congr_right fun hpos => and_congr_right fun _ => ?_
    exact or_iff_right (Nat.ne_of_gt hpos)

end Offsets

end Columnar.Bytes
