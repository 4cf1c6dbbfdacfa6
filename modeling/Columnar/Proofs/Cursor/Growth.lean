import Columnar.Proofs.Cursor.Request

/-!
How scratch storage grows and what it holds. Only a straddling read touches it. The read doubles
the capacity until twice its own size fits, so after many of them the capacity is the initial one
doubled just often enough for the largest. What is assembled never gets longer than the read.
-/
namespace Columnar

/-- The initial capacity after just as many doublings as the target needs. -/
def LeastDoubling (initial target capacity : Nat) : Prop :=
  ∃ doublings, capacity = initial * 2 ^ doublings ∧ target ≤ capacity ∧
    ∀ fewer < doublings, initial * 2 ^ fewer < target

namespace LeastDoubling

variable {initial target target' capacity capacity' : Nat}

theorem two_pow_le {fewer more : Nat} (h : fewer ≤ more) :
    initial * 2 ^ fewer ≤ initial * 2 ^ more :=
  Nat.mul_le_mul_left initial (Nat.pow_le_pow_right (by decide) h)

theorem reaches (h : LeastDoubling initial target capacity) : target ≤ capacity := by
  obtain ⟨_, _, hreach, _⟩ := h
  exact hreach

theorem initial_le (h : LeastDoubling initial target capacity) : initial ≤ capacity := by
  obtain ⟨doublings, rfl, _, _⟩ := h
  exact Nat.le_mul_of_pos_right initial (Nat.two_pow_pos doublings)

/-- A larger target needs at least as large a capacity. -/
theorem mono (h : LeastDoubling initial target capacity)
    (h' : LeastDoubling initial target' capacity') (hle : target ≤ target') :
    capacity ≤ capacity' := by
  obtain ⟨doublings, rfl, _, hleast⟩ := h
  obtain ⟨doublings', rfl, hreach, _⟩ := h'
  by_cases hless : doublings' < doublings
  · have hshort := hleast doublings' hless
    omega
  · exact two_pow_le (Nat.not_lt.mp hless)

theorem unique (h : LeastDoubling initial target capacity)
    (h' : LeastDoubling initial target capacity') : capacity = capacity' :=
  Nat.le_antisymm (h.mono h' (Nat.le_refl target)) (h'.mono h (Nat.le_refl target))

/-- One doubling less would not have been enough. -/
theorem le_max (h : LeastDoubling initial target capacity) :
    capacity ≤ max initial (2 * target - 1) := by
  obtain ⟨doublings, rfl, _, hleast⟩ := h
  cases doublings with
  | zero =>
    rw [Nat.pow_zero, Nat.mul_one]
    exact Nat.le_max_left _ _
  | succ doublings =>
    have hshort := hleast doublings (Nat.lt_succ_self doublings)
    rw [Nat.pow_succ, ← Nat.mul_assoc]
    omega

theorem isPowerOfTwo (h : LeastDoubling initial target capacity)
    (hinitial : initial.isPowerOfTwo) : capacity.isPowerOfTwo := by
  obtain ⟨doublings, rfl, _, _⟩ := h
  obtain ⟨exponent, rfl⟩ := hinitial
  exact ⟨exponent + doublings, (Nat.pow_add 2 exponent doublings).symm⟩

/-- A capacity that is large enough for another target stays. -/
theorem keep (h : LeastDoubling initial target capacity) (hle : target ≤ target')
    (hreach : target' ≤ capacity) : LeastDoubling initial target' capacity := by
  obtain ⟨doublings, hcapacity, _, hleast⟩ := h
  exact ⟨doublings, hcapacity, hreach, fun fewer hfewer =>
    Nat.lt_of_lt_of_le (hleast fewer hfewer) hle⟩

/-- Doubling can go on from a capacity that is too small. -/
theorem extend (h : LeastDoubling initial target capacity) (hshort : capacity < target')
    (h' : LeastDoubling capacity target' capacity') : LeastDoubling initial target' capacity' := by
  obtain ⟨doublings, rfl, _, _⟩ := h
  obtain ⟨doublings', rfl, hreach, hleast⟩ := h'
  have hadd (more : Nat) :
      initial * 2 ^ doublings * 2 ^ more = initial * 2 ^ (doublings + more) := by
    rw [Nat.mul_assoc, ← Nat.pow_add]
  refine ⟨doublings + doublings', hadd doublings', hreach, fun fewer hfewer => ?_⟩
  by_cases hearly : fewer ≤ doublings
  · exact Nat.lt_of_le_of_lt (two_pow_le hearly) hshort
  · have hlate := hleast (fewer - doublings) (by omega)
    rw [hadd, Nat.add_sub_cancel' (by omega)] at hlate
    exact hlate

end LeastDoubling

theorem le_doubleUntil (target capacity : Nat) : capacity ≤ doubleUntil target capacity := by
  fun_induction doubleUntil target capacity with
  | case1 capacity hstep ih =>
    have hgrows : capacity ≤ mulSat capacity 2 := by
      rw [mulSat]
      omega
    exact Nat.le_trans hgrows ih
  | case2 => exact Nat.le_refl _

theorem Cursor.scratchCapacity_le (size : Nat) (cursor : Cursor σ) :
    cursor.scratchCapacity ≤ cursor.capacityFor size := by
  simp only [capacityFor]
  split
  · exact Nat.le_refl _
  · exact Nat.le_trans (Nat.le_max_left _ _) (le_doubleUntil _ _)

theorem leastDoubling_doubleUntil {target capacity : Nat} (htarget : target ≤ 2 ^ 62)
    (hpos : 0 < capacity) : LeastDoubling capacity target (doubleUntil target capacity) := by
  fun_induction doubleUntil target capacity with
  | case1 capacity hstep ih =>
    have htwice : mulSat capacity 2 = capacity * 2 := mulSat_eq _ _ (by rw [maxSize]; omega)
    rw [htwice] at ih ⊢
    obtain ⟨doublings, hcapacity, hreach, hleast⟩ := ih (by omega)
    have hadd (more : Nat) : capacity * 2 * 2 ^ more = capacity * 2 ^ (more + 1) := by
      rw [Nat.pow_succ, Nat.mul_assoc, Nat.mul_comm 2]
    refine ⟨doublings + 1, hcapacity.trans (hadd doublings), hreach, fun fewer hfewer => ?_⟩
    cases fewer with
    | zero => simpa only [Nat.pow_zero, Nat.mul_one] using hstep.2.1
    | succ fewer =>
      rw [← hadd]
      exact hleast fewer (by omega)
  | case2 capacity hstop =>
    have hreach : target ≤ capacity := by
      rw [maxSize] at hstop
      omega
    exact ⟨0, (Nat.mul_one capacity).symm, hreach, fun _ hfewer => absurd hfewer (Nat.not_lt_zero _)⟩

/-- The capacity that straddling reads of the given sizes lead to: none without such a read, and
otherwise what the largest of them needs. -/
structure Grown (initial : Nat) (sizes : List Nat) (capacity : Nat) : Prop where
  unused : sizes = [] → capacity = 0
  used : ∀ largest, sizes.max? = some largest → LeastDoubling initial (2 * largest) capacity

theorem max?_concat {sizes : List Nat} {largest : Nat} (h : sizes.max? = some largest)
    (size : Nat) : (sizes ++ [size]).max? = some (max largest size) := by
  obtain ⟨hmem, hle⟩ := List.max?_eq_some_iff.mp h
  rw [List.max?_eq_some_iff]
  constructor
  · rcases Nat.le_total largest size with hsize | hsize
    · rw [Nat.max_eq_right hsize]
      exact List.mem_append_right _ (List.mem_singleton_self size)
    · rw [Nat.max_eq_left hsize]
      exact List.mem_append_left _ hmem
  · intro other hother
    rcases List.mem_append.mp hother with hother | hother
    · exact Nat.le_trans (hle other hother) (Nat.le_max_left _ _)
    · rw [List.mem_singleton.mp hother]
      exact Nat.le_max_right _ _

namespace Grown

variable {initial capacity capacity' : Nat} {sizes sizes' : List Nat}

theorem of_largest {largest : Nat} (hlargest : sizes.max? = some largest)
    (hcapacity : LeastDoubling initial (2 * largest) capacity) : Grown initial sizes capacity where
  unused hnone := by
    rw [hnone] at hlargest
    cases hlargest
  used other hother := by
    rw [hlargest, Option.some.injEq] at hother
    exact hother ▸ hcapacity

/-- Only the largest size counts. -/
theorem unique (h : Grown initial sizes capacity) (h' : Grown initial sizes' capacity')
    (hsame : sizes.max? = sizes'.max?) : capacity = capacity' := by
  cases hlargest : sizes.max? with
  | none =>
    rw [h.unused (List.max?_eq_none_iff.mp hlargest),
      h'.unused (List.max?_eq_none_iff.mp (hsame.symm.trans hlargest))]
  | some largest =>
    exact (h.used largest hlargest).unique (h'.used largest (hsame.symm.trans hlargest))

theorem twice_le (h : Grown initial sizes capacity) {size : Nat} (hsize : size ∈ sizes) :
    2 * size ≤ capacity := by
  cases hlargest : sizes.max? with
  | none => simp [List.max?_eq_none_iff.mp hlargest] at hsize
  | some largest =>
    have hle := (List.max?_eq_some_iff.mp hlargest).2 size hsize
    have hreach := (h.used largest hlargest).reaches
    omega

/-- Reads of more sizes never need less. -/
theorem le_of_subset (h : Grown initial sizes capacity) (h' : Grown initial sizes' capacity')
    (hsub : sizes ⊆ sizes') : capacity ≤ capacity' := by
  cases hlargest : sizes.max? with
  | none =>
    rw [h.unused (List.max?_eq_none_iff.mp hlargest)]
    exact Nat.zero_le _
  | some largest =>
    have hmem := hsub (List.max?_mem hlargest)
    cases hlargest' : sizes'.max? with
    | none => simp [List.max?_eq_none_iff.mp hlargest'] at hmem
    | some largest' =>
      have hle := (List.max?_eq_some_iff.mp hlargest').2 largest hmem
      exact (h.used largest hlargest).mono (h'.used largest' hlargest') (by omega)

theorem mono (h : Grown initial sizes capacity)
    (h' : Grown initial (sizes ++ sizes') capacity') : capacity ≤ capacity' :=
  h.le_of_subset h' (List.subset_append_left sizes sizes')

/-- Four times the largest size bounds the capacity. -/
theorem le_max (h : Grown initial sizes capacity) {limit : Nat}
    (hsizes : ∀ size ∈ sizes, size ≤ limit) : capacity ≤ max initial (4 * limit - 1) := by
  cases hlargest : sizes.max? with
  | none =>
    rw [h.unused (List.max?_eq_none_iff.mp hlargest)]
    exact Nat.zero_le _
  | some largest =>
    have hlarge := hsizes largest (List.max?_mem hlargest)
    have hle := (h.used largest hlargest).le_max
    omega

/-- One more straddling read leaves the capacity that belongs to its size and those before. -/
theorem capacityFor {cursor : Cursor σ} {size : Nat}
    (hinitial : 0 < cursor.config.initialScratchCapacity) (hpos : 0 < size) (hsize : size ≤ 2 ^ 61)
    (h : Grown cursor.config.initialScratchCapacity sizes cursor.scratchCapacity) :
    Grown cursor.config.initialScratchCapacity (sizes ++ [size]) (cursor.capacityFor size) := by
  have htwice : mulSat size 2 = 2 * size := by
    rw [mulSat_eq _ _ (by rw [maxSize]; omega), Nat.mul_comm]
  simp only [Cursor.capacityFor, htwice]
  generalize cursor.config.initialScratchCapacity = initial at *
  generalize cursor.scratchCapacity = capacity at *
  cases hlargest : sizes.max? with
  | none =>
    have hnone := List.max?_eq_none_iff.mp hlargest
    rw [h.unused hnone, if_neg (by omega), Nat.max_eq_right (Nat.zero_le initial), hnone]
    exact of_largest List.max?_singleton (leastDoubling_doubleUntil (by omega) hinitial)
  | some largest =>
    have hcapacity := h.used largest hlargest
    have hreach := hcapacity.reaches
    have hle := hcapacity.initial_le
    refine of_largest (max?_concat hlargest size) ?_
    by_cases henough : 2 * size ≤ capacity
    · rw [if_pos henough]
      exact hcapacity.keep (by omega) (by omega)
    · rw [if_neg henough, Nat.max_eq_left hle, Nat.max_eq_right (by omega)]
      exact hcapacity.extend (by omega) (leastDoubling_doubleUntil (by omega) (by omega))

end Grown

end Columnar
