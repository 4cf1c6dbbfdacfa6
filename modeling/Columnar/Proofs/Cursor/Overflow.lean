import Columnar.Proofs.Cursor.Exchange
import Columnar.Proofs.Cursor.Offers

/-!
Reads that ask for a buffer that cannot exist. The capacity of scratch storage is a power of two
until doubling saturates, so it is too large as soon as it passes `2 ^ 62`. A read that finds it so
has not begun its assembly: the cursor still has all its bytes.
-/
namespace Columnar

theorem maxAllocation_lt {capacity : Nat} (hpower : capacity.isPowerOfTwo)
    (hlarge : 2 ^ 62 < capacity) : maxAllocation < capacity := by
  obtain ⟨exponent, rfl⟩ := hpower
  have hexponent : 62 < exponent := (Nat.pow_lt_pow_iff_right (by decide)).mp hlarge
  have hdouble : 2 ^ 63 ≤ 2 ^ exponent := Nat.pow_le_pow_right (by decide) hexponent
  rw [maxAllocation]
  omega

theorem target_le_doubleUntil {target capacity : Nat} (htarget : target ≤ maxSize)
    (hpos : 0 < capacity) : target ≤ doubleUntil target capacity := by
  fun_induction doubleUntil target capacity with
  | case1 capacity hstep ih =>
    apply ih
    rw [mulSat, maxSize]
    omega
  | case2 => omega

/-- Doubling leaves the powers of two only at the largest size. -/
theorem isPowerOfTwo_doubleUntil {target capacity : Nat} (hpower : capacity.isPowerOfTwo)
    (hroom : doubleUntil target capacity ≤ maxAllocation) :
    (doubleUntil target capacity).isPowerOfTwo := by
  fun_induction doubleUntil target capacity with
  | case1 capacity hstep ih =>
    have hsmall : mulSat capacity 2 ≤ maxAllocation := Nat.le_trans (le_doubleUntil _ _) hroom
    have hexact : mulSat capacity 2 = capacity * 2 := by
      rw [maxAllocation] at hsmall
      rw [mulSat, maxSize] at hsmall ⊢
      omega
    refine ih ?_ hroom
    rw [hexact]
    exact Nat.isPowerOfTwo_mul_two_of_isPowerOfTwo hpower
  | case2 => exact hpower

namespace Cursor

/-- The capacity of scratch storage is what doubling from the initial one leads to. -/
structure Doubled (config : DecoderConfig) (capacity : Nat) : Prop where
  isPowerOfTwo : capacity.isPowerOfTwo
  initial_le : config.initialScratchCapacity ≤ capacity

section Capacity

variable {cursor : Cursor σ} {size : Nat}

theorem target_le_capacityFor (hinitial : 0 < cursor.config.initialScratchCapacity) :
    mulSat size 2 ≤ cursor.capacityFor size := by
  simp only [capacityFor]
  split
  · next henough => exact henough
  · exact target_le_doubleUntil (mulSat_le size 2) (by omega)

theorem doubled_capacityFor (hinitial : cursor.config.initialScratchCapacity.isPowerOfTwo)
    (h : cursor.scratchCapacity = 0 ∨ Doubled cursor.config cursor.scratchCapacity)
    (hroom : cursor.capacityFor size ≤ maxAllocation) :
    cursor.capacityFor size = 0 ∨ Doubled cursor.config (cursor.capacityFor size) := by
  have hstart : (max cursor.scratchCapacity cursor.config.initialScratchCapacity).isPowerOfTwo := by
    rcases h with hzero | hdoubled
    · rw [hzero, Nat.max_eq_right (Nat.zero_le _)]
      exact hinitial
    · rw [Nat.max_eq_left hdoubled.initial_le]
      exact hdoubled.isPowerOfTwo
  simp only [capacityFor] at hroom ⊢
  split
  · exact h
  · next hshort =>
    rw [if_neg hshort] at hroom
    exact .inr ⟨isPowerOfTwo_doubleUntil hstart hroom,
      Nat.le_trans (Nat.le_max_right _ _) (le_doubleUntil _ _)⟩

/-- A read needs a buffer that cannot exist if it is too large itself, or if scratch storage is to
start from such a buffer. -/
theorem capacityFor_overflows_iff (hsize : 0 < size)
    (hinitial : cursor.config.initialScratchCapacity.isPowerOfTwo)
    (h : cursor.scratchCapacity = 0 ∨ Doubled cursor.config cursor.scratchCapacity)
    (hbefore : cursor.scratchCapacity ≤ maxAllocation) :
    maxAllocation < cursor.capacityFor size ↔
      2 ^ 61 < size ∨ 2 ^ 62 < cursor.config.initialScratchCapacity := by
  constructor
  · intro hover
    refine Decidable.or_iff_not_not_and_not.mpr fun ⟨hfits, hsmall⟩ => ?_
    exact Nat.not_le.mpr hover
      (capacityFor_le (Nat.not_lt.mp hfits) (Nat.not_lt.mp hsmall) hbefore)
  · intro hlarge
    refine Nat.not_le.mp fun hroom => ?_
    have htarget : mulSat size 2 ≤ cursor.capacityFor size :=
      target_le_capacityFor (Nat.pos_of_isPowerOfTwo hinitial)
    rw [mulSat, maxSize] at htarget
    -- a capacity that can exist would be a power of two of at most `2 ^ 62`
    have hdoubled := (doubled_capacityFor hinitial h hroom).resolve_left (by omega)
    have hsmall : cursor.capacityFor size ≤ 2 ^ 62 := Nat.not_lt.mp fun hover =>
      Nat.not_le.mpr (maxAllocation_lt hdoubled.isPowerOfTwo hover) hroom
    have hinitial_le := hdoubled.initial_le
    omega

end Capacity

variable [ChunkSource σ] {config : DecoderConfig} {cursor : Cursor σ} {size : Nat}

theorem Reached.doubled (h : Reached config cursor) : config.initialScratchCapacity.isPowerOfTwo ∧
    (cursor.scratchCapacity = 0 ∨ Doubled config cursor.scratchCapacity) := by
  induction h with
  | start hstart =>
    obtain ⟨hvalid, rfl⟩ := ofConfig_eq_ok_iff.mp hstart
    exact ⟨((DecoderConfig.validate_eq_ok_iff config).mp hvalid).1.2, .inl rfl⟩
  | @read cursor request h ih =>
    refine ⟨ih.1, ?_⟩
    obtain ⟨rfl, _⟩ := h.storage
    obtain ⟨_, hsame | ⟨size, hgrown, hroom⟩⟩ := capacity_run request cursor
    · rw [hsame]
      exact ih.2
    · rw [hgrown]
      exact doubled_capacityFor ih.1 ih.2 hroom
  | @close cursor _ ih =>
    rw [Cursor.close]
    split
    · exact ih
    · exact ⟨ih.1, .inl rfl⟩

theorem readBytes_of_overflows (hstraddles : cursor.straddles size = true)
    (hroom : maxAllocation < cursor.capacityFor size) :
    cursor.readBytes size = (.error .capacityOverflow, { cursor.refilled with scratch := [] }) := by
  rw [readBytes_of_straddles hstraddles, readAcross,
    if_pos (capacityFor_refilled size cursor ▸ hroom)]

/-- No read overflows but a straddling one, and that does as soon as it needs too large a buffer. -/
theorem readBytes_overflows_iff : (cursor.readBytes size).1 = .error .capacityOverflow ↔
    cursor.straddles size = true ∧ maxAllocation < cursor.capacityFor size := by
  constructor
  · intro hfails
    have hexchange := exchange (.bytes size) cursor
    rw [Request.run] at hexchange
    generalize cursor.readBytes size = outcome at hfails hexchange
    cases hexchange with
    | overflowed hrequest hstraddles hroom =>
      cases hrequest
      exact ⟨hstraddles, hroom⟩
    | served => cases hfails
    | refused => cases hfails
    | failed => cases hfails
    | ended => cases hfails
  · rintro ⟨hstraddles, hroom⟩
    rw [readBytes_of_overflows hstraddles hroom]

theorem run_byte_not_overflows (cursor : Cursor σ) :
    (Request.byte.run cursor).1 ≠ .error .capacityOverflow := by
  intro hfails
  have hexchange := exchange .byte cursor
  generalize Request.byte.run cursor = outcome at hfails hexchange
  cases hexchange with
  | overflowed hrequest => cases hrequest
  | served => cases hfails
  | refused => cases hfails
  | failed => cases hfails
  | ended => cases hfails

theorem readByte_not_overflows (cursor : Cursor σ) :
    cursor.readByte.1 ≠ .error .capacityOverflow := by
  intro hfails
  refine run_byte_not_overflows cursor ?_
  rw [Request.run, Prod.map_fst, hfails]
  rfl

/-- A read overflows just when it straddles and is too large, or was bound to be. -/
theorem Reached.overflows_iff (h : Reached config cursor) :
    (cursor.readBytes size).1 = .error .capacityOverflow ↔ cursor.straddles size = true ∧
      (2 ^ 61 < size ∨ 2 ^ 62 < config.initialScratchCapacity) := by
  obtain ⟨hinitial, hdoubled⟩ := h.doubled
  obtain ⟨rfl, hbefore⟩ := h.storage
  rw [readBytes_overflows_iff]
  refine and_congr_right fun hstraddles => ?_
  have hsize : 0 < size := Nat.lt_of_le_of_lt (Nat.zero_le _) (straddles_iff.mp hstraddles).2.2.2
  exact capacityFor_overflows_iff hsize hinitial hdoubled hbefore

/-- What a read that overflowed has left. It may have pulled the chunk that it was to begin with. -/
structure Overflowed (config : DecoderConfig) (size : Nat) (before after : Cursor σ) : Prop where
  kept : before.region.unread ≠ [] → after = { before with scratch := [] }
  pulled : before.region.unread = [] → ∃ chunk source, before.exhausted = false ∧
    ChunkSource.next before.source = (.ok (some chunk.bytes), source) ∧
    after = { (before.supplied [chunk] source).enter chunk with scratch := [] }
  short : 0 < after.buffered ∧ after.buffered < size
  /-- The bytes that were to come are still read, as many as the region has or scratch storage can
  hold. -/
  later : ∀ front rest, before.Offers (front ++ rest) → front.length ≤ config.maxReadSize →
    (front.length ≤ after.buffered ∨
      front.length ≤ 2 ^ 61 ∧ config.initialScratchCapacity ≤ 2 ^ 62) →
    ∃ last, after.readBytes front.length = (.ok front, last) ∧ last.Offers rest ∧
      last.position = before.position + front.length

/-- Taking a chunk to read from loses nothing that was to come. -/
theorem Offers.entered {bytes : Bytes} (h : cursor.Offers bytes)
    (hsome : 0 < cursor.refilled.buffered) : cursor.refilled.Offers bytes := by
  by_cases hbytes : bytes = []
  · obtain ⟨_, source, region, _, _, _, heq⟩ := refilled_eq hsome
    rw [hbytes, heq]
    exact ⟨h.opened, [], source, .none source, fun hne => absurd rfl hne, List.nil_prefix⟩
  · exact (h.refilled hbytes).2.1

theorem refilled_of_buffered (h : 0 < cursor.buffered) : cursor.refilled = cursor := by
  rw [refilled, if_neg (by simpa using List.length_pos_iff.mp h)]

/-- A cursor that has taken a chunk and lost what was in scratch storage reads on. -/
theorem Offers.readOn {front rest : Bytes} (h : cursor.Offers (front ++ rest))
    (hsome : 0 < cursor.refilled.buffered) (hlimit : front.length ≤ cursor.config.maxReadSize)
    (hroom : front.length ≤ cursor.refilled.buffered ∨
      cursor.capacityFor front.length ≤ maxAllocation) :
    ∃ last, ({ cursor.refilled with scratch := [] } : Cursor σ).readBytes front.length =
        (.ok front, last) ∧ last.Offers rest ∧ last.position = cursor.position + front.length := by
  obtain ⟨hopened, hsupply⟩ := h.entered hsome
  have hkept : ({ cursor.refilled with scratch := [] } : Cursor σ).Offers (front ++ rest) :=
    ⟨hopened, hsupply⟩
  have hheld : 0 < ({ cursor.refilled with scratch := [] } : Cursor σ).buffered := hsome
  have hposition : cursor.refilled.position = cursor.position := by
    obtain ⟨_, _, _, _, _, _, heq⟩ := refilled_eq hsome
    rw [heq]
    rfl
  rw [← config_refilled cursor] at hlimit
  rw [← capacityFor_refilled] at hroom
  rw [← hposition]
  refine hkept.readAdmitted hlimit ?_
  rw [refilled_of_buffered hheld]
  exact hroom

theorem Reached.overflowed (h : Reached config cursor)
    (hfails : (cursor.readBytes size).1 = .error .capacityOverflow) :
    Overflowed config size cursor (cursor.readBytes size).2 := by
  obtain ⟨rfl, hbefore⟩ := h.storage
  obtain ⟨hstraddles, hroom⟩ := readBytes_overflows_iff.mp hfails
  obtain ⟨_, _, hsome, hshort⟩ := straddles_iff.mp hstraddles
  rw [readBytes_of_overflows hstraddles hroom]
  refine ⟨fun hunread => ?_, fun hspent => ?_, ⟨hsome, hshort⟩, ?_⟩
  · rw [refilled_of_buffered (List.length_pos_iff.mpr hunread)]
  · rw [refilled, if_pos (by simp [hspent])] at hsome ⊢
    rcases pull_cases cursor with ⟨chunk, source, hopen, hnext, hpull⟩ |
      ⟨cause, source, _, _, hpull⟩ | ⟨last, _, hpull⟩
    · rw [hpull]
      exact ⟨chunk, source, hopen, hnext, rfl⟩
    · simp [hpull, buffered, hspent] at hsome
    · simp [hpull, buffered, hspent] at hsome
  · intro front rest hoffers hlimit hfits
    exact hoffers.readOn hsome hlimit
      (hfits.imp_right fun hsmall => capacityFor_le hsmall.1 hsmall.2 hbefore)

end Cursor

end Columnar
