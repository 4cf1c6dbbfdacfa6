import Columnar.Proofs.Cursor.Assembly

/-!
Runs of single reads. A read of several bytes straddles if the region has some but not all of its
bytes; every other read is answered directly, and `Direct` lists the answers. A straddling read is
assembled, and what it put into scratch storage is lost if it fails.
-/
namespace Columnar

/-- One read of a cursor. -/
inductive Request where
  | byte
  | bytes (size : Nat)
  deriving DecidableEq, Repr

/-- Makes one read. A single byte is a byte string too. -/
def Request.run [ChunkSource σ] : Request → Cursor σ → Outcome (Cursor σ) Bytes
  | .byte, cursor => cursor.readByte.map (Except.map fun byte => [byte]) id
  | .bytes size, cursor => cursor.readBytes size

/-- How many bytes a read asks for. -/
def Request.size : Request → Nat
  | .byte => 1
  | .bytes size => size

namespace Cursor

variable [ChunkSource σ]

omit [ChunkSource σ] in
theorem ofConfig_eq_ok_iff {config : DecoderConfig} {source : σ} {cursor : Cursor σ} :
    ofConfig config source = .ok cursor ↔
      config.validate = .ok () ∧ cursor = { source, config } := by
  rw [ofConfig]
  split
  · next hvalid =>
    rw [Except.ok.injEq]
    exact ⟨fun heq => ⟨hvalid, heq.symm⟩, fun h => h.2.symm⟩
  · next hinvalid =>
    rw [hinvalid]
    simp only [reduceCtorEq, false_and]

/-- The cursor after some reads. -/
def after : List Request → Cursor σ → Cursor σ
  | [], cursor => cursor
  | request :: requests, cursor => after requests (request.run cursor).2

/-- The cursor with a chunk to read from, if the source has one. -/
def refilled (cursor : Cursor σ) : Cursor σ :=
  if cursor.region.unread.isEmpty then
    match cursor.pull with
    | (.ok (some chunk), cursor) => cursor.enter chunk
    | (_, cursor) => cursor
  else cursor

/-- Taking a chunk to read from leaves scratch storage alone. -/
theorem refilled_frame (cursor : Cursor σ) : ∃ source region exhausted counters,
    cursor.refilled = { cursor with source, region, exhausted, counters } := by
  by_cases hspent : cursor.region.unread.isEmpty
  · rw [refilled, if_pos hspent]
    rcases pull_cases cursor with ⟨chunk, source, _, _, hpull⟩ | ⟨cause, source, _, _, hpull⟩ |
      ⟨last, _, hpull⟩
    all_goals
      rw [hpull]
      exact ⟨_, _, _, _, rfl⟩
  · rw [refilled, if_neg hspent]
    exact ⟨_, _, _, _, rfl⟩

@[simp] theorem config_refilled (cursor : Cursor σ) : cursor.refilled.config = cursor.config := by
  obtain ⟨_, _, _, _, heq⟩ := refilled_frame cursor
  rw [heq]

@[simp] theorem scratch_refilled (cursor : Cursor σ) :
    cursor.refilled.scratch = cursor.scratch := by
  obtain ⟨_, _, _, _, heq⟩ := refilled_frame cursor
  rw [heq]

@[simp] theorem scratchCapacity_refilled (cursor : Cursor σ) :
    cursor.refilled.scratchCapacity = cursor.scratchCapacity := by
  obtain ⟨_, _, _, _, heq⟩ := refilled_frame cursor
  rw [heq]

@[simp] theorem capacityFor_refilled (size : Nat) (cursor : Cursor σ) :
    cursor.refilled.capacityFor size = cursor.capacityFor size := by
  simp only [capacityFor, config_refilled, scratchCapacity_refilled]

/-- The read is admitted, and the region has some but not all of its bytes. -/
def straddles (size : Nat) (cursor : Cursor σ) : Bool :=
  !cursor.closed && size ≤ cursor.config.maxReadSize && 0 < cursor.refilled.buffered &&
    cursor.refilled.buffered < size

theorem straddles_iff {size : Nat} {cursor : Cursor σ} :
    cursor.straddles size = true ↔ cursor.closed = false ∧ size ≤ cursor.config.maxReadSize ∧
      0 < cursor.refilled.buffered ∧ cursor.refilled.buffered < size := by
  simp [straddles, and_assoc]

/-- A cursor with a chunk to read from has pulled it last, if it had none, and has all of it. -/
theorem refilled_supplied {cursor : Cursor σ} (h : 0 < cursor.refilled.buffered) :
    ∃ chunks source region, Supplies cursor.source chunks source ∧
      (chunks ≠ [] → cursor.exhausted = false) ∧
      region.unread = cursor.region.unread ++ joined chunks ∧
      (∀ chunk, chunks.getLast? = some chunk → region.unread.length = chunk.length) ∧
      cursor.refilled = { cursor.supplied chunks source with region } := by
  by_cases hspent : cursor.region.unread.isEmpty
  · have hnil := List.isEmpty_iff.mp hspent
    rw [refilled, if_pos hspent] at h ⊢
    rcases pull_cases cursor with ⟨chunk, source, hopen, hnext, hpull⟩ |
      ⟨cause, source, _, _, hpull⟩ | ⟨last, _, hpull⟩
    · refine ⟨[chunk], source, .chunk chunk.bytes chunk.bytes, .more hnext (.none source),
        fun _ => hopen, ?_, fun _ hlast => Option.some.inj hlast ▸ rfl, ?_⟩
      · rw [hnil]
        simp
      · rw [hpull]
        rfl
    · simp [hpull, buffered, hnil] at h
    · simp [hpull, buffered, hnil] at h
  · rw [refilled, if_neg hspent]
    exact ⟨[], cursor.source, cursor.region, .none _, fun hne => absurd rfl hne, by simp, by simp,
      rfl⟩

theorem refilled_eq {cursor : Cursor σ} (h : 0 < cursor.refilled.buffered) :
    ∃ chunks source region, Supplies cursor.source chunks source ∧
      (chunks ≠ [] → cursor.exhausted = false) ∧
      region.unread = cursor.region.unread ++ joined chunks ∧
      cursor.refilled = { cursor.supplied chunks source with region } := by
  obtain ⟨chunks, source, region, hsupplies, hopen, hunread, _, heq⟩ := refilled_supplied h
  exact ⟨chunks, source, region, hsupplies, hopen, hunread, heq⟩

/-- A read that is not admitted does nothing. -/
theorem readBytes_of_large {size : Nat} {cursor : Cursor σ} (hopen : cursor.closed = false)
    (hlarge : cursor.config.maxReadSize < size) :
    cursor.readBytes size =
      (.error (.error (.readTooLarge size cursor.config.maxReadSize)), cursor) := by
  rw [readBytes, if_neg (by simp [hopen]), if_neg (by omega), if_pos hlarge]

/-- A read that is admitted and finds a byte is a read from that chunk or across its end. -/
theorem readBytes_refilled {size : Nat} {cursor : Cursor σ} (hopen : cursor.closed = false)
    (hsize : 0 < size) (hlimit : size ≤ cursor.config.maxReadSize)
    (hsome : 0 < cursor.refilled.buffered) :
    cursor.readBytes size = cursor.refilled.readBuffered size := by
  rw [readBytes, if_neg (by simp [hopen]), if_neg (by omega), if_neg (by omega)]
  by_cases hspent : cursor.region.unread.isEmpty
  · have hnil := List.isEmpty_iff.mp hspent
    rw [refilled, if_pos hspent] at hsome ⊢
    rw [if_pos hspent]
    rcases pull_cases cursor with ⟨chunk, source, _, _, hpull⟩ | ⟨cause, source, _, _, hpull⟩ |
      ⟨last, _, hpull⟩
    · rw [hpull]
    · simp [hpull, buffered, hnil] at hsome
    · simp [hpull, buffered, hnil] at hsome
  · rw [refilled, if_neg hspent, if_neg hspent]

theorem readBytes_of_straddles {size : Nat} {cursor : Cursor σ}
    (h : cursor.straddles size = true) :
    cursor.readBytes size = cursor.refilled.readAcross size := by
  obtain ⟨hopen, hlimit, hsome, hshort⟩ := straddles_iff.mp h
  rw [readBytes_refilled hopen (by omega) hlimit hsome, readBuffered,
    Bytes.split?_eq_none_iff.mpr hshort]

end Cursor

namespace Request

variable [ChunkSource σ]

/-- The size of a read that straddles. -/
def straddled? : Request → Cursor σ → Option Nat
  | .byte, _ => none
  | .bytes size, cursor => if cursor.straddles size then some size else none

theorem straddled?_eq_some_iff {request : Request} {cursor : Cursor σ} {size : Nat} :
    request.straddled? cursor = some size ↔
      request = .bytes size ∧ cursor.straddles size = true := by
  cases request with
  | byte => simp [straddled?]
  | bytes asked =>
    simp only [straddled?, Option.ite_none_right_eq_some, Option.some.injEq, bytes.injEq]
    constructor
    · rintro ⟨hstraddles, rfl⟩
      exact ⟨rfl, hstraddles⟩
    · rintro ⟨rfl, hstraddles⟩
      exact ⟨hstraddles, rfl⟩

/-- The bytes that a read hands out. -/
def returned (request : Request) (cursor : Cursor σ) : Bytes :=
  match (request.run cursor).1 with
  | .ok answer => answer
  | .error _ => []

/-- The bytes that a read drops: those in scratch storage when its assembly fails. -/
def discarded : Request → Cursor σ → Bytes
  | .byte, _ => []
  | .bytes size, cursor =>
    if cursor.straddles size then
      match cursor.readBytes size with
      | (.error (.error _), after) => after.scratch.reverse
      | _ => []
    else []

end Request

namespace Cursor

variable [ChunkSource σ]

/-- The answers to a read that does not straddle. -/
inductive Direct (size : Nat) (cursor : Cursor σ) : Outcome (Cursor σ) Bytes → Prop where
  | closed (hclosed : cursor.closed = true) : Direct size cursor (.error (.error .closed), cursor)
  | empty (hopen : cursor.closed = false) (hsize : size = 0) : Direct size cursor (.ok [], cursor)
  | tooLarge (hopen : cursor.closed = false) (hlimit : cursor.config.maxReadSize < size) :
      Direct size cursor
        (.error (.error (.readTooLarge size cursor.config.maxReadSize)), cursor)
  | failed {cause : DecodeError} {last : σ} (hspent : cursor.region.unread = [])
      (hopen : cursor.exhausted = false)
      (hnext : ChunkSource.next cursor.source = (.error cause, last)) :
      Direct size cursor (.error (.error cause), { cursor with source := last })
  | ended {last : σ} (hspent : cursor.region.unread = [])
      (hstops : Stops cursor.exhausted cursor.source last) :
      Direct size cursor
        (.error (.error (.endOfStream size 0)),
          { cursor with source := last, exhausted := true })
  | view {front rest : Bytes} (hview : cursor.refilled.region.unread = front ++ rest)
      (hlength : front.length = size) (hsize : 0 < size) :
      Direct size cursor (.ok front, cursor.refilled.serveView size rest)

theorem direct {size : Nat} {cursor : Cursor σ} (h : cursor.straddles size = false) :
    Direct size cursor (cursor.readBytes size) := by
  by_cases hclosed : cursor.closed = true
  · rw [readBytes, if_pos hclosed]
    exact .closed hclosed
  replace hclosed : cursor.closed = false := by simpa using hclosed
  by_cases hzero : size = 0
  · rw [readBytes, if_neg (by simp [hclosed]), if_pos hzero]
    exact .empty hclosed hzero
  by_cases hlimit : cursor.config.maxReadSize < size
  · rw [readBytes, if_neg (by simp [hclosed]), if_neg hzero, if_pos hlimit]
    exact .tooLarge hclosed hlimit
  by_cases hsome : 0 < cursor.refilled.buffered
  · -- the region has a byte and the read does not straddle, so the region has all of them
    have hfits : ¬ cursor.refilled.buffered < size := fun hshort => by
      simp [straddles_iff.mpr ⟨hclosed, Nat.not_lt.mp hlimit, hsome, hshort⟩] at h
    rw [readBytes_refilled hclosed (Nat.pos_of_ne_zero hzero) (Nat.not_lt.mp hlimit) hsome,
      readBuffered]
    cases hview : cursor.refilled.region.unread.split? size with
    | none => exact absurd (Bytes.split?_eq_none_iff.mp hview) hfits
    | some view =>
      obtain ⟨hunread, hlength⟩ := Bytes.split?_eq_some_iff.mp hview
      exact .view hunread hlength (Nat.pos_of_ne_zero hzero)
  · have hspent : cursor.region.unread.isEmpty := by
      by_cases hspent : cursor.region.unread.isEmpty
      · exact hspent
      · rw [refilled, if_neg hspent] at hsome
        simpa [buffered] using hsome
    rw [readBytes, if_neg (by simp [hclosed]), if_neg hzero, if_neg hlimit, if_pos hspent]
    rcases pull_cases cursor with ⟨chunk, source, _, _, hpull⟩ |
      ⟨cause, source, hopen, hnext, hpull⟩ | ⟨last, hstops, hpull⟩
    · rw [refilled, if_pos hspent, hpull] at hsome
      exact absurd chunk.length_pos hsome
    · rw [hpull]
      exact .failed (List.isEmpty_iff.mp hspent) hopen hnext
    · rw [hpull]
      exact .ended (List.isEmpty_iff.mp hspent) hstops

/-- The answers to a read of a single byte, which never straddles. -/
inductive Single (cursor : Cursor σ) : Outcome (Cursor σ) Bytes → Prop where
  | closed (hclosed : cursor.closed = true) : Single cursor (.error (.error .closed), cursor)
  | failed {cause : DecodeError} {last : σ} (hspent : cursor.region.unread = [])
      (hopen : cursor.exhausted = false)
      (hnext : ChunkSource.next cursor.source = (.error cause, last)) :
      Single cursor (.error (.error cause), { cursor with source := last })
  | ended {last : σ} (hspent : cursor.region.unread = [])
      (hstops : Stops cursor.exhausted cursor.source last) :
      Single cursor
        (.error (.error (.endOfStream 1 0)), { cursor with source := last, exhausted := true })
  | served {byte : UInt8} {rest : Bytes} (hview : cursor.refilled.region.unread = byte :: rest) :
      Single cursor (.ok [byte], cursor.refilled.serveByte rest)

theorem single (cursor : Cursor σ) : Single cursor (Request.byte.run cursor) := by
  rw [Request.run, readByte]
  by_cases hclosed : cursor.closed = true
  · rw [if_pos hclosed]
    exact .closed hclosed
  · rw [if_neg hclosed]
    cases hregion : cursor.region.unread with
    | cons byte rest =>
      have hrefilled : cursor.refilled = cursor := by rw [refilled, hregion]; rfl
      have hserved : Single cursor (.ok [byte], cursor.refilled.serveByte rest) :=
        .served (by rw [hrefilled, hregion])
      rw [hrefilled] at hserved
      exact hserved
    | nil =>
      rcases pull_cases cursor with ⟨chunk, source, _, _, hpull⟩ |
        ⟨cause, source, hopen, hnext, hpull⟩ | ⟨last, hstops, hpull⟩
      · have hrefilled : cursor.refilled = (cursor.supplied [chunk] source).enter chunk := by
          rw [refilled, hregion, hpull]
          rfl
        have hserved : Single cursor (.ok [chunk.head], cursor.refilled.serveByte chunk.tail) :=
          .served (by rw [hrefilled]; rfl)
        rw [hrefilled] at hserved
        simp only [hpull]
        exact hserved
      · simp only [hpull]
        exact .failed hregion hopen hnext
      · simp only [hpull]
        exact .ended hregion hstops

end Cursor

end Columnar
