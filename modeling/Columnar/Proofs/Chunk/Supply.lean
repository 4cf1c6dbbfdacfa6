import Mathlib.Algebra.Group.Nat.Defs
import Columnar.Chunk

/-!
What a source hands out. `Supplies` is a stretch of successful calls; `Delivers` is the whole
stream, up to the first answer that a reader takes as the end. A source answers alike whenever it
is asked in the same state, so a stretch of calls is a front of the stream. The errors of a source
may be any, and `FailsWith` says of what kind they are.

The chunks stand one behind another in the stream, each on the places of its bytes. A span of places
lies in one of them or reaches over a boundary.
-/
namespace Columnar

namespace ChunkSource

variable [ChunkSource σ]

/-- The answers to the next calls. -/
def answers : (calls : Nat) → σ → List (Except DecodeError (Option Bytes))
  | 0, _ => []
  | calls + 1, source => (next source).1 :: answers calls (next source).2

/-- The source after some calls. -/
def later : (calls : Nat) → σ → σ
  | 0, source => source
  | calls + 1, source => later calls (next source).2

theorem later_add (front back : Nat) (source : σ) :
    later (front + back) source = later back (later front source) := by
  induction front generalizing source with
  | zero => rw [Nat.zero_add, later]
  | succ front ih => rw [Nat.succ_add, later, later, ih]

theorem answers_add (front back : Nat) (source : σ) :
    answers (front + back) source = answers front source ++ answers back (later front source) := by
  induction front generalizing source with
  | zero => rw [Nat.zero_add, answers, later, List.nil_append]
  | succ front ih => rw [Nat.succ_add, answers, answers, later, ih, List.cons_append]

/-- However often the source is called, its errors are of one kind. -/
def FailsWith (kind : DecodeError → Prop) (source : σ) : Prop :=
  ∀ calls cause, .error cause ∈ answers calls source → kind cause

variable {kind : DecodeError → Prop} {source : σ}

theorem FailsWith.next (h : FailsWith kind source) :
    FailsWith kind (ChunkSource.next source).2 :=
  fun calls cause hanswer => h (calls + 1) cause (List.mem_cons_of_mem _ hanswer)

theorem FailsWith.of_next {cause : DecodeError} {last : σ} (h : FailsWith kind source)
    (hnext : ChunkSource.next source = (.error cause, last)) : kind cause :=
  h 1 cause (by rw [answers, hnext]; exact List.mem_cons_self)

theorem FailsWith.mono {kind' : DecodeError → Prop} (h : FailsWith kind source)
    (himplies : ∀ cause, kind cause → kind' cause) : FailsWith kind' source :=
  fun calls cause hanswer => himplies cause (h calls cause hanswer)

/-- It is enough that every state of the source fails so. -/
theorem failsWith_of_next
    (hnext : ∀ (source : σ) cause, (next source).1 = .error cause → kind cause) (source : σ) :
    FailsWith kind source := by
  intro calls
  induction calls generalizing source with
  | zero => exact fun _ => nofun
  | succ calls ih =>
    intro cause hanswer
    rcases List.mem_cons.mp hanswer with hfirst | hlater
    · exact hnext source cause hfirst.symm
    · exact ih _ cause hlater

end ChunkSource

/-- The bytes of chunks, one after another. -/
def joined (chunks : List Chunk) : Bytes := chunks.flatMap Chunk.bytes

@[simp] theorem joined_nil : joined [] = [] := rfl
@[simp] theorem joined_cons (chunk : Chunk) (chunks : List Chunk) :
    joined (chunk :: chunks) = chunk.bytes ++ joined chunks := rfl
@[simp] theorem joined_append (front back : List Chunk) :
    joined (front ++ back) = joined front ++ joined back := List.flatMap_append

@[simp] theorem Chunk.length_bytes (chunk : Chunk) : chunk.bytes.length = chunk.length := rfl

theorem Chunk.bytes_ne_nil (chunk : Chunk) : chunk.bytes ≠ [] := List.cons_ne_nil _ _

theorem Chunk.bytes_inj {chunk chunk' : Chunk} (h : chunk.bytes = chunk'.bytes) :
    chunk = chunk' := by
  cases chunk
  cases chunk'
  simpa [bytes] using h

/-- Calls in a row that all give chunks, with the source before and after them. -/
inductive Supplies [ChunkSource σ] : σ → List Chunk → σ → Prop where
  | none (source : σ) : Supplies source [] source
  | more {source middle last : σ} {chunk : Chunk} {chunks : List Chunk}
      (hnext : ChunkSource.next source = (.ok (some chunk.bytes), middle))
      (hrest : Supplies middle chunks last) : Supplies source (chunk :: chunks) last

/-- The next answer is an end. An empty chunk is one. -/
def Ends [ChunkSource σ] (source : σ) : Prop :=
  (ChunkSource.next source).1 = .ok none ∨ (ChunkSource.next source).1 = .ok (some [])

/-- Nothing more comes. A reader that knows so already does not ask again. -/
def Stops [ChunkSource σ] (exhausted : Bool) (source last : σ) : Prop :=
  match exhausted with
  | true => last = source
  | false => Ends source ∧ last = (ChunkSource.next source).2

/-- The source hands out these chunks and then an end. What it does later does not matter. -/
def Delivers [ChunkSource σ] (source : σ) (chunks : List Chunk) : Prop :=
  ∃ last, Supplies source chunks last ∧ Ends last

section Source

variable [ChunkSource σ] {source source' : σ} {chunk : Chunk} {chunks front : List Chunk}

theorem ChunkSource.FailsWith.supplies {kind : DecodeError → Prop} {last : σ}
    (h : ChunkSource.FailsWith kind source) (hsupplies : Supplies source chunks last) :
    ChunkSource.FailsWith kind last := by
  induction hsupplies with
  | none => exact h
  | @more source _ _ _ _ hnext _ ih =>
    have hlater := h.next
    rw [hnext] at hlater
    exact ih hlater

theorem Supplies.append {middle last : σ} {back : List Chunk}
    (hfront : Supplies source front middle) (hback : Supplies middle back last) :
    Supplies source (front ++ back) last := by
  induction hfront with
  | none => exact hback
  | more hnext _ ih => exact .more hnext (ih hback)

/-- Of two stretches of chunks from the same source one is a front of the other. -/
theorem Supplies.front_or {middle last : σ}
    (hfront : Supplies source front middle) (hchunks : Supplies source chunks last) :
    (∃ back, chunks = front ++ back ∧ Supplies middle back last) ∨
      ∃ back, front = chunks ++ back := by
  induction hfront generalizing chunks with
  | none => exact .inl ⟨chunks, rfl, hchunks⟩
  | @more source _ middle chunk front hnext _ ih =>
    cases hchunks with
    | none => exact .inr ⟨chunk :: front, rfl⟩
    | @more _ _ _ first later hfirst hlater =>
      rw [hnext] at hfirst
      obtain ⟨hbytes, rfl⟩ := Prod.mk.inj hfirst
      obtain rfl := Chunk.bytes_inj (Option.some.inj (Except.ok.inj hbytes))
      rcases ih hlater with ⟨back, rfl, hback⟩ | ⟨back, rfl⟩
      · exact .inl ⟨back, rfl, hback⟩
      · exact .inr ⟨back, rfl⟩

/-- The same chunks leave the same source. -/
theorem Supplies.unique {last last' : σ} (h : Supplies source chunks last)
    (h' : Supplies source chunks last') : last = last' := by
  induction h with
  | none =>
    cases h'
    rfl
  | more hnext _ ih =>
    cases h' with
    | more hnext' hrest =>
      rw [hnext] at hnext'
      obtain ⟨_, rfl⟩ := Prod.mk.inj hnext'
      exact ih hrest

theorem Delivers.ends (h : Delivers source []) : Ends source := by
  obtain ⟨last, hsupplies, hends⟩ := h
  cases hsupplies
  exact hends

theorem Delivers.next (h : Delivers source (chunk :: chunks)) :
    ∃ rest, ChunkSource.next source = (.ok (some chunk.bytes), rest) ∧ Delivers rest chunks := by
  obtain ⟨last, hsupplies, hends⟩ := h
  cases hsupplies with
  | more hnext hrest => exact ⟨_, hnext, last, hrest, hends⟩

theorem Delivers.cons (hnext : ChunkSource.next source = (.ok (some chunk.bytes), source'))
    (h : Delivers source' chunks) : Delivers source (chunk :: chunks) := by
  obtain ⟨last, hsupplies, hends⟩ := h
  exact ⟨last, .more hnext hsupplies, hends⟩

/-- Chunks that were handed out are the first that the source delivers. -/
theorem Delivers.split (h : Delivers source chunks) (hfront : Supplies source front source') :
    ∃ back, chunks = front ++ back ∧ Delivers source' back := by
  induction hfront generalizing chunks with
  | none source => exact ⟨chunks, rfl, h⟩
  | @more source middle last chunk front hnext _ ih =>
    cases chunks with
    | nil =>
      have hends := h.ends
      simp [Ends, hnext, Chunk.bytes_ne_nil] at hends
    | cons first later =>
      obtain ⟨rest, hfirst, hlater⟩ := h.next
      rw [hnext] at hfirst
      obtain ⟨hbytes, rfl⟩ := Prod.mk.inj hfirst
      obtain rfl := Chunk.bytes_inj (Option.some.inj (Except.ok.inj hbytes))
      obtain ⟨back, rfl, hback⟩ := ih hlater
      exact ⟨back, rfl, hback⟩

/-- A source that delivers does not end before the last of its chunks. -/
theorem Delivers.eq_nil (h : Delivers source chunks) (hends : Ends source) : chunks = [] := by
  cases chunks with
  | nil => rfl
  | cons chunk chunks =>
    obtain ⟨rest, hnext, _⟩ := h.next
    simp [Ends, hnext, Chunk.bytes_ne_nil] at hends

theorem Delivers.not_failed (h : Delivers source chunks) {cause : DecodeError} :
    ChunkSource.next source ≠ (.error cause, source') := by
  intro hnext
  cases chunks with
  | nil =>
    have hends := h.ends
    simp [Ends, hnext] at hends
  | cons chunk chunks =>
    obtain ⟨rest, hchunk, _⟩ := h.next
    rw [hnext] at hchunk
    cases hchunk

end Source

/-- A list of chunks never fails. -/
theorem failsWith_list {kind : DecodeError → Prop} (chunks : List Bytes) :
    ChunkSource.FailsWith kind chunks := by
  refine ChunkSource.failsWith_of_next (fun chunks cause hnext => ?_) chunks
  cases chunks with
  | nil => cases hnext
  | cons => cases hnext

/-- A script fails only with failures of the input below it. -/
theorem failsWith_script (script : List SourceEvent) :
    ChunkSource.FailsWith (fun cause => ∃ failure, cause = .source failure) script := by
  refine ChunkSource.failsWith_of_next (fun script cause hnext => ?_) script
  rcases script with _ | ⟨bytes | _ | failure, rest⟩
  · cases hnext
  · cases hnext
  · cases hnext
  · exact ⟨failure, (Except.error.inj hnext).symm⟩

/-- A source that fails with one error whenever it is asked. -/
structure Broken where
  cause : DecodeError

instance : ChunkSource Broken where
  next broken := (.error broken.cause, broken)

/-- A list of chunks delivers them. Its end may also be an empty chunk, with anything behind it. -/
theorem delivers_list (chunks : List Chunk) {ending : List Bytes}
    (hending : ending.head?.getD [] = []) :
    Delivers (chunks.map Chunk.bytes ++ ending) chunks := by
  induction chunks with
  | nil =>
    refine ⟨ending, .none _, ?_⟩
    cases ending with
    | nil => exact .inl rfl
    | cons blank rest =>
      obtain rfl : blank = [] := hending
      exact .inr rfl
  | cons chunk chunks ih => exact ih.cons rfl

/-- Places of a stream in a row. -/
structure Span where
  start : Nat
  size : Nat
  deriving DecidableEq, Repr

namespace Span

/-- One of the chunks holds all places of the span. -/
def InOneChunk (chunks : List Chunk) (span : Span) : Prop :=
  ∃ front chunk back, chunks = front ++ chunk :: back ∧ (joined front).length ≤ span.start ∧
    span.start + span.size ≤ (joined front).length + chunk.length

theorem not_inOneChunk_nil (span : Span) : ¬ span.InOneChunk [] := by
  rintro ⟨front, chunk, back, hchunks, _⟩
  exact List.append_ne_nil_of_right_ne_nil front (List.cons_ne_nil chunk back) hchunks.symm

/-- The span ends in the first chunk, or it begins behind it. -/
theorem inOneChunk_cons {chunk : Chunk} {chunks : List Chunk} {start size : Nat} :
    InOneChunk (chunk :: chunks) ⟨start, size⟩ ↔ start + size ≤ chunk.length ∨
      chunk.length ≤ start ∧ InOneChunk chunks ⟨start - chunk.length, size⟩ := by
  constructor
  · rintro ⟨_ | ⟨first, front⟩, held, back, hchunks, hfrom, hto⟩
    · obtain ⟨rfl, rfl⟩ := List.cons.inj hchunks
      exact .inl (by simpa using hto)
    · obtain ⟨rfl, rfl⟩ := List.cons.inj hchunks
      simp only [joined_cons, List.length_append, Chunk.length_bytes] at hfrom hto
      exact .inr ⟨by omega, front, held, back, rfl, by simp only; omega, by simp only; omega⟩
  · rintro (hfirst | ⟨hbehind, front, held, back, rfl, hfrom, hto⟩)
    · exact ⟨[], chunk, chunks, rfl, Nat.zero_le _, by simpa using hfirst⟩
    · simp only at hfrom hto
      refine ⟨chunk :: front, held, back, rfl, ?_, ?_⟩
      · simp only [joined_cons, List.length_append, Chunk.length_bytes]
        omega
      · simp only [joined_cons, List.length_append, Chunk.length_bytes]
        omega

/-- Chunks are compared with a span one after another. -/
instance decidableInOneChunk : (chunks : List Chunk) → (span : Span) →
    Decidable (span.InOneChunk chunks)
  | [], span => isFalse span.not_inOneChunk_nil
  | chunk :: chunks, ⟨start, size⟩ =>
    have := decidableInOneChunk chunks ⟨start - chunk.length, size⟩
    decidable_of_iff _ inOneChunk_cons.symm

/-- A span that begins in a chunk lies in one chunk if and only if it ends there too. -/
theorem inOneChunk_iff {front back : List Chunk} {chunk : Chunk} {span : Span}
    (hfrom : (joined front).length ≤ span.start)
    (hto : span.start < (joined front).length + chunk.length) :
    span.InOneChunk (front ++ chunk :: back) ↔
      span.start + span.size ≤ (joined front).length + chunk.length := by
  constructor
  · rintro ⟨front', chunk', back', hchunks, hfrom', hto'⟩
    rcases List.append_eq_append_iff.mp hchunks with ⟨more, rfl, hmore⟩ | ⟨more, rfl, hmore⟩
    · cases more with
      | nil =>
        obtain ⟨rfl, _⟩ := List.cons.inj hmore
        simpa using hto'
      | cons first more =>
        -- the other chunk begins behind the one with the first place
        obtain ⟨rfl, _⟩ := List.cons.inj hmore
        simp only [joined_append, joined_cons, List.length_append, Chunk.length_bytes] at hfrom'
        omega
    · cases more with
      | nil =>
        obtain ⟨rfl, _⟩ := List.cons.inj hmore
        simpa using hto'
      | cons first more =>
        -- the other chunk ends before the one with the first place
        obtain ⟨rfl, _⟩ := List.cons.inj hmore
        simp only [joined_append, joined_cons, List.length_append, Chunk.length_bytes] at hfrom
        omega
  · intro hends
    exact ⟨front, chunk, back, rfl, hfrom, hends⟩

/-- In at most one chunk every span lies that does not reach past its end. -/
theorem inOneChunk_of_single {chunks : List Chunk} {span : Span} (hchunks : chunks.length ≤ 1)
    (hsize : 0 < span.size) (hends : span.start + span.size ≤ (joined chunks).length) :
    span.InOneChunk chunks := by
  rcases chunks with _ | ⟨chunk, _ | ⟨second, chunks⟩⟩
  · rw [joined_nil, List.length_nil] at hends
    omega
  · exact ⟨[], chunk, [], rfl, Nat.zero_le _, by simpa using hends⟩
  · simp at hchunks

end Span

end Columnar
