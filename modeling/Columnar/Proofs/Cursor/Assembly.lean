import Columnar.Cursor
import Columnar.Proofs.Chunk.Supply

/-!
Everything that pulling and assembling can do. A cursor pulls a stretch of chunks, and then either
has enough bytes, or the source has failed or ended. Each outcome says in full what is left in the
cursor, so that no later proof has to follow the loop again.
-/
namespace Columnar

theorem Region.unread_leave {region : Region} {front rest : Bytes}
    (h : region.unread = front ++ rest) : (region.leave rest).unread = rest := by
  cases region with
  | chunk => rfl
  | scratch =>
    have hrest := (List.append_eq_nil_iff.mp h.symm).2
    rw [hrest]
    rfl

namespace Cursor

variable [ChunkSource σ]

/-- The cursor after it pulled some chunks, which left the source in the given state. -/
def supplied (chunks : List Chunk) (source : σ) (cursor : Cursor σ) : Cursor σ :=
  { cursor with
    source
    counters :=
      { cursor.counters with chunksPulled := cursor.counters.chunksPulled + chunks.length } }

theorem pull_of_exhausted {cursor : Cursor σ} (h : cursor.exhausted = true) :
    cursor.pull = (.ok none, cursor) := by
  rw [pull, if_pos h]

theorem pull_of_next {cursor : Cursor σ} {chunk : Chunk} {source : σ}
    (hopen : cursor.exhausted = false)
    (hnext : ChunkSource.next cursor.source = (.ok (some chunk.bytes), source)) :
    cursor.pull = (.ok (some chunk), cursor.supplied [chunk] source) := by
  rw [pull, if_neg (by simp [hopen]), hnext]
  rfl

theorem pull_of_ends {cursor : Cursor σ} (hopen : cursor.exhausted = false)
    (hends : Ends cursor.source) :
    cursor.pull =
      (.ok none, { cursor with source := (ChunkSource.next cursor.source).2, exhausted := true }) := by
  rcases hanswer : ChunkSource.next cursor.source with ⟨answer, source⟩
  simp only [Ends, hanswer] at hends
  rw [pull, if_neg (by simp [hopen]), hanswer]
  rcases hends with rfl | rfl <;> rfl

/-- The three answers to a pull: a chunk, a failure of the source, or no more chunks. -/
theorem pull_cases (cursor : Cursor σ) :
    (∃ chunk source, cursor.exhausted = false ∧
      ChunkSource.next cursor.source = (.ok (some chunk.bytes), source) ∧
      cursor.pull = (.ok (some chunk), cursor.supplied [chunk] source)) ∨
    (∃ cause source, cursor.exhausted = false ∧
      ChunkSource.next cursor.source = (.error cause, source) ∧
      cursor.pull = (.error cause, { cursor with source })) ∨
    (∃ last, Stops cursor.exhausted cursor.source last ∧
      cursor.pull = (.ok none, { cursor with source := last, exhausted := true })) := by
  by_cases hopen : cursor.exhausted = true
  · refine .inr (.inr ⟨cursor.source, by rw [hopen]; rfl, ?_⟩)
    rw [pull_of_exhausted hopen, ← hopen]
  · replace hopen : cursor.exhausted = false := by simpa using hopen
    rcases hanswer : ChunkSource.next cursor.source with ⟨cause | _ | _ | ⟨head, tail⟩, source⟩
    · refine .inr (.inl ⟨cause, source, hopen, rfl, ?_⟩)
      rw [pull, if_neg (by simp [hopen]), hanswer]
    · have hends : Ends cursor.source := .inl (by rw [hanswer])
      exact .inr (.inr ⟨_, by rw [hopen]; exact ⟨hends, rfl⟩, pull_of_ends hopen hends⟩)
    · have hends : Ends cursor.source := .inr (by rw [hanswer])
      exact .inr (.inr ⟨_, by rw [hopen]; exact ⟨hends, rfl⟩, pull_of_ends hopen hends⟩)
    · exact .inl ⟨⟨head, tail⟩, source, hopen, rfl, pull_of_next hopen hanswer⟩

/-- The cursor after it pulled some chunks and put the bytes in `kept` behind those in scratch
storage. -/
def gathered (chunks : List Chunk) (source : σ) (kept : Bytes) (cursor : Cursor σ) : Cursor σ :=
  { cursor.supplied chunks source with scratch := kept.reverse ++ cursor.scratch }

omit [ChunkSource σ] in
theorem gathered_cons (chunk : Chunk) (chunks : List Chunk) (middle source : σ) (kept : Bytes)
    (cursor : Cursor σ) :
    (cursor.gathered [chunk] middle chunk.bytes).gathered chunks source kept =
      cursor.gathered (chunk :: chunks) source (chunk.bytes ++ kept) := by
  have hcount : cursor.counters.chunksPulled + 1 + chunks.length =
      cursor.counters.chunksPulled + (chunk :: chunks).length := by
    rw [List.length_cons]; omega
  simp only [gathered, supplied, List.length_singleton, hcount, List.reverse_append,
    List.append_assoc]

/-- What can become of a read of `size` bytes that still lacks `needed` of them. -/
inductive Assembly (size needed : Nat) (cursor : Cursor σ) :
    Except DecodeError Unit × Cursor σ → Prop where
  | complete {chunks : List Chunk} {source : σ} (region : Region)
      (hsupplies : Supplies cursor.source chunks source)
      (hopen : chunks ≠ [] → cursor.exhausted = false)
      (henough : needed ≤ (joined chunks).length)
      (hregion : region.unread = (joined chunks).drop needed)
      (hlast : ∀ chunk, chunks.getLast? = some chunk → region.unread.length < chunk.length) :
      Assembly size needed cursor
        (.ok (), { cursor.gathered chunks source ((joined chunks).take needed) with region })
  | failed {chunks : List Chunk} {source last : σ} {cause : DecodeError}
      (hsupplies : Supplies cursor.source chunks source)
      (hopen : cursor.exhausted = false)
      (hshort : (joined chunks).length < needed)
      (hnext : ChunkSource.next source = (.error cause, last)) :
      Assembly size needed cursor
        (.error cause, cursor.gathered chunks last (joined chunks))
  | ended {chunks : List Chunk} {source last : σ}
      (hsupplies : Supplies cursor.source chunks source)
      (hopen : chunks ≠ [] → cursor.exhausted = false)
      (hshort : (joined chunks).length < needed)
      (hstops : Stops cursor.exhausted source last) :
      Assembly size needed cursor
        (.error (.endOfStream size (size - needed + (joined chunks).length)),
          { cursor.gathered chunks last (joined chunks) with exhausted := true })

/-- A chunk that does not complete the read by itself stands in front of what follows. -/
theorem Assembly.more {size needed : Nat} {cursor : Cursor σ} {chunk : Chunk} {source : σ}
    {result : Except DecodeError Unit × Cursor σ} (hopen : cursor.exhausted = false)
    (hnext : ChunkSource.next cursor.source = (.ok (some chunk.bytes), source))
    (hsize : needed ≤ size) (hlength : chunk.length ≤ needed)
    (h : Assembly size (needed - chunk.length) (cursor.gathered [chunk] source chunk.bytes) result) :
    Assembly size needed cursor result := by
  have hjoined (chunks : List Chunk) :
      (joined (chunk :: chunks)).length = chunk.length + (joined chunks).length := by simp
  have hneeded : needed = chunk.bytes.length + (needed - chunk.length) := by
    rw [Chunk.length_bytes]; omega
  cases h with
  | @complete chunks last region hsupplies _ henough hregion hlast =>
    have htake : (joined (chunk :: chunks)).take needed =
        chunk.bytes ++ (joined chunks).take (needed - chunk.length) := by
      rw [joined_cons, hneeded, List.take_length_add_append, ← hneeded]
    have hdrop : (joined (chunk :: chunks)).drop needed =
        (joined chunks).drop (needed - chunk.length) := by
      rw [joined_cons, hneeded, List.drop_length_add_append, ← hneeded]
    rw [gathered_cons, ← htake]
    refine .complete region (.more hnext hsupplies) (fun _ => hopen) (by rw [hjoined]; omega)
      (by rw [hregion, hdrop]) fun other hother => ?_
    cases chunks with
    | nil =>
      obtain rfl : chunk = other := Option.some.inj hother
      rw [hregion, joined_nil, List.drop_nil]
      exact chunk.length_pos
    | cons => exact hlast other hother
  | failed hsupplies _ hshort hanswer =>
    rw [gathered_cons]
    exact .failed (.more hnext hsupplies) hopen (by rw [hjoined]; omega) hanswer
  | @ended chunks _ _ hsupplies _ hshort hstops =>
    have hcount : size - (needed - chunk.length) + (joined chunks).length =
        size - needed + (joined (chunk :: chunks)).length := by
      rw [hjoined]; omega
    rw [gathered_cons, hcount]
    exact .ended (.more hnext hsupplies) (fun _ => hopen) (by rw [hjoined]; omega) hstops

/-- These are all outcomes of an assembly that starts with no unread bytes. -/
theorem assembly (size needed : Nat) (cursor : Cursor σ) (hsize : needed ≤ size)
    (hspent : cursor.region.unread = []) :
    Assembly size needed cursor (assemble size needed cursor) := by
  induction needed using Nat.strongRecOn generalizing cursor with
  | ind needed ih =>
    rw [assemble]
    by_cases hzero : needed = 0
    · subst hzero
      exact .complete cursor.region (.none _) (fun h => absurd rfl h) (Nat.zero_le _)
        (by rw [hspent]; rfl) (fun _ hchunk => nomatch hchunk)
    · rw [if_neg hzero]
      rcases pull_cases cursor with ⟨chunk, source, hopen, hnext, hpull⟩ |
        ⟨cause, source, hopen, hnext, hpull⟩ | ⟨last, hstops, hpull⟩
      · simp only [hpull]
        by_cases hlast : needed < chunk.length
        · rw [if_pos hlast]
          have hjoined : joined [chunk] = chunk.bytes := by simp
          have hrest : (chunk.bytes.drop needed).length < chunk.length := by
            rw [List.length_drop, Chunk.length_bytes]
            omega
          have h : Assembly size needed cursor _ :=
            .complete (.chunk chunk.bytes (chunk.bytes.drop needed)) (.more hnext (.none _))
              (fun _ => hopen) (by rw [hjoined, Chunk.length_bytes]; omega) (by rw [hjoined]; rfl)
              (fun _ hlast => Option.some.inj hlast ▸ hrest)
          rw [hjoined] at h
          rw [List.reverseAux_eq]
          exact h
        · rw [if_neg hlast, List.reverseAux_eq]
          refine .more hopen hnext hsize (by omega) ?_
          exact ih _ (by have := chunk.length_pos; omega) (cursor.gathered [chunk] source chunk.bytes)
            (by omega) hspent
      · simp only [hpull]
        exact .failed (.none _) hopen (by rw [joined_nil, List.length_nil]; omega) hnext
      · simp only [hpull]
        exact .ended (.none _) (fun h => absurd rfl h) (by rw [joined_nil, List.length_nil]; omega)
          hstops

/-- The cursor while it assembles a read: the bytes in `kept` are in scratch storage. -/
def crossing (size : Nat) (chunks : List Chunk) (source : σ) (kept : Bytes) (cursor : Cursor σ) :
    Cursor σ :=
  { cursor.supplied chunks source with
    region := .scratch
    scratch := kept.reverse
    scratchCapacity := cursor.capacityFor size }

/-- What can become of a read that the region cannot serve alone. The bytes that were unread
before it stand in front of those that it pulls. -/
inductive Across (size : Nat) (cursor : Cursor σ) : Outcome (Cursor σ) Bytes → Prop where
  | overflow (hroom : maxAllocation < cursor.capacityFor size) :
      Across size cursor (.error .capacityOverflow, { cursor with scratch := [] })
  | complete {chunks : List Chunk} {source : σ} {bytes : Bytes} (region : Region)
      (hroom : cursor.capacityFor size ≤ maxAllocation)
      (hsupplies : Supplies cursor.source chunks source)
      (hopen : chunks ≠ [] → cursor.exhausted = false)
      (hbytes : cursor.region.unread ++ joined chunks = bytes ++ region.unread)
      (hsize : bytes.length = size)
      (hlast : ∀ chunk, chunks.getLast? = some chunk → region.unread.length < chunk.length) :
      Across size cursor
        (.ok bytes,
          { cursor.crossing size chunks source bytes with
            region
            counters :=
              { cursor.counters with
                chunksPulled := cursor.counters.chunksPulled + chunks.length
                bytesConsumed := cursor.counters.bytesConsumed + size
                scratchReads := cursor.counters.scratchReads + 1 } })
  | failed {chunks : List Chunk} {source last : σ} {cause : DecodeError}
      (hroom : cursor.capacityFor size ≤ maxAllocation)
      (hsupplies : Supplies cursor.source chunks source)
      (hopen : cursor.exhausted = false)
      (hshort : (cursor.region.unread ++ joined chunks).length < size)
      (hnext : ChunkSource.next source = (.error cause, last)) :
      Across size cursor
        (.error (.error cause),
          cursor.crossing size chunks last (cursor.region.unread ++ joined chunks))
  | ended {chunks : List Chunk} {source last : σ}
      (hroom : cursor.capacityFor size ≤ maxAllocation)
      (hsupplies : Supplies cursor.source chunks source)
      (hopen : chunks ≠ [] → cursor.exhausted = false)
      (hshort : (cursor.region.unread ++ joined chunks).length < size)
      (hstops : Stops cursor.exhausted source last) :
      Across size cursor
        (.error (.error (.endOfStream size (cursor.region.unread ++ joined chunks).length)),
          { cursor.crossing size chunks last (cursor.region.unread ++ joined chunks) with
            exhausted := true })

theorem across {size : Nat} {cursor : Cursor σ} (hshort : cursor.region.unread.length < size) :
    Across size cursor (cursor.readAcross size) := by
  by_cases hroom : maxAllocation < cursor.capacityFor size
  · simp only [readAcross, if_pos hroom]
    exact .overflow hroom
  · simp only [readAcross, if_neg hroom]
    replace hroom := Nat.not_lt.mp hroom
    generalize hstart : ({ cursor with
      region := .scratch
      scratch := cursor.region.unread.reverse
      scratchCapacity := cursor.capacityFor size } : Cursor σ) = start
    have hgathered (chunks : List Chunk) (source : σ) (kept : Bytes) :
        start.gathered chunks source kept =
          cursor.crossing size chunks source (cursor.region.unread ++ kept) := by
      subst hstart
      simp only [gathered, supplied, crossing, List.reverse_append]
    have hspent : start.region.unread = [] := by
      rw [← hstart]
      rfl
    have hassembly := assembly size (size - cursor.region.unread.length) start (Nat.sub_le _ _)
      hspent
    generalize assemble size (size - cursor.region.unread.length) start = outcome at hassembly ⊢
    subst hstart
    cases hassembly with
    | @complete chunks source region hsupplies hopen henough hregion hlast =>
      have hbytes : cursor.region.unread ++ joined chunks =
          cursor.region.unread ++ (joined chunks).take (size - cursor.region.unread.length) ++
            region.unread := by
        rw [hregion, List.append_assoc, List.take_append_drop]
      rw [hgathered]
      simp only [crossing, List.reverse_reverse]
      exact .complete region hroom hsupplies hopen hbytes
        (by rw [List.length_append, List.length_take]; omega) hlast
    | failed hsupplies hopen hlack hnext =>
      rw [hgathered]
      exact .failed hroom hsupplies hopen (by rw [List.length_append]; omega) hnext
    | @ended chunks source last hsupplies hopen hlack hstops =>
      have hcount : size - (size - cursor.region.unread.length) + (joined chunks).length =
          (cursor.region.unread ++ joined chunks).length := by
        rw [List.length_append]; omega
      rw [hgathered, hcount]
      exact .ended hroom hsupplies hopen (by rw [List.length_append]; omega) hstops

end Cursor

end Columnar
