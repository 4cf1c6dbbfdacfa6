import Columnar.Proofs.Cursor.Exchange
import Columnar.Proofs.Cursor.Offers

/-!
One read for two. A read pulls chunks up to the one that its last byte stands in, so where reading
leaves a cursor is decided by the bytes that were taken and not by how they were asked for. A read
of two blocks together therefore succeeds where the two succeed in a row, with the same bytes, and
leaves the same to be read.
-/
namespace Columnar

/-- Reads two blocks in a row and puts them together. -/
def Decoder.takeBoth (m n : Nat) : Decoder Bytes := both (takeBytes m) (takeBytes n)

theorem Decoder.run_takeBoth_eq_ok_iff {source : ByteSource σ} {m n : Nat} {state after : σ}
    {block : Bytes} :
    (takeBoth m n).run source state = (.ok block, after) ↔ ∃ front middle back,
      source.readBytes m state = (.ok front, middle) ∧
      source.readBytes n middle = (.ok back, after) ∧ block = front ++ back := by
  simp only [takeBoth, run_both_eq_ok_iff, run_takeBytes]

namespace Cursor

/-- The same bytes are left, and the same calls of the source. What scratch storage holds and how
much it has room for may differ. -/
structure SameRest (first second : Cursor σ) : Prop where
  unread : first.region.unread = second.region.unread
  source : first.source = second.source
  exhausted : first.exhausted = second.exhausted
  closed : first.closed = second.closed
  config : first.config = second.config
  position : first.position = second.position

theorem SameRest.refl (cursor : Cursor σ) : SameRest cursor cursor := ⟨rfl, rfl, rfl, rfl, rfl, rfl⟩

theorem SameRest.trans {first second third : Cursor σ} (h : SameRest first second)
    (h' : SameRest second third) : SameRest first third where
  unread := h.unread.trans h'.unread
  source := h.source.trans h'.source
  exhausted := h.exhausted.trans h'.exhausted
  closed := h.closed.trans h'.closed
  config := h.config.trans h'.config
  position := h.position.trans h'.position

/-- Of two stretches of chunks over as many bytes the longer pulls no more than the other. -/
theorem eq_nil_of_joined {unread front back rest rest' : Bytes} {chunks later : List Chunk}
    (hbytes : unread ++ joined chunks = front ++ rest)
    (hbytes' : unread ++ joined (chunks ++ later) = back ++ rest')
    (hlength : front.length = back.length)
    (hlast : ∀ chunk, (chunks ++ later).getLast? = some chunk → rest'.length < chunk.length) :
    later = [] := by
  rcases List.eq_nil_or_concat later with hnil | ⟨middle, chunk, rfl⟩
  · exact hnil
  · have hshort : rest'.length < chunk.length := hlast chunk (by simp)
    have htaken := congrArg List.length hbytes
    have htaken' := congrArg List.length hbytes'
    simp only [joined_append, joined_cons, joined_nil, List.concat_eq_append, List.length_append,
      List.append_nil, Chunk.length_bytes] at htaken htaken'
    omega

variable [ChunkSource σ] {config : DecoderConfig} {before middle after cursor : Cursor σ}
  {bytes front back : Bytes} {size : Nat}

/-- The cursor has moved over the bytes and has pulled no chunk that none of them stands in. -/
structure Moves (before : Cursor σ) (bytes : Bytes) (after : Cursor σ) : Prop where
  opened : before.closed = false
  supply : ∃ chunks, Supplies before.source chunks after.source ∧
    (chunks ≠ [] → before.exhausted = false) ∧
    before.region.unread ++ joined chunks = bytes ++ after.region.unread ∧
    ∀ chunk, chunks.getLast? = some chunk → after.region.unread.length < chunk.length
  exhausted : after.exhausted = before.exhausted
  closed : after.closed = before.closed
  config : after.config = before.config
  position : after.position = before.position + bytes.length

theorem moves_of_readBytes (h : cursor.readBytes size = (.ok bytes, after)) :
    cursor.Moves bytes after ∧ bytes.length = size := by
  have hopened : cursor.closed = false := by
    rw [Bool.eq_false_iff]
    intro hclosed
    rw [readBytes, if_pos hclosed] at h
    cases h
  obtain ⟨hconfig, _⟩ := storage_run (.bytes size) cursor
  have hexchange := exchange (.bytes size) cursor
  rw [Request.run, h] at hconfig hexchange
  cases hexchange with
  | @served chunks _ _ hsupplies hopen hbytes hsize hlast _ hposition hexhausted hclosed =>
    have hmoved : after.position = cursor.position + bytes.length := by rw [hposition, hsize]
    exact ⟨⟨hopened, ⟨chunks, hsupplies, hopen, hbytes, hlast⟩, hexhausted, hclosed, hconfig,
      hmoved⟩, hsize⟩

namespace Moves

theorem trans (h : before.Moves front middle) (h' : middle.Moves back after) :
    before.Moves (front ++ back) after := by
  obtain ⟨chunks, hsupplies, hopen, hbytes, hlast⟩ := h.supply
  obtain ⟨later, hlater, hopen', hbytes', hlast'⟩ := h'.supply
  refine ⟨h.opened, ⟨chunks ++ later, hsupplies.append hlater, ?_, ?_, ?_⟩,
    h'.exhausted.trans h.exhausted, h'.closed.trans h.closed, h'.config.trans h.config, ?_⟩
  · intro hsome
    by_cases hchunks : chunks = []
    · rw [hchunks, List.nil_append] at hsome
      rw [← h.exhausted]
      exact hopen' hsome
    · exact hopen hchunks
  · rw [joined_append, ← List.append_assoc, hbytes, List.append_assoc, hbytes', List.append_assoc]
  · intro chunk hchunk
    rw [List.getLast?_append] at hchunk
    cases hend : later.getLast? with
    | some last =>
      rw [hend, Option.some_or] at hchunk
      exact hlast' chunk (hend.trans hchunk)
    | none =>
      -- the second stretch pulled nothing, so it only made less of the last chunk unread
      rw [hend, Option.none_or] at hchunk
      rw [List.getLast?_eq_none_iff.mp hend, joined_nil, List.append_nil] at hbytes'
      have hmiddle := hlast chunk hchunk
      rw [hbytes', List.length_append] at hmiddle
      omega
  · rw [h'.position, h.position, List.length_append, Nat.add_assoc]

/-- Bytes that a cursor moved over were offered. -/
theorem offers (h : before.Moves bytes after) : before.Offers bytes := by
  obtain ⟨chunks, hsupplies, hopen, hbytes, _⟩ := h.supply
  exact ⟨h.opened, chunks, after.source, hsupplies, hopen, hbytes ▸ List.prefix_append _ _⟩

/-- Where a cursor is left depends on how many bytes it moved over, and on nothing else. -/
theorem unique {after' : Cursor σ} (h : before.Moves front after) (h' : before.Moves back after')
    (hlength : front.length = back.length) : front = back ∧ SameRest after after' := by
  obtain ⟨chunks, hsupplies, _, hbytes, hlast⟩ := h.supply
  obtain ⟨chunks', hsupplies', _, hbytes', hlast'⟩ := h'.supply
  obtain rfl : chunks = chunks' := by
    rcases hsupplies.front_or hsupplies' with ⟨later, rfl, _⟩ | ⟨later, rfl⟩
    · rw [eq_nil_of_joined hbytes hbytes' hlength hlast', List.append_nil]
    · rw [eq_nil_of_joined hbytes' hbytes hlength.symm hlast, List.append_nil]
  obtain ⟨rfl, hunread⟩ := List.append_inj (hbytes.symm.trans hbytes') hlength
  exact ⟨rfl, hunread, hsupplies.unique hsupplies', h.exhausted.trans h'.exhausted.symm,
    h.closed.trans h'.closed.symm, h.config.trans h'.config.symm,
    h.position.trans h'.position.symm⟩

end Moves

/-- One read succeeds where two in a row do. -/
theorem readBytes_add {m n : Nat} (hreached : cursor.Reached config)
    (hscratch : config.initialScratchCapacity ≤ 2 ^ 62)
    (hsize : m + n ≤ min config.maxReadSize (2 ^ 61)) :
    Alike SameRest (cursor.readBytes (m + n)) ((Decoder.takeBoth m n).run byteSource cursor) := by
  constructor
  case forth =>
    intro block after hread
    obtain ⟨hmoves, hlength⟩ := moves_of_readBytes hread
    obtain ⟨front, back, rfl, hfront, hback⟩ : ∃ front back : Bytes,
        block = front ++ back ∧ front.length = m ∧ back.length = n :=
      ⟨block.take m, block.drop m, (List.take_append_drop m block).symm, by simp [hlength],
        by simp [hlength]⟩
    subst hfront hback
    have hoffers := hmoves.offers
    rw [← List.append_nil (front ++ back), List.append_assoc] at hoffers
    obtain ⟨middle, hfirst, hmiddle, hkept, _⟩ :=
      hoffers.readBytes hreached hscratch (by omega)
    obtain ⟨last, hsecond, _⟩ := hmiddle.readBytes hkept hscratch (by omega)
    have hmoves' := (moves_of_readBytes hfirst).1.trans (moves_of_readBytes hsecond).1
    refine ⟨last, ?_, (hmoves.unique hmoves' rfl).2⟩
    exact Decoder.run_takeBoth_eq_ok_iff.mpr ⟨front, middle, back, hfirst, hsecond, rfl⟩
  case back =>
    intro block last htwice
    obtain ⟨front, middle, back, hfirst, hsecond, rfl⟩ := Decoder.run_takeBoth_eq_ok_iff.mp htwice
    obtain ⟨hfront, rfl⟩ := moves_of_readBytes hfirst
    obtain ⟨hback, rfl⟩ := moves_of_readBytes hsecond
    have hmoves := hfront.trans hback
    have hoffers := hmoves.offers
    rw [← List.append_nil (front ++ back)] at hoffers
    rw [← List.length_append] at hsize ⊢
    obtain ⟨after, hread, _⟩ := hoffers.readBytes hreached hscratch hsize
    exact ⟨after, hread, ((moves_of_readBytes hread).1.unique hmoves rfl).2⟩

end Cursor

end Columnar
