import Columnar.Proofs.Cursor.Request

/-!
Reading byte by byte. What single reads give can be told for any source, and a decoder that asks
for single bytes only depends on nothing else. A slice gives its bytes. A cursor gives those of its
region and of the chunks that come next, wherever one of them ends, and after the last it sees the
end of the stream.
-/
namespace Columnar

/-- Single reads in a row that all give a byte, with the state before and after them. -/
inductive ByteSource.Gives (source : ByteSource σ) : σ → Bytes → σ → Prop where
  | none (state : σ) : source.Gives state [] state
  | more {before middle after : σ} {b : UInt8} {bytes : Bytes}
      (hread : source.readByte before = (.ok b, middle)) (hrest : source.Gives middle bytes after) :
      source.Gives before (b :: bytes) after

theorem Slice.gives (front rest : Bytes) (position : Nat) (encoding : TextEncoding) :
    Slice.byteSource.Gives ⟨front ++ rest, position, encoding⟩ front
      ⟨rest, position + front.length, encoding⟩ := by
  induction front generalizing position with
  | nil => exact .none _
  | cons b front ih =>
    have hlength : position + (b :: front).length = position + 1 + front.length := by
      rw [List.length_cons]
      omega
    rw [hlength]
    exact .more rfl (ih (position + 1))

namespace Cursor

variable [ChunkSource σ] {cursor : Cursor σ} {bytes front rest : Bytes} {ends : Prop}

/-- The bytes that an open cursor has before it, in its region and in the next chunks. If `ends`
holds, the stream ends behind them; otherwise anything may follow. -/
structure Faces (cursor : Cursor σ) (bytes : Bytes) (ends : Prop) : Prop where
  opened : cursor.closed = false
  supply : ∃ chunks last, Supplies cursor.source chunks last ∧
    (chunks ≠ [] → cursor.exhausted = false) ∧ bytes = cursor.region.unread ++ joined chunks ∧
    (ends → ∃ stop, Stops cursor.exhausted last stop)

theorem faces_ofConfig {config : DecoderConfig} {source : σ} {chunks : List Chunk}
    (hcursor : ofConfig config source = .ok cursor) (hsource : Delivers source chunks) :
    cursor.Faces (joined chunks) True := by
  obtain ⟨_, rfl⟩ := ofConfig_eq_ok_iff.mp hcursor
  obtain ⟨last, hsupplies, hends⟩ := hsource
  exact ⟨rfl, chunks, last, hsupplies, fun _ => rfl, rfl, fun _ => ⟨_, hends, rfl⟩⟩

/-- The first byte stands in the region or begins the next chunk. -/
theorem Faces.readByte {b : UInt8} (h : cursor.Faces (b :: bytes) ends) :
    ∃ after, cursor.readByte = (.ok b, after) ∧ after.Faces bytes ends ∧
      after.position = cursor.position + 1 := by
  obtain ⟨hopened, chunks, last, hsupplies, hlive, hbytes, hends⟩ := h
  rw [Cursor.readByte, if_neg (by simp [hopened])]
  cases hregion : cursor.region.unread with
  | cons first unread =>
    rw [hregion, List.cons_append] at hbytes
    obtain ⟨rfl, hunread⟩ := List.cons.inj hbytes
    have hfront : cursor.region.unread = [b] ++ unread := hregion
    have hleft : (cursor.serveByte unread).region.unread = unread := Region.unread_leave hfront
    exact ⟨_, rfl, ⟨hopened, chunks, last, hsupplies, hlive, by rw [hunread, hleft], hends⟩, rfl⟩
  | nil =>
    rw [hregion, List.nil_append] at hbytes
    cases hsupplies with
    | none => cases hbytes
    | @more _ middle _ chunk later hnext hlater =>
      have hopen : cursor.exhausted = false := hlive (List.cons_ne_nil _ _)
      obtain ⟨rfl, htail⟩ := List.cons.inj hbytes
      rw [pull_of_next hopen hnext]
      exact ⟨_, rfl, ⟨hopened, later, last, hlater, fun _ => hopen, htail, hends⟩, rfl⟩

/-- Behind the last byte is the end of the stream. -/
theorem Faces.readByte_nil (h : cursor.Faces [] ends) (hends : ends) :
    ∃ after, cursor.readByte = (.error (.error (.endOfStream 1 0)), after) ∧
      after.position = cursor.position := by
  obtain ⟨hopened, chunks, last, hsupplies, _, hbytes, hstops⟩ := h
  obtain ⟨hregion, hjoined⟩ := List.append_eq_nil_iff.mp hbytes.symm
  rw [Cursor.readByte, if_neg (by simp [hopened]), hregion]
  cases hsupplies with
  | more => cases hjoined
  | none =>
    obtain ⟨stop, hstop⟩ := hstops hends
    cases hexhausted : cursor.exhausted with
    | true =>
      rw [pull_of_exhausted hexhausted]
      exact ⟨_, rfl, rfl⟩
    | false =>
      rw [hexhausted] at hstop
      rw [pull_of_ends hexhausted hstop.1]
      exact ⟨_, rfl, rfl⟩

theorem Faces.gives (h : cursor.Faces (front ++ rest) ends) :
    ∃ after, byteSource.Gives cursor front after ∧ after.Faces rest ends ∧
      after.position = cursor.position + front.length := by
  induction front generalizing cursor with
  | nil => exact ⟨cursor, .none cursor, h, rfl⟩
  | cons b front ih =>
    obtain ⟨middle, hread, hmiddle, hfirst⟩ := h.readByte
    obtain ⟨after, hgives, hafter, hposition⟩ := ih hmiddle
    refine ⟨after, .more hread hgives, hafter, ?_⟩
    rw [hposition, hfirst, List.length_cons]
    omega

end Cursor

end Columnar
