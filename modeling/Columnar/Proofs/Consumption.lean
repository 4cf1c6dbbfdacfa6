import Columnar.Proofs.Observation

/-!
What a decoder takes of the bytes before it. A derivation of `Consumes` has one rule for each kind
of request, and it fixes the bytes, the sizes of the contiguous reads and the value together. A
slice is read along such a derivation whenever the read succeeds. What stands behind the bytes does
not matter, and a slice with fewer of them ends the stream.

A decoder is put together of smaller ones, and so are the bytes that it consumes: the lemmas `of_*`
take one such step apart each.
-/
namespace Columnar

/-- The decoder takes exactly these bytes and gives this value. The sizes are those of its
contiguous reads. -/
inductive Consumes (encoding : TextEncoding) : Decoder α → Bytes → List Nat → α → Prop where
  | done (value : α) : Consumes encoding (.done value) [] [] value
  | byte {next : UInt8 → Decoder α} {b : UInt8} {bytes : Bytes} {sizes : List Nat} {value : α}
      (hnext : Consumes encoding (next b) bytes sizes value) :
      Consumes encoding (.byte next) (b :: bytes) sizes value
  | bytes {next : Bytes → Decoder α} {block bytes : Bytes} {sizes : List Nat} {value : α}
      (hnext : Consumes encoding (next block) bytes sizes value) :
      Consumes encoding (.bytes block.length next) (block ++ bytes) (block.length :: sizes) value
  | encoding {next : TextEncoding → Decoder α} {bytes : Bytes} {sizes : List Nat} {value : α}
      (hnext : Consumes encoding (next encoding) bytes sizes value) :
      Consumes encoding (.encoding next) bytes sizes value

/-- Where a front of two blocks ends: inside the first, or behind it. -/
theorem cut_cases {block bytes front lost : Bytes} (h : block ++ bytes = front ++ lost) :
    (∃ cut, block = front ++ cut ∧ cut ≠ []) ∨
    (∃ left, front = block ++ left ∧ bytes = left ++ lost) := by
  rcases List.append_eq_append_iff.mp h with ⟨left, hfront, hbytes⟩ | ⟨cut, hblock, hlost⟩
  · exact .inr ⟨left, hfront, hbytes⟩
  · by_cases hcut : cut = []
    · subst hcut
      exact .inr ⟨[], by rw [hblock, List.append_nil, List.append_nil], hlost.symm⟩
    · exact .inl ⟨cut, hblock, hcut⟩

namespace Consumes

variable {encoding : TextEncoding} {decoder : Decoder α} {bytes : Bytes} {sizes : List Nat}
  {value : α}

theorem bind {rest : α → Decoder β} {bytes' : Bytes} {sizes' : List Nat} {value' : β}
    (h : Consumes encoding decoder bytes sizes value)
    (hrest : Consumes encoding (rest value) bytes' sizes' value') :
    Consumes encoding (decoder.bind rest) (bytes ++ bytes') (sizes ++ sizes') value' := by
  induction h with
  | done => exact hrest
  | byte _ ih => exact .byte (ih hrest)
  | bytes _ ih =>
    rw [List.append_assoc]
    exact .bytes (ih hrest)
  | encoding _ ih => exact .encoding (ih hrest)

theorem map (f : α → β) (h : Consumes encoding decoder bytes sizes value) :
    Consumes encoding (f <$> decoder) bytes sizes (f value) := by
  have hbind : Consumes encoding (f <$> decoder) (bytes ++ []) (sizes ++ []) (f value) :=
    h.bind (.done (f value))
  rw [List.append_nil, List.append_nil] at hbind
  exact hbind

/-- A slice that begins with the bytes is left where they end. -/
theorem run (h : Consumes encoding decoder bytes sizes value) (rest : Bytes) (position : Nat) :
    decoder.run Slice.byteSource ⟨bytes ++ rest, position, encoding⟩ =
      (.ok value, ⟨rest, position + bytes.length, encoding⟩) := by
  induction h generalizing position with
  | done => rfl
  | @byte next b bytes sizes value _ ih =>
    have hlength : position + 1 + bytes.length = position + (b :: bytes).length := by
      rw [List.length_cons]; omega
    rw [Decoder.run_byte, ← hlength]
    exact ih (position + 1)
  | @bytes next block bytes sizes value _ ih =>
    have hlength : position + block.length + bytes.length =
        position + (block ++ bytes).length := by
      rw [List.length_append]; omega
    have hread := Slice.readBytes_append block (bytes ++ rest) position encoding
    rw [Decoder.run_bytes, List.append_assoc, ← hlength]
    simp only [Slice.byteSource, hread]
    exact ih (position + block.length)
  | encoding _ ih => exact ih position

theorem requests (h : Consumes encoding decoder bytes sizes value) (rest : Bytes)
    (position : Nat) :
    decoder.requests Slice.byteSource ⟨bytes ++ rest, position, encoding⟩ = sizes := by
  induction h generalizing position with
  | done => rfl
  | byte _ ih => exact ih (position + 1)
  | @bytes next block bytes sizes value _ ih =>
    have hread := Slice.readBytes_append block (bytes ++ rest) position encoding
    rw [List.append_assoc]
    simp only [Decoder.requests, Slice.byteSource, hread, Outcome.listNext]
    rw [← ih (position + block.length)]
    rfl
  | encoding _ ih => exact ih position

/-- A slice with only a part of the bytes ends the stream, after the first of the same reads. -/
theorem truncated {front lost : Bytes} (h : Consumes encoding decoder (front ++ lost) sizes value)
    (hlost : lost ≠ []) (position : Nat) :
    ∃ requested available after, available < requested ∧
      decoder.run Slice.byteSource ⟨front, position, encoding⟩ =
        (.error (.error (.endOfStream requested available)), after) ∧
      decoder.requests Slice.byteSource ⟨front, position, encoding⟩ <+: sizes := by
  generalize hbytes : front ++ lost = bytes at h
  induction h generalizing front position with
  | done =>
    have hnil := List.append_eq_nil_iff.mp hbytes
    exact absurd hnil.2 hlost
  | @byte next b bytes sizes value _ ih =>
    cases front with
    | nil => exact ⟨1, 0, _, Nat.one_pos, rfl, List.nil_prefix⟩
    | cons head front =>
      obtain ⟨rfl, hrest⟩ := List.cons.inj hbytes
      exact ih (position + 1) hrest
  | @bytes next block bytes sizes value _ ih =>
    rcases cut_cases hbytes.symm with ⟨cut, hblock, hcut⟩ | ⟨left, rfl, hrest⟩
    · have hshort : front.length < block.length := by
        have hpos := List.length_pos_iff.mpr hcut
        rw [hblock, List.length_append]
        omega
      have hread := Slice.readBytes_of_lt block.length ⟨front, position, encoding⟩ hshort
      refine ⟨block.length, front.length, ⟨front, position, encoding⟩, hshort, ?_, ?_⟩
      · rw [Decoder.run_bytes]
        simp only [Slice.byteSource, hread]
        rfl
      · simp only [Decoder.requests, Slice.byteSource, hread, Outcome.listNext]
        exact List.cons_prefix_cons.mpr ⟨rfl, List.nil_prefix⟩
    · have hread := Slice.readBytes_append block left position encoding
      obtain ⟨requested, available, after, hlt, hrun, hrequests⟩ :=
        ih (position + block.length) hrest.symm
      refine ⟨requested, available, after, hlt, ?_, ?_⟩
      · rw [Decoder.run_bytes]
        simp only [Slice.byteSource, hread]
        exact hrun
      · simp only [Decoder.requests, Slice.byteSource, hread, Outcome.listNext]
        exact List.cons_prefix_cons.mpr ⟨rfl, hrequests⟩
  | encoding _ ih => exact ih position hbytes

end Consumes

/-- A decoder that succeeds on a slice has taken a front of it. -/
theorem consumes_of_run {decoder : Decoder α} {slice after : Slice} {value : α}
    (h : decoder.run Slice.byteSource slice = (.ok value, after)) :
    ∃ bytes sizes rest, Consumes slice.encoding decoder bytes sizes value ∧
      slice.unread = bytes ++ rest := by
  obtain ⟨unread, position, encoding⟩ := slice
  induction decoder generalizing unread position with
  | done given =>
    obtain ⟨hvalue, _⟩ := Prod.mk.inj h
    obtain rfl := Except.ok.inj hvalue
    exact ⟨[], [], unread, .done given, rfl⟩
  | fail fault => cases h
  | byte next ih =>
    cases unread with
    | nil => cases h
    | cons b unread =>
      obtain ⟨bytes, sizes, rest, hnext, rfl⟩ := ih b unread (position + 1) h
      exact ⟨b :: bytes, sizes, rest, .byte hnext, rfl⟩
  | bytes size next ih =>
    rw [Decoder.run_bytes] at h
    by_cases hshort : unread.length < size
    · simp only [Slice.byteSource, Slice.readBytes_of_lt _ ⟨unread, position, encoding⟩ hshort,
        Outcome.andThen] at h
      cases h
    · obtain ⟨block, unread, rfl, rfl⟩ : ∃ block rest, unread = block ++ rest ∧ block.length = size :=
        ⟨unread.take size, unread.drop size, (List.take_append_drop size unread).symm, by
          rw [List.length_take]; omega⟩
      simp only [Slice.byteSource, Slice.readBytes_append, Outcome.andThen] at h
      obtain ⟨bytes, sizes, rest, hnext, rfl⟩ := ih block unread (position + block.length) h
      exact ⟨block ++ bytes, block.length :: sizes, rest, .bytes hnext, by simp⟩
  | encoding next ih =>
    obtain ⟨bytes, sizes, rest, hnext, hunread⟩ := ih encoding unread position h
    exact ⟨bytes, sizes, rest, .encoding hnext, hunread⟩

namespace Consumes

variable {encoding : TextEncoding} {bytes : Bytes} {sizes : List Nat}

theorem of_done {value result : α} (h : Consumes encoding (.done value) bytes sizes result) :
    bytes = [] ∧ sizes = [] ∧ result = value := by
  cases h
  exact ⟨rfl, rfl, rfl⟩

/-- What two decoders consume in a row is consumed by the one and then by the other. -/
theorem of_bind {decoder : Decoder α} {rest : α → Decoder β} {value : β}
    (h : Consumes encoding (decoder.bind rest) bytes sizes value) :
    ∃ middle front back sizes₁ sizes₂, Consumes encoding decoder front sizes₁ middle ∧
      Consumes encoding (rest middle) back sizes₂ value ∧ bytes = front ++ back ∧
      sizes = sizes₁ ++ sizes₂ := by
  induction decoder generalizing bytes sizes with
  | done given => exact ⟨given, [], bytes, [], sizes, .done given, h, rfl, rfl⟩
  | fail fault => cases h
  | byte next ih =>
    cases h with
    | byte hnext =>
      obtain ⟨middle, front, back, sizes₁, sizes₂, hfirst, hrest, rfl, rfl⟩ := ih _ hnext
      exact ⟨middle, _ :: front, back, sizes₁, sizes₂, .byte hfirst, hrest, rfl, rfl⟩
  | bytes size next ih =>
    cases h with
    | bytes hnext =>
      obtain ⟨middle, front, back, sizes₁, sizes₂, hfirst, hrest, rfl, rfl⟩ := ih _ hnext
      exact ⟨middle, _ ++ front, back, _ :: sizes₁, sizes₂, .bytes hfirst, hrest,
        (List.append_assoc _ _ _).symm, rfl⟩
  | encoding next ih =>
    cases h with
    | encoding hnext =>
      obtain ⟨middle, front, back, sizes₁, sizes₂, hfirst, hrest, rfl, rfl⟩ := ih _ hnext
      exact ⟨middle, front, back, sizes₁, sizes₂, .encoding hfirst, hrest, rfl, rfl⟩

theorem of_map {decoder : Decoder α} {f : α → β} {value : β}
    (h : Consumes encoding (f <$> decoder) bytes sizes value) :
    ∃ middle, Consumes encoding decoder bytes sizes middle ∧ value = f middle := by
  obtain ⟨middle, front, back, sizes₁, sizes₂, hfirst, hrest, rfl, rfl⟩ := of_bind h
  obtain ⟨rfl, rfl, rfl⟩ := of_done hrest
  rw [List.append_nil, List.append_nil]
  exact ⟨middle, hfirst, rfl⟩

theorem of_takeBytes {size : Nat} {block : Bytes}
    (h : Consumes encoding (Decoder.takeBytes size) bytes sizes block) :
    block = bytes ∧ bytes.length = size ∧ sizes = [size] := by
  cases h with
  | bytes hnext =>
    obtain ⟨rfl, rfl, rfl⟩ := of_done hnext
    simp

theorem of_ofExcept {answer : Except DecodeError α} {value : α}
    (h : Consumes encoding (Decoder.ofExcept answer) bytes sizes value) :
    answer = .ok value ∧ bytes = [] ∧ sizes = [] := by
  cases answer with
  | error cause => cases h
  | ok given =>
    obtain ⟨rfl, rfl, rfl⟩ := of_done h
    exact ⟨rfl, rfl, rfl⟩

theorem of_reserve {size : Nat} {rest : Decoder α} {value : α}
    (h : Consumes encoding ((Decoder.reserve size).bind fun _ => rest) bytes sizes value) :
    Consumes encoding rest bytes sizes value := by
  rw [Decoder.reserve] at h
  split at h
  · cases h
  · exact h

end Consumes

end Columnar
