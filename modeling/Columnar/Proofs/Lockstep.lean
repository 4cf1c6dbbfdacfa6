import Columnar.Proofs.Cursor.Recording
import Columnar.Proofs.Cursor.Refit
import Columnar.Proofs.Recoding

/-!
Programs under two configurations. As long as both configurations treat every read alike, two
cursors stay in step: they make the same reads, and the values that they give differ in texts only.
They begin to differ with the first read that the configurations do not treat alike, and both come
to that read in the same place.
-/
namespace Columnar

namespace Cursor

variable [ChunkSource σ] {config config' : DecoderConfig} {cursor cursor' : Cursor σ}

omit [ChunkSource σ] in
/-- Two cursors that went on alike from values that are related are still in step. -/
theorem InStep.andThen {Related : α → β → Prop} {Related' : γ → δ → Prop}
    {outcome : Outcome (Cursor σ) α} {outcome' : Outcome (Cursor σ) β}
    {next : α → Cursor σ → Outcome (Cursor σ) γ} {next' : β → Cursor σ → Outcome (Cursor σ) δ}
    (h : InStep config config' Related outcome outcome')
    (hnext : ∀ value value' after after', outcome = (.ok value, after) → Related value value' →
      Refitted config config' after after' →
      InStep config config' Related' (next value after) (next' value' after')) :
    InStep config config' Related' (outcome.andThen next) (outcome'.andThen next') := by
  obtain ⟨result, after⟩ := outcome
  obtain ⟨result', after'⟩ := outcome'
  obtain ⟨hresult, hstate⟩ := h
  cases hresult with
  | error fault => exact ⟨.error fault, hstate⟩
  | ok hvalue => exact hnext _ _ _ _ rfl hvalue hstate

namespace Refitted

variable {Related : α → β → Prop} {decoder : Decoder α} {decoder' : Decoder β}

/-- Two cursors make the same of a decoder, if their configurations treat all its reads alike. -/
theorem run_decoder
    (hparallel : Decoder.Parallel config.encoding config'.encoding Related decoder decoder')
    (h : Refitted config config' cursor cursor')
    (halike : ∀ size, .bytes size ∈ decoder.reads byteSource cursor →
      config.AlikeFor config' size) :
    InStep config config' Related (decoder.run byteSource cursor)
      (decoder'.run byteSource cursor') := by
  induction hparallel generalizing cursor cursor' with
  | done hvalue => exact ⟨.ok hvalue, h⟩
  | fail fault => exact ⟨.error fault, h⟩
  | byte _ ih =>
    rw [Decoder.run_byte, Decoder.run_byte]
    refine h.readByte.andThen ?_
    rintro b _ after after' hread rfl hafter
    refine ih b hafter fun size hsize => halike size ?_
    have hread : byteSource.readByte cursor = (.ok b, after) := hread
    rw [Decoder.reads, hread]
    exact List.mem_cons_of_mem _ hsize
  | bytes size _ ih =>
    rw [Decoder.run_bytes, Decoder.run_bytes]
    have hfirst := halike size (by rw [Decoder.reads]; exact List.mem_cons_self)
    refine (h.readBytes hfirst).andThen ?_
    rintro block _ after after' hread rfl hafter
    refine ih block hafter fun size hsize => halike size ?_
    have hread : byteSource.readBytes _ cursor = (.ok block, after) := hread
    rw [Decoder.reads, hread]
    exact List.mem_cons_of_mem _ hsize
  | @encoding next next' _ ih =>
    have hencoding : byteSource.encoding cursor = config.encoding :=
      congrArg DecoderConfig.encoding h.configured
    have hencoding' : byteSource.encoding cursor' = config'.encoding :=
      congrArg DecoderConfig.encoding h.config_eq
    rw [Decoder.reads, hencoding] at halike
    rw [Decoder.run, Decoder.run, hencoding, hencoding']
    exact ih h halike

theorem run_step (h : Refitted config config' cursor cursor') (step : ReadStep)
    (halike : ∀ size, .bytes size ∈ step.decoder.reads byteSource cursor →
      config.AlikeFor config' size) :
    InStep config config' (Value.Recoded config.encoding config'.encoding)
      (step.run byteSource cursor) (step.run byteSource cursor') := by
  rw [ReadStep.run_eq readsWords, ReadStep.run_eq readsWords]
  exact h.run_decoder step.parallel_decoder halike

/-- Two cursors stay in step through a program. -/
theorem trace (h : Refitted config config' cursor cursor') (steps : List ReadStep)
    (halike : ∀ size, .bytes size ∈ ReadStep.reads byteSource steps cursor →
      config.AlikeFor config' size) :
    List.Forall₂ (InStep config config' (Value.Recoded config.encoding config'.encoding))
      (ReadStep.trace byteSource steps cursor) (ReadStep.trace byteSource steps cursor') := by
  induction steps generalizing cursor cursor' with
  | nil => exact .nil
  | cons step steps ih =>
    simp only [ReadStep.reads, List.mem_append] at halike
    have hstep := h.run_step step fun size hsize => halike size (.inl hsize)
    exact .cons hstep (ih hstep.state fun size hsize => halike size (.inr hsize))

theorem finish (h : Refitted config config' cursor cursor') (steps : List ReadStep)
    (halike : ∀ size, .bytes size ∈ ReadStep.reads byteSource steps cursor →
      config.AlikeFor config' size) :
    Refitted config config' (ReadStep.finish byteSource steps cursor)
      (ReadStep.finish byteSource steps cursor') := by
  induction steps generalizing cursor cursor' with
  | nil => exact h
  | cons step steps ih =>
    simp only [ReadStep.reads, List.mem_append] at halike
    have hstep := h.run_step step fun size hsize => halike size (.inl hsize)
    exact ih hstep.state fun size hsize => halike size (.inr hsize)

theorem after (h : Refitted config config' cursor cursor') (requests : List Request)
    (halike : ∀ size, .bytes size ∈ requests → config.AlikeFor config' size) :
    Refitted config config' (cursor.after requests) (cursor'.after requests) := by
  induction requests generalizing cursor cursor' with
  | nil => exact h
  | cons request requests ih =>
    have hfirst := h.run request fun size hsize => halike size (hsize ▸ .head _)
    exact ih hfirst.state fun size hsize => halike size (.tail _ hsize)

/-- Up to the first read that the configurations do not treat alike, and with this read, a decoder
reads the same. -/
theorem reads_decoder
    (hparallel : Decoder.Parallel config.encoding config'.encoding Related decoder decoder')
    (h : Refitted config config' cursor cursor') {front back : List Request} {request : Request}
    (hreads : decoder.reads byteSource cursor = front ++ request :: back)
    (halike : ∀ size, .bytes size ∈ front → config.AlikeFor config' size) :
    ∃ back', decoder'.reads byteSource cursor' = front ++ request :: back' := by
  induction hparallel generalizing cursor cursor' front with
  | done => simp [Decoder.reads] at hreads
  | fail => simp [Decoder.reads] at hreads
  | byte _ ih =>
    rw [Decoder.reads] at hreads ⊢
    rcases List.cons_eq_append_iff.mp hreads with ⟨rfl, hback⟩ | ⟨later, rfl, hlater⟩
    · obtain ⟨rfl, _⟩ := List.cons.inj hback
      exact ⟨_, rfl⟩
    · obtain ⟨hresult, hstate⟩ := h.readByte
      simp only [byteSource] at hlater ⊢
      generalize cursor.readByte = outcome, cursor'.readByte = outcome' at hresult hstate hlater ⊢
      obtain ⟨result, after⟩ := outcome
      obtain ⟨result', after'⟩ := outcome'
      obtain rfl : result = result' := hresult.eq
      cases result with
      | error => simp [Outcome.listNext] at hlater
      | ok b =>
        obtain ⟨back', hback'⟩ := ih b hstate hlater fun size hsize => halike size (.tail _ hsize)
        exact ⟨back', congrArg (_ :: ·) hback'⟩
  | bytes size _ ih =>
    rw [Decoder.reads] at hreads ⊢
    rcases List.cons_eq_append_iff.mp hreads with ⟨rfl, hback⟩ | ⟨later, rfl, hlater⟩
    · obtain ⟨rfl, _⟩ := List.cons.inj hback
      exact ⟨_, rfl⟩
    · obtain ⟨hresult, hstate⟩ := h.readBytes (halike size (.head _))
      simp only [byteSource] at hlater ⊢
      generalize cursor.readBytes size = outcome, cursor'.readBytes size = outcome'
        at hresult hstate hlater ⊢
      obtain ⟨result, after⟩ := outcome
      obtain ⟨result', after'⟩ := outcome'
      obtain rfl : result = result' := hresult.eq
      cases result with
      | error => simp [Outcome.listNext] at hlater
      | ok block =>
        obtain ⟨back', hback'⟩ :=
          ih block hstate hlater fun size hsize => halike size (.tail _ hsize)
        exact ⟨back', congrArg (_ :: ·) hback'⟩
  | encoding _ ih =>
    have hencoding : byteSource.encoding cursor = config.encoding :=
      congrArg DecoderConfig.encoding h.configured
    have hencoding' : byteSource.encoding cursor' = config'.encoding :=
      congrArg DecoderConfig.encoding h.config_eq
    rw [Decoder.reads, hencoding] at hreads
    rw [Decoder.reads, hencoding']
    exact ih h hreads halike

end Refitted

end Cursor

end Columnar
