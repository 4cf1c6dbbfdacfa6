import Columnar.Proofs.Observation

/-!
Sources that answer alike. If two sources give the same answers to single requests in related
states, and their states stay related, then every decoder and every program gives the same
results on both. Requests can be restricted to allowed sizes, and the relation need not survive
the end of the stream.
-/
namespace Columnar

/-- The same result, and states related by `Live`, or by `Ended` after the end of the stream. -/
structure Agree (Live Ended : σ → τ → Prop) (left : Outcome σ α) (right : Outcome τ α) : Prop where
  result : left.1 = right.1
  live : endsStream right.1 = false → Live left.2 right.2
  ended : endsStream right.1 = true → Ended left.2 right.2

theorem Agree.ok {Live Ended : σ → τ → Prop} {s : σ} {t : τ} (value : α) (h : Live s t) :
    Agree Live Ended (.ok value, s) (.ok value, t) :=
  ⟨rfl, fun _ => h, (nomatch ·)⟩

theorem Agree.endOfStream {Live Ended : σ → τ → Prop} {s : σ} {t : τ} {requested available : Nat}
    (h : Ended s t) :
    Agree (α := α) Live Ended (.error (.error (.endOfStream requested available)), s)
      (.error (.error (.endOfStream requested available)), t) :=
  ⟨rfl, (nomatch ·), fun _ => h⟩

/-- Outcomes that agree still do after both went on alike from their values. -/
theorem Agree.andThen {Live Ended : σ → τ → Prop} {left : Outcome σ α} {right : Outcome τ α}
    {next : α → σ → Outcome σ β} {next' : α → τ → Outcome τ β} (h : Agree Live Ended left right)
    (hnext : ∀ value s t, right = (.ok value, t) → Live s t →
      Agree Live Ended (next value s) (next' value t)) :
    Agree Live Ended (left.andThen next) (right.andThen next') := by
  obtain ⟨result, s⟩ := left
  obtain ⟨result', t⟩ := right
  obtain rfl : result = result' := h.result
  cases result with
  | ok value => exact hnext value s t rfl (h.live rfl)
  | error fault => exact ⟨rfl, h.live, h.ended⟩

/-- Lists that depend alike on outcomes that agree are the same. -/
theorem Agree.listNext_eq {Live Ended : σ → τ → Prop} {left : Outcome σ α} {right : Outcome τ α}
    {next : α → σ → List β} {next' : α → τ → List β} (h : Agree Live Ended left right)
    (hnext : ∀ value s t, left = (.ok value, s) → Live s t → next value s = next' value t) :
    left.listNext next = right.listNext next' := by
  obtain ⟨result, s⟩ := left
  obtain ⟨result', t⟩ := right
  obtain rfl : result = result' := h.result
  cases result with
  | ok value => exact hnext value s t rfl (h.live rfl)
  | error fault => rfl

/-- Both succeed with the same value, in states that are the same in what matters, or neither does.
Why one fails says nothing about the other. -/
structure Alike (Same : σ → τ → Prop) (left : Outcome σ α) (right : Outcome τ α) : Prop where
  forth : ∀ (value : α) (s : σ), left = (.ok value, s) → ∃ t, right = (.ok value, t) ∧ Same s t
  back : ∀ (value : α) (t : τ), right = (.ok value, t) → ∃ s, left = (.ok value, s) ∧ Same s t

namespace Alike

theorem of_eq {Same : σ → σ → Prop} (hrefl : ∀ state, Same state state) {left right : Outcome σ α}
    (h : left = right) : Alike Same left right := by
  subst h
  exact ⟨fun value s hleft => ⟨s, hleft, hrefl s⟩, fun value t hright => ⟨t, hright, hrefl t⟩⟩

theorem of_fails {Same : σ → τ → Prop} {left : Outcome σ α} {right : Outcome τ α}
    (hleft : ∀ value s, left ≠ (.ok value, s)) (hright : ∀ value t, right ≠ (.ok value, t)) :
    Alike Same left right :=
  ⟨fun value s h => absurd h (hleft value s), fun value t h => absurd h (hright value t)⟩

theorem trans {Same : σ → σ → Prop} {first second third : Outcome σ α}
    (htrans : ∀ {s t u}, Same s t → Same t u → Same s u) (h : Alike Same first second)
    (h' : Alike Same second third) : Alike Same first third := by
  constructor
  case forth =>
    intro value s hfirst
    obtain ⟨t, hsecond, hst⟩ := h.forth value s hfirst
    obtain ⟨u, hthird, htu⟩ := h'.forth value t hsecond
    exact ⟨u, hthird, htrans hst htu⟩
  case back =>
    intro value u hthird
    obtain ⟨t, hsecond, htu⟩ := h'.back value u hthird
    obtain ⟨s, hfirst, hst⟩ := h.back value t hsecond
    exact ⟨s, hfirst, htrans hst htu⟩

end Alike

/-- Related states answer every allowed request alike. -/
structure Simulation (left : ByteSource σ) (right : ByteSource τ) (allowed : Nat → Prop)
    (Live Ended : σ → τ → Prop) : Prop where
  ended : ∀ {s t}, Live s t → Ended s t
  encoding : ∀ {s t}, Live s t → left.encoding s = right.encoding t
  byte : ∀ {s t}, Live s t → Agree Live Ended (left.readByte s) (right.readByte t)
  bytes : ∀ {s t size}, Live s t → allowed size →
    Agree Live Ended (left.readBytes size s) (right.readBytes size t)

namespace Simulation

variable {left : ByteSource σ} {right : ByteSource τ} {allowed : Nat → Prop}
  {Live Ended : σ → τ → Prop}

/-- The right source decides which requests a decoder makes. -/
theorem run (sim : Simulation left right allowed Live Ended) (decoder : Decoder α) {s : σ} {t : τ}
    (h : Live s t) (hallowed : ∀ size ∈ decoder.requests right t, allowed size) :
    Agree Live Ended (decoder.run left s) (decoder.run right t) := by
  induction decoder generalizing s t with
  | done value => exact .ok value h
  | fail fault => exact ⟨rfl, fun _ => h, fun _ => sim.ended h⟩
  | byte next ih =>
    rw [Decoder.run_byte, Decoder.run_byte]
    apply (sim.byte h).andThen
    intro b s' t' hright hlive
    apply ih b hlive
    simpa only [Decoder.requests, hright, Outcome.listNext] using hallowed
  | bytes size next ih =>
    simp only [Decoder.requests, List.forall_mem_cons] at hallowed
    obtain ⟨hsize, hlater⟩ := hallowed
    rw [Decoder.run_bytes, Decoder.run_bytes]
    apply (sim.bytes h hsize).andThen
    intro block s' t' hright hlive
    apply ih block hlive
    simpa only [hright, Outcome.listNext] using hlater
  | encoding next ih =>
    simp only [Decoder.run, sim.encoding h]
    exact ih _ h hallowed

/-- The left source makes the same requests if all of them are allowed. -/
theorem requests_eq (sim : Simulation left right allowed Live Ended) (decoder : Decoder α)
    {s : σ} {t : τ} (h : Live s t) (hallowed : ∀ size ∈ decoder.requests left s, allowed size) :
    decoder.requests left s = decoder.requests right t := by
  induction decoder generalizing s t with
  | done => rfl
  | fail => rfl
  | byte next ih =>
    apply (sim.byte h).listNext_eq
    intro b s' t' hleft hlive
    apply ih b hlive
    simpa only [Decoder.requests, hleft, Outcome.listNext] using hallowed
  | bytes size next ih =>
    simp only [Decoder.requests, List.forall_mem_cons] at hallowed ⊢
    obtain ⟨hsize, hlater⟩ := hallowed
    apply congrArg (size :: ·)
    apply (sim.bytes h hsize).listNext_eq
    intro block s' t' hleft hlive
    apply ih block hlive
    simpa only [hleft, Outcome.listNext] using hlater
  | encoding next ih =>
    simp only [Decoder.requests, sim.encoding h] at hallowed ⊢
    exact ih _ h hallowed

section Program

variable (hleft : left.ReadsWords) (hright : right.ReadsWords)

include hleft hright

theorem run_step (sim : Simulation left right allowed Live Ended) (step : ReadStep) {s : σ} {t : τ}
    (h : Live s t) (hallowed : ∀ size ∈ step.decoder.requests right t, allowed size) :
    Agree Live Ended (step.run left s) (step.run right t) := by
  rw [ReadStep.run_eq hleft, ReadStep.run_eq hright]
  exact sim.run step.decoder h hallowed

/-- A client of either source sees the same up to the end of the stream. -/
theorem observe_eq {place : σ → Nat} {place' : τ → Nat}
    (hplace : ∀ {s t}, Ended s t → place s = place' t)
    (sim : Simulation left right allowed Live Ended) (steps : List ReadStep) {s : σ} {t : τ}
    (h : Live s t) (hallowed : ∀ size ∈ ReadStep.requests right steps t, allowed size) :
    untilEnd (ReadStep.observe left place steps s) =
      untilEnd (ReadStep.observe right place' steps t) := by
  induction steps generalizing s t with
  | nil => rfl
  | cons step steps ih =>
    simp only [ReadStep.requests, List.forall_mem_append] at hallowed
    have hstep := sim.run_step hleft hright step h hallowed.1
    have hlater := hallowed.2
    simp only [ReadStep.observe_cons, untilEnd, hstep.result] at hlater ⊢
    cases hend : endsStream (step.run right t).1 with
    | true =>
      have hended := hstep.ended hend
      simp [hplace hended]
    | false =>
      have hlive := hstep.live hend
      rw [hend] at hlater
      simp [hplace (sim.ended hlive), ih hlive hlater]

/-- If the stream has not ended, the sources are still related after the program. -/
theorem finish (sim : Simulation left right allowed Live Ended) (place : τ → Nat)
    (steps : List ReadStep) {s : σ} {t : τ} (h : Live s t)
    (hallowed : ∀ size ∈ ReadStep.requests right steps t, allowed size)
    (hopen : ∀ seen ∈ ReadStep.observe right place steps t, endsStream seen.1 = false) :
    Live (ReadStep.finish left steps s) (ReadStep.finish right steps t) := by
  induction steps generalizing s t with
  | nil => exact h
  | cons step steps ih =>
    simp only [ReadStep.requests, List.forall_mem_append] at hallowed
    rw [ReadStep.observe_cons, List.forall_mem_cons] at hopen
    obtain ⟨hfirst, hlater⟩ := hopen
    have hstep := sim.run_step hleft hright step h hallowed.1
    have hlive := hstep.live hfirst
    rw [if_neg (by simp [hfirst])] at hallowed
    exact ih hlive hallowed.2 hlater

theorem requests_program_eq (sim : Simulation left right allowed Live Ended)
    (steps : List ReadStep) {s : σ} {t : τ} (h : Live s t)
    (hallowed : ∀ size ∈ ReadStep.requests left steps s, allowed size) :
    ReadStep.requests left steps s = ReadStep.requests right steps t := by
  induction steps generalizing s t with
  | nil => rfl
  | cons step steps ih =>
    simp only [ReadStep.requests, List.forall_mem_append] at hallowed ⊢
    have hfirst := sim.requests_eq step.decoder h hallowed.1
    have hlater := hallowed.2
    rw [hfirst] at hallowed ⊢
    have hstep := sim.run_step hleft hright step h hallowed.1
    rw [hstep.result] at hlater ⊢
    cases hend : endsStream (step.run right t).1 with
    | true => rfl
    | false =>
      have hlive := hstep.live hend
      rw [hend] at hlater
      simp [ih hlive hlater]

end Program

end Simulation

end Columnar
