import Columnar.Proofs.Json.Lexing

/-!
The reader on texts of the grammar. The tokens of a phrase take the reader from the place where
such a phrase is expected to where the phrase is complete, with whatever containers are open
around it. That is one case for each rule of the grammar, and for a whole text it is the value.
Behind a complete container nothing but blanks is taken.
-/
namespace Columnar.Json

open Reader (fill)

/-- What the tokens of a phrase do to the reader. -/
def Reads : Phrase → List Token → Prop
  | .value value, tokens | .text value, tokens => ∀ place more,
    (Reader.expectValue place).run (tokens ++ more) = (fill value place).run more
  | .elements values, tokens => ∀ earlier outer more,
    (Reader.expectValue (.element earlier outer)).run (tokens ++ more) =
      (Reader.nextElement (values.reverse ++ earlier) outer).run more
  | .member name value, tokens => ∀ earlier outer more,
    (Reader.expectName earlier outer).run (tokens ++ more) =
      (Reader.nextMember ((name, value) :: earlier) outer).run more
  | .members members, tokens => ∀ earlier outer more,
    (Reader.expectName earlier outer).run (tokens ++ more) =
      (Reader.nextMember (members.reverse ++ earlier) outer).run more

section Rules

variable {value : Json} {values : List Json} {name : Option String}
  {members : List (Option String × Json)} {tokens later : List Token}

/-- The first element is read as any other. -/
theorem Reads.firstElement (h : Reads (.elements values) tokens) (outer : Place)
    (more : List Token) : (Reader.firstElement outer).run (tokens ++ more) =
      (Reader.nextElement values.reverse outer).run more := by
  have hrun := h [] outer more
  rw [List.append_nil] at hrun
  rw [← hrun]
  cases tokens with
  | nil => cases h [] outer []
  | cons token later =>
    cases token with
    | closeArray => cases h [] outer []
    | _ => rfl

theorem Reads.firstMember (h : Reads (.members members) tokens) (outer : Place)
    (more : List Token) : (Reader.firstMember outer).run (tokens ++ more) =
      (Reader.nextMember members.reverse outer).run more := by
  have hrun := h [] outer more
  rw [List.append_nil] at hrun
  rw [← hrun]
  cases tokens with
  | nil => cases h [] outer []
  | cons token later =>
    cases token with
    | closeObject => cases h [] outer []
    | _ => rfl

theorem Reads.array (h : Reads (.elements values) tokens) :
    Reads (.value (.array values)) (.openArray :: (tokens ++ [.closeArray])) := by
  intro place more
  have hrun := h.firstElement place ([.closeArray] ++ more)
  rw [List.cons_append, List.append_assoc]
  refine hrun.trans ?_
  simp only [List.singleton_append, Reader.run, Reader.step, List.reverse_reverse]

theorem Reads.object (h : Reads (.members members) tokens) :
    Reads (.value (.object members)) (.openObject :: (tokens ++ [.closeObject])) := by
  intro place more
  have hrun := h.firstMember place ([.closeObject] ++ more)
  rw [List.cons_append, List.append_assoc]
  refine hrun.trans ?_
  simp only [List.singleton_append, Reader.run, Reader.step, List.reverse_reverse]

theorem Reads.moreElements (h : Reads (.text value) tokens)
    (hmore : Reads (.elements values) later) :
    Reads (.elements (value :: values)) (tokens ++ .comma :: later) := by
  intro earlier outer more
  have hrun := hmore (value :: earlier) outer more
  rw [List.append_assoc, h, List.reverse_cons, List.append_assoc, List.singleton_append]
  exact hrun

theorem Reads.named (h : Reads (.text value) tokens) :
    Reads (.member name value) (.string name :: .colon :: tokens) :=
  fun earlier outer more => h (.member earlier name outer) more

theorem Reads.moreMembers (h : Reads (.member name value) tokens)
    (hmore : Reads (.members members) later) :
    Reads (.members ((name, value) :: members)) (tokens ++ .comma :: later) := by
  intro earlier outer more
  have hrun := hmore ((name, value) :: earlier) outer more
  rw [List.append_assoc, h, List.reverse_cons, List.append_assoc, List.singleton_append]
  exact hrun

end Rules

/-- Every phrase of the grammar has tokens, and they read as the phrase. -/
theorem Spelled.reads {phrase : Phrase} {cs : List Char} (h : Spelled phrase cs) :
    ∃ tokens, Lexes cs tokens ∧ Reads phrase tokens := by
  induction h with
  | null => exact ⟨_, lexes_null, fun _ _ => rfl⟩
  | true => exact ⟨_, lexes_true, fun _ _ => rfl⟩
  | false => exact ⟨_, lexes_false, fun _ _ => rfl⟩
  | number h => exact ⟨_, h.lexes, fun _ _ => rfl⟩
  | string h => exact ⟨_, h.enclosed.lexes, fun _ _ => rfl⟩
  | emptyArray h => exact ⟨_, ((lexes_blanks h).enclosed rfl rfl).lexes, fun _ _ => rfl⟩
  | array _ ih =>
    obtain ⟨tokens, hlexes, hreads⟩ := ih
    exact ⟨_, (hlexes.enclosed rfl rfl).lexes, hreads.array⟩
  | emptyObject h => exact ⟨_, ((lexes_blanks h).enclosed rfl rfl).lexes, fun _ _ => rfl⟩
  | object _ ih =>
    obtain ⟨tokens, hlexes, hreads⟩ := ih
    exact ⟨_, (hlexes.enclosed rfl rfl).lexes, hreads.object⟩
  | text hbefore _ hafter ih =>
    obtain ⟨tokens, hlexes, hreads⟩ := ih
    exact ⟨tokens, hlexes.padded hbefore hafter, hreads⟩
  | element _ ih =>
    obtain ⟨tokens, hlexes, hreads⟩ := ih
    exact ⟨tokens, hlexes, fun earlier outer more => hreads (.element earlier outer) more⟩
  | elements _ _ ih ihmore =>
    obtain ⟨tokens, hlexes, hreads⟩ := ih
    obtain ⟨later, hlater, hmore⟩ := ihmore
    exact ⟨_, hlexes.separated rfl hlater, hreads.moreElements hmore⟩
  | named hbefore hname hafter _ ih =>
    obtain ⟨tokens, hlexes, hreads⟩ := ih
    have hnamed := hname.enclosed.lexes.padded hbefore hafter
    exact ⟨_, hnamed.separated rfl hlexes, hreads.named⟩
  | member _ ih =>
    obtain ⟨tokens, hlexes, hreads⟩ := ih
    exact ⟨tokens, hlexes, hreads⟩
  | members _ _ ih ihmore =>
    obtain ⟨tokens, hlexes, hreads⟩ := ih
    obtain ⟨later, hlater, hmore⟩ := ihmore
    exact ⟨_, hlexes.separated rfl hlater, hreads.moreMembers hmore⟩

/-- A text has the value that it spells. -/
theorem Spells.parse? {value : Json} {text : String} (h : Spells value text) :
    Json.parse? text = some value := by
  obtain ⟨tokens, hlexes, hreads⟩ := Spelled.reads h
  have htokens : tokens? text.toList = some tokens := by
    have hall := hlexes [] (fun c hc => by cases hc)
    rw [List.append_nil] at hall
    rw [hall, tokens?]
    exact congrArg some (List.append_nil tokens)
  have hrun : (Reader.expectValue .top).run tokens = some (.finished value) := by
    have hall := hreads .top []
    rw [List.append_nil] at hall
    exact hall
  rw [Json.parse?, htokens, Option.bind_some, ofTokens?, hrun]

/-- An array or an object. -/
def isContainer : Json → Bool
  | .array _ | .object _ => true
  | _ => false

section Beginning

variable {c : Char} {cs rest : List Char} {first : Token} {tokens later : List Token}

theorem word?_ne_opening {letters : List Char} (h : word? letters = some first) :
    first ≠ .openArray ∧ first ≠ .openObject := by
  rw [word?] at h
  split at h
  · obtain rfl := Option.some.inj h; decide
  split at h
  · obtain rfl := Option.some.inj h; decide
  split at h
  · obtain rfl := Option.some.inj h; decide
  · cases h

/-- A character that is not blank gives a token, and no bracket or brace unless it is one. -/
theorem tokens?_cons (hblank : isBlank c = false) (h : tokens? (c :: rest) = some tokens) :
    ∃ first later, tokens = first :: later ∧
      (punctuation? c = none → first ≠ .openArray ∧ first ≠ .openObject) := by
  rw [tokens?, if_neg (by simp [hblank])] at h
  split at h
  · next mark hmark =>
    obtain ⟨later, _, rfl⟩ := Option.map_eq_some_iff.mp h
    exact ⟨mark, later, rfl, fun hnone => by rw [hmark] at hnone; cases hnone⟩
  split at h
  · split at h
    · cases h
    · obtain ⟨later, _, rfl⟩ := Option.map_eq_some_iff.mp h
      exact ⟨_, later, rfl, fun _ => ⟨by simp, by simp⟩⟩
  split at h
  · split at h
    · cases h
    · next word hword =>
      obtain ⟨later, _, rfl⟩ := Option.map_eq_some_iff.mp h
      exact ⟨word, later, rfl, fun _ => word?_ne_opening hword⟩
  dsimp only at h
  split at h
  · obtain ⟨later, _, rfl⟩ := Option.map_eq_some_iff.mp h
    exact ⟨_, later, rfl, fun _ => ⟨by simp, by simp⟩⟩
  · cases h

/-- Only blanks give no tokens. -/
theorem blanks_of_tokens? (h : tokens? cs = some []) : Blanks cs := by
  induction cs with
  | nil => exact nofun
  | cons c cs ih =>
    cases hblank : isBlank c with
    | true =>
      rw [tokens?, if_pos hblank] at h
      exact List.forall_mem_cons.mpr ⟨isBlank_iff.mp hblank, ih h⟩
    | false =>
      obtain ⟨first, later, hcons, _⟩ := tokens?_cons hblank h
      cases hcons

theorem ofTokens?_of_ne_opening {value : Json} (hfirst : first ≠ .openArray ∧ first ≠ .openObject)
    (h : ofTokens? (first :: later) = some value) : value.isContainer = false := by
  have hfinished (scalar : Json) (hrun : (Reader.expectValue .top).run (first :: later) =
      (Reader.finished scalar).run later) : value = scalar := by
    rw [ofTokens?, hrun] at h
    cases later with
    | nil => exact (Option.some.inj h).symm
    | cons => cases h
  cases first with
  | null => rw [hfinished .null rfl]; rfl
  | boolean b => rw [hfinished (.boolean b) rfl]; rfl
  | number literal => rw [hfinished (.number literal) rfl]; rfl
  | string text => rw [hfinished (.string text) rfl]; rfl
  | openArray => exact absurd rfl hfirst.1
  | openObject => exact absurd rfl hfirst.2
  | _ => cases h

end Beginning

section Trailing

variable {value : Json} {cs after : List Char}

theorem enclosed_of_isContainer (h : Spelled (.value value) cs)
    (hcontainer : value.isContainer = true) :
    ∃ tokens, Enclosed cs tokens ∧ Reads (.value value) tokens := by
  cases h with
  | null | true | false | number | string => cases hcontainer
  | emptyArray h | emptyObject h => exact ⟨_, (lexes_blanks h).enclosed rfl rfl, fun _ _ => rfl⟩
  | array h =>
    obtain ⟨tokens, hlexes, hreads⟩ := h.reads
    exact ⟨_, hlexes.enclosed rfl rfl, hreads.array⟩
  | object h =>
    obtain ⟨tokens, hlexes, hreads⟩ := h.reads
    exact ⟨_, hlexes.enclosed rfl rfl, hreads.object⟩

/-- Any other value begins with what is neither a blank nor a mark. -/
theorem first_of_not_isContainer (h : Spelled (.value value) cs)
    (hscalar : value.isContainer = false) :
    ∃ first later, cs = first :: later ∧ isBlank first = false ∧ punctuation? first = none := by
  cases h with
  | null | true | false => exact ⟨_, _, rfl, rfl, rfl⟩
  | number h =>
    obtain ⟨first, later, rfl, hblank, hmark, _⟩ := h.first
    exact ⟨first, later, rfl, hblank, hmark⟩
  | string h =>
    cases h with
    | mk => exact ⟨'"', _, rfl, rfl, rfl⟩
  | emptyArray | array | emptyObject | object => cases hscalar

/-- A text with more than blanks behind a value is no array and no object. -/
theorem not_isContainer_of_trailing (h : Spelled (.text value) cs) (hafter : ¬ Blanks after)
    {read : Json} (hread : parse? (String.ofList (cs ++ after)) = some read) :
    read.isContainer = false := by
  rw [parse?, String.toList_ofList] at hread
  obtain ⟨tokens, htokens, hread⟩ := Option.bind_eq_some_iff.mp hread
  cases h with
  | @text _ before inner behind hbefore h hbehind =>
    rw [List.append_assoc, List.append_assoc, tokens?_blanks hbefore] at htokens
    cases hcontainer : value.isContainer with
    | true =>
      obtain ⟨whole, henclosed, hreads⟩ := enclosed_of_isContainer h hcontainer
      rw [henclosed, tokens?_blanks hbehind] at htokens
      obtain ⟨rest, hrest, rfl⟩ := Option.map_eq_some_iff.mp htokens
      cases rest with
      | nil => exact absurd (blanks_of_tokens? hrest) hafter
      | cons token rest =>
        have hrun : (Reader.expectValue .top).run (whole ++ token :: rest) = none :=
          hreads .top (token :: rest)
        rw [ofTokens?, hrun] at hread
        cases hread
    | false =>
      obtain ⟨first, later, rfl, hblank, hmark⟩ := first_of_not_isContainer h hcontainer
      obtain ⟨token, rest, rfl, hne⟩ := tokens?_cons hblank htokens
      exact ofTokens?_of_ne_opening (hne hmark) hread

end Trailing

end Columnar.Json
