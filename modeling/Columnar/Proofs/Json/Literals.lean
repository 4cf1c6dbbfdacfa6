import Columnar.Proofs.Json.Lexing

/-!
What a writer needs of the grammar: literals of natural numbers, plain strings, and values and
members without blanks. A natural number has one literal only, its decimal digits: the grammar has
no zero in front of others, and a sign, a point or an exponent makes another kind of number. A
string may be spelled in many ways, one of them without escapes.
-/
namespace Columnar.Json

section Numbers

variable {ds literal : List Char} {c : Char} {n : Nat}

theorem Whole.snoc (h : Whole ds) (hzero : ds ≠ ['0']) (hc : c.isDigit = true) :
    Whole (ds ++ [c]) := by
  cases h with
  | zero => exact absurd rfl hzero
  | digits hfirst hne hrest =>
    refine .digits hfirst hne fun d hd => ?_
    rcases List.mem_append.mp hd with hd | hd
    · exact hrest d hd
    · exact List.mem_singleton.mp hd ▸ hc

theorem whole_toDigits (n : Nat) : Whole (Nat.toDigits 10 n) := by
  induction n using Nat.base_induction 10 (by decide) with
  | single d hd =>
    rw [Nat.toDigits_of_lt_base hd]
    have hdigit : (Nat.digitChar d).isDigit = true := by
      rw [Nat.isDigit_digitChar, decide_eq_true_iff]
      exact hd
    by_cases hzero : d = 0
    · subst hzero
      exact .zero
    · exact .digits hdigit (by rwa [ne_eq, Nat.digitChar_eq_zero]) nofun
  | digit m d hd hm ih =>
    rw [← Nat.toDigits_append_toDigits (by decide) hm hd, Nat.toDigits_of_lt_base hd]
    refine ih.snoc (fun hzero => ?_) ?_
    · have hvalue : Nat.ofDigitChars 10 (Nat.toDigits 10 m) 0 = m := Nat.ofDigitChars_ten_toDigits
      rw [hzero] at hvalue
      exact absurd hvalue.symm (Nat.ne_of_gt hm)
    · rw [Nat.isDigit_digitChar, decide_eq_true_iff]
      exact hd

/-- The digits of a natural number are a literal. -/
theorem numberLiteral_toString (n : Nat) : NumberLiteral (toString n).toList := by
  have hliteral : NumberLiteral ([] ++ Nat.toDigits 10 n ++ [] ++ []) :=
    .mk List.mem_cons_self (whole_toDigits n) .none .none
  rw [List.nil_append, List.append_nil, List.append_nil] at hliteral
  rw [Nat.toString_eq_ofList_toDigits, String.toList_ofList]
  exact hliteral

/-- Digits behind those of a positive number. -/
theorem toDigits_append (hn : 0 < n) (hds : ∀ c ∈ ds, c.isDigit = true) :
    Nat.toDigits 10 n ++ ds = Nat.toDigits 10 (Nat.ofDigitChars 10 ds n) := by
  induction ds generalizing n with
  | nil => rw [List.append_nil, Nat.ofDigitChars_nil]
  | cons c ds ih =>
    obtain ⟨hc, hlater⟩ := List.forall_mem_cons.mp hds
    obtain ⟨d, hd, rfl⟩ := exists_digitChar hc
    have hmore : Nat.toDigits 10 n ++ [Nat.digitChar d] = Nat.toDigits 10 (10 * n + d) := by
      rw [← Nat.toDigits_of_lt_base hd]
      exact Nat.toDigits_append_toDigits (by decide) hn hd
    rw [Nat.ofDigitChars_cons_digitChar_of_lt_ten hd, ← ih (by omega) hlater, ← hmore,
      List.append_assoc, List.singleton_append]

/-- Digits without a zero in front are those of their value. -/
theorem Whole.toDigits (h : Whole ds) : Nat.toDigits 10 (Nat.ofDigitChars 10 ds 0) = ds := by
  cases h with
  | zero => rfl
  | @digits first rest hfirst hzero hrest =>
    obtain ⟨d, hd, rfl⟩ := exists_digitChar hfirst
    have hpos : 0 < d := Nat.pos_of_ne_zero fun h => hzero (Nat.digitChar_eq_zero.mpr h)
    rw [Nat.ofDigitChars_cons_digitChar_of_lt_ten hd, Nat.mul_zero, Nat.zero_add,
      ← toDigits_append hpos hrest, Nat.toDigits_of_lt_base hd, List.singleton_append]

/-- A literal of digits alone has none of the other parts. -/
theorem NumberLiteral.whole (h : NumberLiteral literal) (hdigits : isDigits literal = true) :
    Whole literal := by
  rw [isDigits, Bool.and_eq_true] at hdigits
  have hall := List.all_eq_true.mp hdigits.2
  cases h with
  | @mk sign whole fraction exponent hsign hwhole hfraction hexponent =>
    simp only [List.mem_append] at hall
    have hsign : sign = [] := by
      simp only [List.mem_cons, List.not_mem_nil, or_false] at hsign
      rcases hsign with rfl | rfl
      · rfl
      · exact absurd (hall '-' (by simp)) (by decide)
    have hfraction : fraction = [] := by
      cases hfraction with
      | none => rfl
      | point => exact absurd (hall '.' (by simp)) (by decide)
    have hexponent : exponent = [] := by
      cases exponent with
      | nil => rfl
      | cons c rest =>
        have hdigit := hall c (by simp)
        rw [hexponent.no_digit c rfl] at hdigit
        cases hdigit
    rw [hsign, hfraction, hexponent, List.nil_append, List.append_nil, List.append_nil]
    exact hwhole

/-- The literal of a natural number is its digits. -/
theorem NumberLiteral.natural?_eq_some_iff (h : NumberLiteral literal) :
    natural? literal = some n ↔ literal = (toString n).toList := by
  rw [natural?, ← Nat.ofDigitChars_eq_foldl, Nat.toString_eq_ofList_toDigits, String.toList_ofList]
  constructor
  · intro hvalue
    split at hvalue
    · next hdigits =>
      obtain rfl := Option.some.inj hvalue
      exact (h.whole hdigits).toDigits.symm
    · cases hvalue
  · rintro rfl
    rw [if_pos (whole_toDigits n).digits'.isDigits, Nat.ofDigitChars_ten_toDigits]

end Numbers

section Strings

variable {cs : List Char}

theorem piecesSpelled_plain (h : ∀ c ∈ cs, 32 ≤ c.toNat ∧ c ≠ '"' ∧ c ≠ '\\') :
    PiecesSpelled (cs.map .char) cs := by
  induction cs with
  | nil => exact .none
  | cons c cs ih =>
    obtain ⟨⟨hprintable, hquote, hbackslash⟩, hcs⟩ := List.forall_mem_cons.mp h
    exact .more (.plain hprintable hquote hbackslash) (ih hcs)

theorem denotes_plain (cs : List Char) : Denotes (cs.map .char) cs := by
  induction cs with
  | nil => exact .none
  | cons c cs ih => exact .char c ih

/-- A text of printable characters in quotes. -/
theorem stringSpelled_plain {text : String}
    (h : ∀ c ∈ text.toList, 32 ≤ c.toNat ∧ c ≠ '"' ∧ c ≠ '\\') :
    StringSpelled (some text) ('"' :: (text.toList ++ ['"'])) := by
  have hstring := (piecesSpelled_plain h).string
  rw [(denotes_plain text.toList).pieceText, Option.map_some, String.ofList_toList] at hstring
  exact hstring

end Strings

section Bare

theorem blanks_nil : Blanks [] := nofun

/-- A value with no blanks around it. -/
theorem spelled_bare {value : Json} {cs : List Char} (h : Spelled (.value value) cs) :
    Spelled (.text value) cs := by
  have htext := Spelled.text blanks_nil h blanks_nil
  rwa [List.nil_append, List.append_nil] at htext

/-- A member with a plain name and no blanks around it. -/
theorem spelled_plain (name : String)
    (hname : ∀ c ∈ name.toList, 32 ≤ c.toNat ∧ c ≠ '"' ∧ c ≠ '\\') {value : Json} {cs : List Char}
    (h : Spelled (.value value) cs) :
    Spelled (.member (some name) value) ('"' :: (name.toList ++ '"' :: ':' :: cs)) := by
  have hmember := Spelled.named blanks_nil (stringSpelled_plain hname) blanks_nil
    (spelled_bare h)
  simpa only [List.nil_append, List.append_nil, List.cons_append, List.append_assoc] using hmember

end Bare

end Columnar.Json
