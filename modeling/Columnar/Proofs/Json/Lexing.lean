import Columnar.Proofs.Json.Grammar

/-!
Tokens of what the grammar derives. Blanks give none, each mark gives its own, and a string one
with the text that its pieces denote. Words and numbers reach as far as their characters do, so
they are told from what follows if that begins with something else.
-/
namespace Columnar.Json

/-- Letters and number characters do not go on here. -/
def Stops (rest : List Char) : Prop :=
  ∀ c, rest.head? = some c → c.isAlpha = false ∧ isNumberChar c = false

/-- The characters give the tokens, whatever comes behind them as long as it does not carry on the
last one. -/
def Lexes (cs : List Char) (tokens : List Token) : Prop :=
  ∀ rest, Stops rest → tokens? (cs ++ rest) = (tokens? rest).map (tokens ++ ·)

/-- As `Lexes`, and nothing carries on the last token. -/
def Enclosed (cs : List Char) (tokens : List Token) : Prop :=
  ∀ rest, tokens? (cs ++ rest) = (tokens? rest).map (tokens ++ ·)

theorem Enclosed.lexes {cs : List Char} {tokens : List Token} (h : Enclosed cs tokens) :
    Lexes cs tokens := fun rest _ => h rest

section Spans

variable {p : Char → Bool} {front rest : List Char}

theorem takeWhile_front (hfront : ∀ c ∈ front, p c = true)
    (hrest : ∀ c, rest.head? = some c → p c = false) : (front ++ rest).takeWhile p = front := by
  rw [List.takeWhile_append_of_pos hfront]
  cases rest with
  | nil => rw [List.takeWhile_nil, List.append_nil]
  | cons c rest => rw [List.takeWhile_cons_of_neg (by simp [hrest c rfl]), List.append_nil]

theorem dropWhile_front (hfront : ∀ c ∈ front, p c = true)
    (hrest : ∀ c, rest.head? = some c → p c = false) : (front ++ rest).dropWhile p = rest := by
  rw [List.dropWhile_append_of_pos hfront]
  cases rest with
  | nil => rfl
  | cons c rest => rw [List.dropWhile_cons_of_neg (by simp [hrest c rfl])]

end Spans

section Marks

variable {rest : List Char}

theorem tokens?_blanks {blanks : List Char} (h : Blanks blanks) (rest : List Char) :
    tokens? (blanks ++ rest) = tokens? rest := by
  induction blanks with
  | nil => rfl
  | cons c blanks ih =>
    obtain ⟨hc, hblanks⟩ := List.forall_mem_cons.mp h
    rw [List.cons_append, tokens?, if_pos (isBlank_iff.mpr hc)]
    exact ih hblanks

theorem mark_facts {c : Char} {token : Token} (h : punctuation? c = some token) :
    isBlank c = false ∧ c.isAlpha = false ∧ isNumberChar c = false := by
  rw [punctuation?.eq_def] at h
  split at h
  case h_7 => cases h
  all_goals decide

theorem tokens?_mark {c : Char} {token : Token} (h : punctuation? c = some token)
    (rest : List Char) : tokens? (c :: rest) = (tokens? rest).map (token :: ·) := by
  rw [tokens?, if_neg (by simp [(mark_facts h).1])]
  simp only [h]

theorem stops_cons {c : Char} (h : c.isAlpha = false ∧ isNumberChar c = false) :
    Stops (c :: rest) := by
  intro first hfirst
  obtain rfl := Option.some.inj hfirst
  exact h

theorem stops_mark {c : Char} {token : Token} (h : punctuation? c = some token) :
    Stops (c :: rest) := stops_cons (mark_facts h).2

/-- Blanks carry nothing on. -/
theorem stops_blanks {blanks : List Char} (h : Blanks blanks) (hrest : Stops rest) :
    Stops (blanks ++ rest) := by
  cases blanks with
  | nil => exact hrest
  | cons c blanks =>
    have hc := h c List.mem_cons_self
    simp only [List.mem_cons, List.not_mem_nil, or_false] at hc
    rcases hc with rfl | rfl | rfl | rfl
    all_goals exact stops_cons (by decide)

end Marks

section Words

theorem lexes_word {first : Char} {letters : List Char} {token : Token}
    (hmark : isBlank first = false ∧ punctuation? first = none ∧ first ≠ '"')
    (hletters : (first :: letters).all Char.isAlpha = true)
    (hword : word? (first :: letters) = some token) : Lexes (first :: letters) [token] := by
  intro rest hrest
  obtain ⟨hblank, hnone, hquote⟩ := hmark
  obtain ⟨hfirst, hlater⟩ := List.forall_mem_cons.mp (List.all_eq_true.mp hletters)
  have hstop : ∀ c, rest.head? = some c → c.isAlpha = false := fun c hc => (hrest c hc).1
  rw [List.cons_append, tokens?, if_neg (by simp [hblank])]
  simp only [hnone, if_neg hquote, if_pos hfirst, takeWhile_front hlater hstop,
    dropWhile_front hlater hstop, hword]
  rfl

/-- Each of the three words is a token. -/
theorem lexes_null : Lexes "null".toList [.null] :=
  lexes_word (by decide) (by decide) (by decide)

theorem lexes_true : Lexes "true".toList [.boolean true] :=
  lexes_word (by decide) (by decide) (by decide)

theorem lexes_false : Lexes "false".toList [.boolean false] :=
  lexes_word (by decide) (by decide) (by decide)

end Words

section Numbers

variable {whole fraction exponent digits literal : List Char}

theorem Digits.isDigits (h : Digits digits) : isDigits digits = true := by
  rw [Json.isDigits, Bool.and_eq_true]
  exact ⟨by simpa using h.1, List.all_eq_true.mpr h.2⟩

theorem Whole.digits' (h : Whole whole) : Digits whole := by
  cases h with
  | zero => exact ⟨List.cons_ne_nil _ _, by simp⟩
  | digits hfirst _ hrest =>
    exact ⟨List.cons_ne_nil _ _, List.forall_mem_cons.mpr ⟨hfirst, hrest⟩⟩

theorem Exponent.isExponent (h : Exponent exponent) : isExponent exponent = true := by
  cases h with
  | none => rfl
  | @power letter sign digits hletter hsign hdigits =>
    have hpower : (letter = 'e' || letter = 'E') = true := by simpa using hletter
    have hall := hdigits.isDigits
    simp only [List.mem_cons, List.not_mem_nil, or_false] at hsign
    rcases hsign with rfl | rfl | rfl
    · simp only [List.nil_append, Json.isExponent.eq_def, hpower, Bool.true_and]
      split
      · exact absurd (hdigits.2 '+' List.mem_cons_self) (by decide)
      · exact absurd (hdigits.2 '-' List.mem_cons_self) (by decide)
      · exact hall
    · exact Bool.and_eq_true_iff.mpr ⟨hpower, hall⟩
    · exact Bool.and_eq_true_iff.mpr ⟨hpower, hall⟩

/-- An exponent begins with no digit. -/
theorem Exponent.head (h : Exponent exponent) :
    ∀ c, exponent.head? = some c → c ∈ ['e', 'E'] := by
  intro c hc
  cases h with
  | none => cases hc
  | power hletter => exact Option.some.inj hc ▸ hletter

theorem Exponent.no_digit (h : Exponent exponent) :
    ∀ c, exponent.head? = some c → c.isDigit = false := by
  intro c hc
  have hletter := h.head c hc
  simp only [List.mem_cons, List.not_mem_nil, or_false] at hletter
  rcases hletter with rfl | rfl
  all_goals rfl

theorem isFraction_append (hfraction : Fraction fraction) (hexponent : Exponent exponent) :
    isFraction (fraction ++ exponent) = true := by
  cases hfraction with
  | none =>
    rw [List.nil_append, isFraction.eq_def]
    split
    · next rest => exact absurd (hexponent.head '.' rfl) (by decide)
    · exact hexponent.isExponent
  | @point digits hdigits =>
    rw [List.cons_append, isFraction, takeWhile_front hdigits.2 hexponent.no_digit,
      dropWhile_front hdigits.2 hexponent.no_digit, hdigits.isDigits, hexponent.isExponent]
    rfl

theorem no_digit_append (hfraction : Fraction fraction) (hexponent : Exponent exponent) :
    ∀ c, (fraction ++ exponent).head? = some c → c.isDigit = false := by
  cases hfraction with
  | none => exact hexponent.no_digit
  | point =>
    intro c hc
    obtain rfl := Option.some.inj hc
    rfl

theorem isMagnitude_append (hwhole : Whole whole) (hfraction : Fraction fraction)
    (hexponent : Exponent exponent) : isMagnitude (whole ++ (fraction ++ exponent)) = true := by
  have hdigits := hwhole.digits'
  have hstop := no_digit_append hfraction hexponent
  have hshape : (whole.length = 1 || whole.head? ≠ some '0') = true := by
    cases hwhole with
    | zero => rfl
    | digits _ hzero => simp [hzero]
  rw [isMagnitude, takeWhile_front hdigits.2 hstop, dropWhile_front hdigits.2 hstop,
    hdigits.isDigits, hshape, isFraction_append hfraction hexponent]
  rfl

theorem NumberLiteral.isNumber (h : NumberLiteral literal) : isNumber literal = true := by
  cases h with
  | @mk sign whole fraction exponent hsign hwhole hfraction hexponent =>
    have hmagnitude := isMagnitude_append hwhole hfraction hexponent
    rw [List.append_assoc, List.append_assoc]
    simp only [List.mem_cons, List.not_mem_nil, or_false] at hsign
    rcases hsign with rfl | rfl
    · rw [List.nil_append, Json.isNumber.eq_def]
      split
      · next rest hfirst =>
        cases hwhole with
        | zero => cases hfirst
        | digits hdigit =>
          obtain rfl := (List.cons.inj hfirst).1
          cases hdigit
      · exact hmagnitude
    · exact hmagnitude

theorem exists_digitChar {c : Char} (h : c.isDigit = true) : ∃ d < 10, c = Nat.digitChar d := by
  have hall : ∀ d < 10, Char.ofNat (48 + d) = Nat.digitChar d := by decide
  obtain ⟨hlow, hhigh⟩ : 48 ≤ c.toNat ∧ c.toNat ≤ 57 := Char.isDigit_iff_toNat.mp h
  have hvalue := hall (c.toNat - 48) (by omega)
  rw [Nat.add_sub_cancel' hlow, Char.ofNat_toNat] at hvalue
  exact ⟨_, by omega, hvalue⟩

/-- What a digit is and is not among the characters of a text. -/
theorem digit_facts {c : Char} (h : c.isDigit = true) : isBlank c = false ∧
    punctuation? c = none ∧ c ≠ '"' ∧ c.isAlpha = false ∧ isNumberChar c = true := by
  have hall : ∀ d < 10, isBlank (Nat.digitChar d) = false ∧
      punctuation? (Nat.digitChar d) = none ∧ Nat.digitChar d ≠ '"' ∧
      (Nat.digitChar d).isAlpha = false ∧ isNumberChar (Nat.digitChar d) = true := by decide
  obtain ⟨d, hd, rfl⟩ := exists_digitChar h
  exact hall d hd

theorem NumberLiteral.isNumberChar (h : NumberLiteral literal) :
    ∀ c ∈ literal, isNumberChar c = true := by
  have hdigit {c : Char} (h : c.isDigit = true) : Json.isNumberChar c = true :=
    (digit_facts h).2.2.2.2
  cases h with
  | @mk sign whole fraction exponent hsign hwhole hfraction hexponent =>
    intro c hc
    simp only [List.mem_append] at hc
    rcases hc with ((hc | hc) | hc) | hc
    · simp only [List.mem_cons, List.not_mem_nil, or_false] at hsign
      rcases hsign with rfl | rfl
      · cases hc
      · obtain rfl := List.mem_singleton.mp hc
        rfl
    · exact hdigit (hwhole.digits'.2 c hc)
    · cases hfraction with
      | none => cases hc
      | point hdigits =>
        rcases List.mem_cons.mp hc with rfl | hc
        · rfl
        · exact hdigit (hdigits.2 c hc)
    · cases hexponent with
      | none => cases hc
      | power hletter hsign' hdigits =>
        simp only [List.mem_cons, List.not_mem_nil, or_false] at hletter hsign'
        simp only [List.mem_cons, List.mem_append] at hc
        rcases hc with rfl | hc | hc
        · rcases hletter with rfl | rfl
          all_goals rfl
        · rcases hsign' with rfl | rfl | rfl
          · cases hc
          all_goals
            obtain rfl := List.mem_singleton.mp hc
            rfl
        · exact hdigit (hdigits.2 c hc)

/-- A literal begins with a digit or a sign, and so with no other token. -/
theorem NumberLiteral.first (h : NumberLiteral literal) : ∃ first later, literal = first :: later ∧
    isBlank first = false ∧ punctuation? first = none ∧ first ≠ '"' ∧ first.isAlpha = false := by
  cases h with
  | @mk sign whole fraction exponent hsign hwhole =>
    simp only [List.mem_cons, List.not_mem_nil, or_false] at hsign
    rcases hsign with rfl | rfl
    · obtain ⟨hsome, hdigits⟩ := hwhole.digits'
      obtain ⟨first, later, rfl⟩ := List.exists_cons_of_ne_nil hsome
      obtain ⟨hblank, hnone, hquote, halpha, _⟩ := digit_facts (hdigits first List.mem_cons_self)
      exact ⟨first, _, rfl, hblank, hnone, hquote, halpha⟩
    · exact ⟨'-', _, rfl, by decide⟩

theorem NumberLiteral.lexes (h : NumberLiteral literal) : Lexes literal [.number literal] := by
  intro rest hrest
  have hnumber := h.isNumber
  have hchars := h.isNumberChar
  obtain ⟨first, later, rfl, hblank, hnone, hquote, halpha⟩ := h.first
  have hlater := (List.forall_mem_cons.mp hchars).2
  have hstop : ∀ c, rest.head? = some c → Json.isNumberChar c = false := fun c hc => (hrest c hc).2
  rw [List.cons_append, tokens?, if_neg (by simp [hblank])]
  simp only [hnone, if_neg hquote, if_neg (show ¬ first.isAlpha = true by simp [halpha]),
    takeWhile_front hlater hstop, dropWhile_front hlater hstop, if_pos hnumber]
  rfl

end Numbers

section Strings

variable {piece : StringPiece} {pieces : List StringPiece} {body : List Char}

theorem HexDigit.value {value : Nat} {c : Char} (h : HexDigit value c) :
    value < 16 ∧ hexValue? c = some value := by
  have hlower : ∀ i : Fin 16, hexValue? "0123456789abcdef".toList[i] = some i.val := by decide
  have hupper : ∀ i : Fin 16, hexValue? "0123456789ABCDEF".toList[i] = some i.val := by decide
  rcases h with h | h
  · obtain ⟨hlt, rfl⟩ := List.getElem?_eq_some_iff.mp h
    exact ⟨hlt, hlower ⟨value, hlt⟩⟩
  · obtain ⟨hlt, rfl⟩ := List.getElem?_eq_some_iff.mp h
    exact ⟨hlt, hupper ⟨value, hlt⟩⟩

theorem hexUnit?_of_digits {w x y z : Nat} {a b c d : Char} (ha : HexDigit w a)
    (hb : HexDigit x b) (hc : HexDigit y c) (hd : HexDigit z d) :
    hexUnit? a b c d = some (4096 * w + 256 * x + 16 * y + z) := by
  rw [hexUnit?, ha.value.2, hb.value.2, hc.value.2, hd.value.2]
  rfl

theorem escape?_of_mem {letter c : Char} (h : (letter, c) ∈ escapes) :
    escape? letter = some c ∧ letter ≠ 'u' := by
  have hall : ∀ pair ∈ escapes, escape? pair.1 = some pair.2 ∧ pair.1 ≠ 'u' := by decide
  exact hall (letter, c) h

theorem scanString_piece (h : PieceSpelled piece body) (earlier : List StringPiece)
    (rest : List Char) :
    scanString earlier (body ++ rest) = scanString (piece :: earlier) rest := by
  cases h with
  | @plain c hprintable hquote hbackslash =>
    rw [List.singleton_append, scanString]
    · exact if_neg (by omega)
    all_goals
      intros
      contradiction
  | @escape letter c h =>
    obtain ⟨hletter, hu⟩ := escape?_of_mem h
    rw [List.cons_append, List.cons_append, List.nil_append, scanString, hletter]
    intros
    contradiction
  | unit ha hb hc hd =>
    have hunit := hexUnit?_of_digits ha hb hc hd
    simp only [List.cons_append, List.nil_append, scanString, hunit]

theorem scanString_pieces (h : PiecesSpelled pieces body) (earlier : List StringPiece)
    (rest : List Char) :
    scanString earlier (body ++ '"' :: rest) = some (earlier.reverse ++ pieces, rest) := by
  induction h generalizing earlier with
  | none => rw [List.nil_append, scanString, List.append_nil]
  | @more piece pieces front body hpiece _ ih =>
    rw [List.append_assoc, scanString_piece hpiece, ih, List.reverse_cons, List.append_assoc]
    rfl

end Strings

section Texts

variable {pieces : List StringPiece} {text : List Char} {high low code : Nat}

/-- A unit that is no half of a pair is a character by itself, whatever comes behind it. -/
theorem pieceText_unit (hhigh : isHighSurrogate code = false) (hlow : isLowSurrogate code = false) :
    pieceText (.unit code :: pieces) = (pieceText pieces).map (Char.ofNat code :: ·) := by
  rcases pieces with _ | ⟨_ | low, pieces⟩
  all_goals simp only [pieceText, hhigh, hlow, Bool.or_false, Bool.false_eq_true, if_false]

theorem pieceText_pair (hhigh : isHighSurrogate high = true) (hlow : isLowSurrogate low = true) :
    pieceText (.unit high :: .unit low :: pieces) = (pieceText pieces).map
      (Char.ofNat (0x10000 + 1024 * (high - 0xd800) + (low - 0xdc00)) :: ·) := by
  rw [pieceText, if_pos hhigh, if_pos hlow]

theorem isHighSurrogate_iff : isHighSurrogate code = true ↔ 0xd800 ≤ code ∧ code ≤ 0xdbff := by
  rw [isHighSurrogate, Bool.and_eq_true, decide_eq_true_iff, decide_eq_true_iff]
  omega

theorem isLowSurrogate_iff : isLowSurrogate code = true ↔ 0xdc00 ≤ code ∧ code ≤ 0xdfff := by
  rw [isLowSurrogate, Bool.and_eq_true, decide_eq_true_iff, decide_eq_true_iff]
  omega

/-- No character has the number of half a pair. -/
theorem not_surrogate (c : Char) :
    isHighSurrogate c.toNat = false ∧ isLowSurrogate c.toNat = false := by
  have hvalid : c.toNat < 0xd800 ∨ 0xdfff < c.toNat ∧ c.toNat < 0x110000 := c.valid
  rw [← Bool.not_eq_true, ← Bool.not_eq_true, isHighSurrogate_iff, isLowSurrogate_iff]
  omega

theorem Denotes.pieceText (h : Denotes pieces text) : pieceText pieces = some text := by
  induction h with
  | none => rfl
  | char c _ ih => rw [Json.pieceText, ih]; rfl
  | unit c _ ih =>
    rw [pieceText_unit (not_surrogate c).1 (not_surrogate c).2, ih, Char.ofNat_toNat]
    rfl
  | @pair pieces text high low c hhigh hlow hc _ ih =>
    have hcode : 0x10000 + 1024 * (high - 0xd800) + (low - 0xdc00) = c.toNat := by omega
    rw [pieceText_pair (isHighSurrogate_iff.mpr hhigh) (isLowSurrogate_iff.mpr hlow), ih, hcode,
      Char.ofNat_toNat]
    rfl

theorem toNat_ofNat {n : Nat} (h : n < 0xd800 ∨ 0xdfff < n ∧ n < 0x110000) :
    (Char.ofNat n).toNat = n := by
  rw [Char.ofNat, dif_pos h]
  rfl

theorem Denotes.scalar (hcode : code < 0x10000) (hhigh : ¬ isHighSurrogate code = true)
    (hlow : ¬ isLowSurrogate code = true) (h : Denotes pieces text) :
    Denotes (.unit code :: pieces) (Char.ofNat code :: text) := by
  rw [isHighSurrogate_iff] at hhigh
  rw [isLowSurrogate_iff] at hlow
  have hvalue : (Char.ofNat code).toNat = code := toNat_ofNat (by omega)
  have hunit := Denotes.unit (Char.ofNat code) h
  rw [hvalue] at hunit
  exact hunit

/-- Units of four digits have a text only if it is the one that they denote. -/
theorem denotes_of_pieceText (hunits : ∀ code, .unit code ∈ pieces → code < 0x10000)
    (h : pieceText pieces = some text) : Denotes pieces text := by
  fun_induction pieceText pieces generalizing text with
  | case1 => obtain rfl := Option.some.inj h; exact .none
  | case2 c pieces ih =>
    obtain ⟨later, hlater, rfl⟩ := Option.map_eq_some_iff.mp h
    exact .char c (ih (fun code hcode => hunits code (.tail _ hcode)) hlater)
  | case3 high low pieces hhigh hlow ih =>
    obtain ⟨later, hlater, rfl⟩ := Option.map_eq_some_iff.mp h
    have hhigh := isHighSurrogate_iff.mp hhigh
    have hlow := isLowSurrogate_iff.mp hlow
    refine .pair hhigh hlow ?_ (ih (fun code hcode => hunits code (.tail _ (.tail _ hcode))) hlater)
    rw [toNat_ofNat (by omega)]
    omega
  | case4 => cases h
  | case5 => cases h
  | case6 high low pieces hhigh hlow ih =>
    obtain ⟨later, hlater, rfl⟩ := Option.map_eq_some_iff.mp h
    exact .scalar (hunits high List.mem_cons_self) hhigh hlow
      (ih (fun code hcode => hunits code (.tail _ hcode)) hlater)
  | case7 => cases h
  | case8 code pieces hne hsurrogate ih =>
    obtain ⟨later, hlater, rfl⟩ := Option.map_eq_some_iff.mp h
    rw [Bool.or_eq_true, not_or] at hsurrogate
    exact .scalar (hunits code List.mem_cons_self) hsurrogate.1 hsurrogate.2
      (ih (fun code hcode => hunits code (.tail _ hcode)) hlater)

theorem PiecesSpelled.units {body : List Char} (h : PiecesSpelled pieces body) :
    ∀ code, .unit code ∈ pieces → code < 0x10000 := by
  intro code hcode
  induction h with
  | none => cases hcode
  | more hpiece _ ih =>
    rcases List.mem_cons.mp hcode with rfl | hlater
    · cases hpiece with
      | unit ha hb hc hd =>
        have := ha.value.1
        have := hb.value.1
        have := hc.value.1
        have := hd.value.1
        omega
    · exact ih hlater

/-- The text of spelled pieces is the one that they denote, if there is one. -/
theorem PiecesSpelled.text_iff {body : List Char} (h : PiecesSpelled pieces body) (t : String) :
    (Json.pieceText pieces).map String.ofList = some t ↔ Denotes pieces t.toList := by
  rw [Option.map_eq_some_iff]
  constructor
  · rintro ⟨cs, hcs, rfl⟩
    rw [String.toList_ofList]
    exact denotes_of_pieceText h.units hcs
  · intro hdenotes
    exact ⟨t.toList, hdenotes.pieceText, String.ofList_toList⟩

/-- Any pieces make a string. -/
theorem PiecesSpelled.string {body : List Char} (h : PiecesSpelled pieces body) :
    StringSpelled ((Json.pieceText pieces).map String.ofList) ('"' :: (body ++ ['"'])) :=
  .mk h h.text_iff

/-- A string in quotes is one token, with the text that its pieces denote. -/
theorem StringSpelled.enclosed {text : Option String} {cs : List Char}
    (h : StringSpelled text cs) : Enclosed cs [.string text] := by
  intro rest
  cases h with
  | @mk pieces body text hbody htext =>
    have hscan : scanString [] (body ++ '"' :: rest) = some (pieces, rest) :=
      scanString_pieces hbody [] rest
    have hpieces : (pieceText pieces).map String.ofList = text :=
      Option.ext fun t => (hbody.text_iff t).trans (htext t).symm
    have hmark : punctuation? '"' = none := rfl
    rw [List.cons_append, List.append_assoc, List.singleton_append, tokens?,
      if_neg (by decide)]
    simp only [hmark, if_true]
    split
    · next hnone => rw [hscan] at hnone; cases hnone
    · next scanned after hsome =>
      obtain ⟨rfl, rfl⟩ := Prod.mk.inj (Option.some.inj (hscan.symm.trans hsome))
      rw [hpieces]
      rfl

end Texts

section Composition

variable {front back cs : List Char} {tokens later : List Token}

theorem Lexes.append (hfront : Lexes front tokens) (hback : Lexes back later)
    (hstops : ∀ rest, Stops rest → Stops (back ++ rest)) :
    Lexes (front ++ back) (tokens ++ later) := by
  intro rest hrest
  rw [List.append_assoc, hfront _ (hstops rest hrest), hback rest hrest, Option.map_map]
  congr 1
  funext after
  exact (List.append_assoc tokens later after).symm

theorem lexes_blanks {blanks : List Char} (h : Blanks blanks) : Lexes blanks [] := by
  intro rest _
  rw [tokens?_blanks h, show (([] : List Token) ++ ·) = id from rfl, Option.map_id]
  rfl

theorem Lexes.padded {before after : List Char} (hbefore : Blanks before) (h : Lexes cs tokens)
    (hafter : Blanks after) : Lexes (before ++ cs ++ after) tokens := by
  intro rest hrest
  have hstops : Stops (after ++ rest) := stops_blanks hafter hrest
  rw [List.append_assoc, List.append_assoc, tokens?_blanks hbefore, h _ hstops,
    tokens?_blanks hafter]

/-- What stands on both sides of a mark. -/
theorem Lexes.separated {c : Char} {mark : Token} (hmark : punctuation? c = some mark)
    (hfront : Lexes front tokens) (hback : Lexes back later) :
    Lexes (front ++ c :: back) (tokens ++ mark :: later) := by
  refine hfront.append ?_ fun rest _ => stops_mark hmark
  intro rest hrest
  rw [List.cons_append, tokens?_mark hmark, hback rest hrest, Option.map_map]
  rfl

/-- What stands between two marks. -/
theorem Lexes.enclosed {first last : Char} {opening closing : Token}
    (hfirst : punctuation? first = some opening) (hlast : punctuation? last = some closing)
    (h : Lexes cs tokens) :
    Enclosed (first :: (cs ++ [last])) (opening :: (tokens ++ [closing])) := by
  intro rest
  rw [List.cons_append, List.append_assoc, List.singleton_append, tokens?_mark hfirst,
    h _ (stops_mark hlast), tokens?_mark hlast, Option.map_map, Option.map_map]
  congr 1
  funext after
  simp only [Function.comp_apply, List.cons_append, List.append_assoc, List.nil_append]

end Composition

end Columnar.Json
