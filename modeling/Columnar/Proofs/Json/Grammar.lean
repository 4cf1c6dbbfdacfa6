import Columnar.Json

/-!
The grammar of JSON text, written down for itself: which characters spell which value. Between any
two tokens there may be blanks. Values, the elements of an array and the members of an object are
derived by one relation, so what holds of all of them is one induction.
-/
namespace Columnar.Json

def Blanks (cs : List Char) : Prop := ∀ c ∈ cs, c ∈ [' ', '\t', '\n', '\r']

theorem isBlank_iff {c : Char} : isBlank c = true ↔ c ∈ [' ', '\t', '\n', '\r'] := by
  simp [isBlank, or_assoc]

theorem blanks_iff {cs : List Char} : cs.all isBlank = true ↔ Blanks cs := by
  simp only [List.all_eq_true, isBlank_iff, Blanks]

instance (cs : List Char) : Decidable (Blanks cs) := decidable_of_iff _ blanks_iff

/-- One digit or more. -/
def Digits (cs : List Char) : Prop := cs ≠ [] ∧ ∀ c ∈ cs, c.isDigit = true

/-- Digits without a zero in front of others. -/
inductive Whole : List Char → Prop where
  | zero : Whole ['0']
  | digits {first : Char} {rest : List Char} (hfirst : first.isDigit = true) (hzero : first ≠ '0')
      (hrest : ∀ c ∈ rest, c.isDigit = true) : Whole (first :: rest)

inductive Fraction : List Char → Prop where
  | none : Fraction []
  | point {digits : List Char} (h : Digits digits) : Fraction ('.' :: digits)

inductive Exponent : List Char → Prop where
  | none : Exponent []
  | power {letter : Char} {sign digits : List Char} (hletter : letter ∈ ['e', 'E'])
      (hsign : sign ∈ [[], ['+'], ['-']]) (h : Digits digits) :
      Exponent (letter :: (sign ++ digits))

inductive NumberLiteral : List Char → Prop where
  | mk {sign whole fraction exponent : List Char} (hsign : sign ∈ [[], ['-']])
      (hwhole : Whole whole) (hfraction : Fraction fraction) (hexponent : Exponent exponent) :
      NumberLiteral (sign ++ whole ++ fraction ++ exponent)

/-- The digit of either case that has the value. -/
def HexDigit (value : Nat) (c : Char) : Prop :=
  "0123456789abcdef".toList[value]? = some c ∨ "0123456789ABCDEF".toList[value]? = some c

/-- The letters that may follow a backslash by themselves, and what they stand for. -/
def escapes : List (Char × Char) :=
  [('"', '"'), ('\\', '\\'), ('/', '/'), ('b', '\x08'), ('f', '\x0c'), ('n', '\n'), ('r', '\r'),
    ('t', '\t')]

/-- How a piece of a string is spelled. -/
inductive PieceSpelled : StringPiece → List Char → Prop where
  | plain {c : Char} (hprintable : 32 ≤ c.toNat) (hquote : c ≠ '"') (hbackslash : c ≠ '\\') :
      PieceSpelled (.char c) [c]
  | escape {letter c : Char} (h : (letter, c) ∈ escapes) : PieceSpelled (.char c) ['\\', letter]
  | unit {w x y z : Nat} {a b c d : Char} (ha : HexDigit w a) (hb : HexDigit x b)
      (hc : HexDigit y c) (hd : HexDigit z d) :
      PieceSpelled (.unit (4096 * w + 256 * x + 16 * y + z)) ['\\', 'u', a, b, c, d]

inductive PiecesSpelled : List StringPiece → List Char → Prop where
  | none : PiecesSpelled [] []
  | more {piece : StringPiece} {pieces : List StringPiece} {front rest : List Char}
      (hpiece : PieceSpelled piece front) (hrest : PiecesSpelled pieces rest) :
      PiecesSpelled (piece :: pieces) (front ++ rest)

/-- The text that pieces denote. A code unit is a character by itself, or it is the first half of
a pair and the next unit is the other half. Half a pair denotes nothing. -/
inductive Denotes : List StringPiece → List Char → Prop where
  | none : Denotes [] []
  | char {pieces : List StringPiece} {text : List Char} (c : Char) (hrest : Denotes pieces text) :
      Denotes (.char c :: pieces) (c :: text)
  | unit {pieces : List StringPiece} {text : List Char} (c : Char) (hrest : Denotes pieces text) :
      Denotes (.unit c.toNat :: pieces) (c :: text)
  | pair {pieces : List StringPiece} {text : List Char} {high low : Nat} {c : Char}
      (hhigh : 0xd800 ≤ high ∧ high ≤ 0xdbff) (hlow : 0xdc00 ≤ low ∧ low ≤ 0xdfff)
      (hc : c.toNat = 0x10000 + (high - 0xd800) * 0x400 + (low - 0xdc00))
      (hrest : Denotes pieces text) :
      Denotes (.unit high :: .unit low :: pieces) (c :: text)

/-- A string in quotes, with its text if its pieces denote one. -/
inductive StringSpelled : Option String → List Char → Prop where
  | mk {pieces : List StringPiece} {body : List Char} {text : Option String}
      (hbody : PiecesSpelled pieces body)
      (htext : ∀ t : String, text = some t ↔ Denotes pieces t.toList) :
      StringSpelled text ('"' :: (body ++ ['"']))

/-- What the grammar derives. A text is a value with blanks around it. -/
inductive Phrase where
  | value (value : Json)
  | text (value : Json)
  | elements (values : List Json)
  | member (name : Option String) (value : Json)
  | members (members : List (Option String × Json))

inductive Spelled : Phrase → List Char → Prop where
  | null : Spelled (.value .null) "null".toList
  | true : Spelled (.value (.boolean true)) "true".toList
  | false : Spelled (.value (.boolean false)) "false".toList
  | number {literal : List Char} (h : NumberLiteral literal) :
      Spelled (.value (.number literal)) literal
  | string {text : Option String} {cs : List Char} (h : StringSpelled text cs) :
      Spelled (.value (.string text)) cs
  | emptyArray {blanks : List Char} (h : Blanks blanks) :
      Spelled (.value (.array [])) ('[' :: (blanks ++ [']']))
  | array {values : List Json} {cs : List Char} (h : Spelled (.elements values) cs) :
      Spelled (.value (.array values)) ('[' :: (cs ++ [']']))
  | emptyObject {blanks : List Char} (h : Blanks blanks) :
      Spelled (.value (.object [])) ('\x7b' :: (blanks ++ ['\x7d']))
  | object {members : List (Option String × Json)} {cs : List Char}
      (h : Spelled (.members members) cs) :
      Spelled (.value (.object members)) ('\x7b' :: (cs ++ ['\x7d']))
  | text {value : Json} {before cs after : List Char} (hbefore : Blanks before)
      (h : Spelled (.value value) cs) (hafter : Blanks after) :
      Spelled (.text value) (before ++ cs ++ after)
  | element {value : Json} {cs : List Char} (h : Spelled (.text value) cs) :
      Spelled (.elements [value]) cs
  | elements {value : Json} {values : List Json} {cs more : List Char}
      (h : Spelled (.text value) cs) (hmore : Spelled (.elements values) more) :
      Spelled (.elements (value :: values)) (cs ++ ',' :: more)
  | named {name : Option String} {value : Json} {before spelling after cs : List Char}
      (hbefore : Blanks before) (hname : StringSpelled name spelling) (hafter : Blanks after)
      (h : Spelled (.text value) cs) :
      Spelled (.member name value) (before ++ spelling ++ after ++ ':' :: cs)
  | member {name : Option String} {value : Json} {cs : List Char}
      (h : Spelled (.member name value) cs) : Spelled (.members [(name, value)]) cs
  | members {name : Option String} {value : Json} {members : List (Option String × Json)}
      {cs more : List Char} (h : Spelled (.member name value) cs)
      (hmore : Spelled (.members members) more) :
      Spelled (.members ((name, value) :: members)) (cs ++ ',' :: more)

/-- The values of the members are spelled themselves. -/
theorem Spelled.member_value {members : List (Option String × Json)} {cs : List Char}
    (h : Spelled (.members members) cs) : ∀ member ∈ members, ∃ spelling,
      Spelled (.value member.2) spelling := by
  have hvalue {name : Option String} {value : Json} {cs : List Char}
      (h : Spelled (.member name value) cs) : ∃ spelling, Spelled (.value value) spelling := by
    cases h with
    | named _ _ _ h =>
      cases h with
      | text _ h _ => exact ⟨_, h⟩
  generalize hphrase : Phrase.members members = phrase at h
  induction h generalizing members with
  | member h =>
    cases hphrase
    exact List.forall_mem_singleton.mpr (hvalue h)
  | members h _ _ ih =>
    cases hphrase
    exact List.forall_mem_cons.mpr ⟨hvalue h, ih rfl⟩
  | _ => cases hphrase

/-- The whole text spells the value. -/
def Spells (value : Json) (text : String) : Prop := Spelled (.text value) text.toList

/-- Numbers among the members of an object are literals. -/
theorem Spells.member_literal {members : List (Option String × Json)} {text : String}
    (h : Spells (.object members) text) {name : Option String} {literal : List Char}
    (hmember : (name, .number literal) ∈ members) : NumberLiteral literal := by
  rw [Spells] at h
  generalize text.toList = cs at h
  cases h with
  | text _ h _ =>
    cases h with
    | emptyObject => cases hmember
    | object h =>
      obtain ⟨spelling, hnumber⟩ := h.member_value _ hmember
      cases hnumber with
      | number hliteral => exact hliteral

end Columnar.Json
