import Columnar.Bytes

/-!
JSON values and their reader. A text is cut into tokens first. The reader is a machine that takes
one token at a time and keeps the containers that are still open, so it needs no bound on how deep a
value is nested. Objects keep their members in order, repeated names included: what a repetition
means is up to those who read the value.

A number keeps its literal. A string is its text, or no text at all if an escape in it stands for
half of a surrogate pair without the other half: such a string is well-formed JSON, but there is no
text that it denotes.
-/
namespace Columnar

namespace Json

inductive Token where
  | openArray | closeArray | openObject | closeObject | comma | colon
  | null
  | boolean (value : Bool)
  | number (literal : List Char)
  | string (text : Option String)
  deriving DecidableEq, Repr

def isBlank (c : Char) : Bool := c = ' ' || c = '\t' || c = '\n' || c = '\r'

def punctuation? : Char → Option Token
  | '[' => some .openArray
  | ']' => some .closeArray
  | '\x7b' => some .openObject
  | '\x7d' => some .closeObject
  | ',' => some .comma
  | ':' => some .colon
  | _ => none

def word? (letters : List Char) : Option Token :=
  if letters = "null".toList then some .null
  else if letters = "true".toList then some (.boolean true)
  else if letters = "false".toList then some (.boolean false)
  else none

/-- Characters that can stand in a number. -/
def isNumberChar (c : Char) : Bool :=
  c.isDigit || c = '-' || c = '+' || c = '.' || c = 'e' || c = 'E'

/-- One digit or more. -/
def isDigits (cs : List Char) : Bool := !cs.isEmpty && cs.all Char.isDigit

/-- Nothing, or a letter, a sign that may be left out, and digits. -/
def isExponent : List Char → Bool
  | [] => true
  | c :: rest =>
    (c = 'e' || c = 'E') &&
      match rest with
      | '+' :: digits => isDigits digits
      | '-' :: digits => isDigits digits
      | digits => isDigits digits

/-- A point and digits, which may be left out, and an exponent. -/
def isFraction : List Char → Bool
  | '.' :: rest => isDigits (rest.takeWhile Char.isDigit) && isExponent (rest.dropWhile Char.isDigit)
  | rest => isExponent rest

/-- Digits without a zero in front of others, and a fraction. -/
def isMagnitude (cs : List Char) : Bool :=
  let whole := cs.takeWhile Char.isDigit
  isDigits whole && (whole.length = 1 || whole.head? ≠ some '0') &&
    isFraction (cs.dropWhile Char.isDigit)

/-- Whether the characters are the literal of one number. -/
def isNumber : List Char → Bool
  | '-' :: rest => isMagnitude rest
  | rest => isMagnitude rest

/-- The value of a literal that has digits only. -/
def natural? (literal : List Char) : Option Nat :=
  if isDigits literal then
    some (literal.foldl (fun value c => 10 * value + (c.toNat - '0'.toNat)) 0)
  else none

/-- What one character or one escape of a string stands for. -/
inductive StringPiece where
  | char (c : Char)
  /-- A UTF-16 code unit. -/
  | unit (code : Nat)
  deriving DecidableEq, Repr

/-- Escapes of one letter. -/
def escape? : Char → Option Char
  | '"' => some '"'
  | '\\' => some '\\'
  | '/' => some '/'
  | 'b' => some '\x08'
  | 'f' => some '\x0c'
  | 'n' => some '\n'
  | 'r' => some '\r'
  | 't' => some '\t'
  | _ => none

def hexUnit? (a b c d : Char) : Option Nat := do
  let a ← hexValue? a
  let b ← hexValue? b
  let c ← hexValue? c
  let d ← hexValue? d
  return 4096 * a + 256 * b + 16 * c + d

/-- Reads a string up to its closing quote, behind the pieces in `earlier`, the latest first. -/
def scanString (earlier : List StringPiece) : List Char → Option (List StringPiece × List Char)
  | [] => none
  | '"' :: rest => some (earlier.reverse, rest)
  | '\\' :: 'u' :: a :: b :: c :: d :: rest =>
    match hexUnit? a b c d with
    | some code => scanString (.unit code :: earlier) rest
    | none => none
  | '\\' :: c :: rest =>
    match escape? c with
    | some e => scanString (.char e :: earlier) rest
    | none => none
  | c :: rest => if c.toNat < 32 then none else scanString (.char c :: earlier) rest

theorem length_scanString (earlier : List StringPiece) (cs : List Char) :
    ∀ pieces rest, scanString earlier cs = some (pieces, rest) → rest.length < cs.length := by
  fun_induction scanString earlier cs with
  | case1 => simp
  | case2 => simp
  | case3 earlier a b c d rest code _ ih =>
    intro pieces left h
    have := ih pieces left h
    simp only [List.length_cons]
    omega
  | case4 => simp
  | case5 earlier c rest e _ _ ih =>
    intro pieces left h
    have := ih pieces left h
    simp only [List.length_cons]
    omega
  | case6 => simp
  | case7 => simp
  | case8 earlier c rest _ _ _ _ ih =>
    intro pieces left h
    have := ih pieces left h
    simp only [List.length_cons]
    omega

def isHighSurrogate (code : Nat) : Bool := 0xd800 ≤ code && code < 0xdc00

def isLowSurrogate (code : Nat) : Bool := 0xdc00 ≤ code && code < 0xe000

/-- The text of a string, if its surrogates come in pairs. -/
def pieceText : List StringPiece → Option (List Char)
  | [] => some []
  | .char c :: rest => (pieceText rest).map (c :: ·)
  | .unit high :: .unit low :: rest =>
    if isHighSurrogate high then
      if isLowSurrogate low then
        (pieceText rest).map
          (Char.ofNat (0x10000 + 1024 * (high - 0xd800) + (low - 0xdc00)) :: ·)
      else none
    else if isLowSurrogate high then none
    else (pieceText (.unit low :: rest)).map (Char.ofNat high :: ·)
  | .unit code :: rest =>
    if isHighSurrogate code || isLowSurrogate code then none
    else (pieceText rest).map (Char.ofNat code :: ·)

/-- The tokens of a text, or nothing if it holds anything else. -/
def tokens? : List Char → Option (List Token)
  | [] => some []
  | c :: rest =>
    if isBlank c then tokens? rest
    else
      match punctuation? c with
      | some token => (tokens? rest).map (token :: ·)
      | none =>
        if c = '"' then
          match h : scanString [] rest with
          | none => none
          | some (pieces, rest') =>
            have := length_scanString [] rest pieces rest' h
            (tokens? rest').map (.string ((pieceText pieces).map String.ofList) :: ·)
        else if c.isAlpha then
          have := (List.dropWhile_suffix (l := rest) Char.isAlpha).length_le
          match word? (c :: rest.takeWhile Char.isAlpha) with
          | none => none
          | some token => (tokens? (rest.dropWhile Char.isAlpha)).map (token :: ·)
        else
          have := (List.dropWhile_suffix (l := rest) isNumberChar).length_le
          let literal := c :: rest.takeWhile isNumberChar
          if isNumber literal then
            (tokens? (rest.dropWhile isNumberChar)).map (.number literal :: ·)
          else none
termination_by cs => cs.length

end Json

inductive Json where
  | null
  | boolean (value : Bool)
  | number (literal : List Char)
  | string (text : Option String)
  | array (elements : List Json)
  | object (members : List (Option String × Json))

namespace Json

/-- The place in the open containers that the next value fills. What a container holds so far is
kept the latest first. -/
inductive Place where
  | top
  | element (earlier : List Json) (outer : Place)
  | member (earlier : List (Option String × Json)) (name : Option String) (outer : Place)

/-- What is expected next. -/
inductive Reader where
  | expectValue (place : Place)
  /-- An array was opened: a value, or its end. -/
  | firstElement (outer : Place)
  /-- After an element. -/
  | nextElement (earlier : List Json) (outer : Place)
  /-- An object was opened: a name, or its end. -/
  | firstMember (outer : Place)
  /-- After a comma in an object. -/
  | expectName (earlier : List (Option String × Json)) (outer : Place)
  | expectColon (earlier : List (Option String × Json)) (name : Option String) (outer : Place)
  /-- After a member. -/
  | nextMember (earlier : List (Option String × Json)) (outer : Place)
  | finished (value : Json)

namespace Reader

/-- Puts a complete value in its place. -/
def fill (value : Json) : Place → Reader
  | .top => .finished value
  | .element earlier outer => .nextElement (value :: earlier) outer
  | .member earlier name outer => .nextMember ((name, value) :: earlier) outer

/-- Begins the value at `place`. -/
def begin (place : Place) : Token → Option Reader
  | .null => some (fill .null place)
  | .boolean value => some (fill (.boolean value) place)
  | .number literal => some (fill (.number literal) place)
  | .string text => some (fill (.string text) place)
  | .openArray => some (.firstElement place)
  | .openObject => some (.firstMember place)
  | _ => none

def step : Reader → Token → Option Reader
  | .expectValue place, token => begin place token
  | .firstElement outer, .closeArray => some (fill (.array []) outer)
  | .firstElement outer, token => begin (.element [] outer) token
  | .nextElement earlier outer, .closeArray => some (fill (.array earlier.reverse) outer)
  | .nextElement earlier outer, .comma => some (.expectValue (.element earlier outer))
  | .firstMember outer, .closeObject => some (fill (.object []) outer)
  | .firstMember outer, .string text => some (.expectColon [] text outer)
  | .expectName earlier outer, .string text => some (.expectColon earlier text outer)
  | .expectColon earlier name outer, .colon => some (.expectValue (.member earlier name outer))
  | .nextMember earlier outer, .closeObject => some (fill (.object earlier.reverse) outer)
  | .nextMember earlier outer, .comma => some (.expectName earlier outer)
  | _, _ => none

/-- Takes all tokens. -/
def run : Reader → List Token → Option Reader
  | reader, [] => some reader
  | reader, token :: tokens =>
    match reader.step token with
    | some reader => run reader tokens
    | none => none

end Reader

/-- The value that the tokens spell, all of them. -/
def ofTokens? (tokens : List Token) : Option Json :=
  match (Reader.expectValue .top).run tokens with
  | some (.finished value) => some value
  | _ => none

/-- The value of a text, with nothing but blanks around it. -/
def parse? (text : String) : Option Json := (tokens? text.toList).bind ofTokens?

end Json

end Columnar
