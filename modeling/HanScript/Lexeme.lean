-- What the source text begins with: a gap (a blank or a comment), or a
-- lexeme, which is a quoted text, a numeral, a word, a sign, or a character
-- that is none of these. Each is found by looking at the characters ahead only.
import HanScript.Text.Class
import HanScript.Token
import HanScript.Vocabulary

namespace HanScript

open Text Vocabulary

/-- The kind and the value of a token, and how many characters it takes up. -/
structure Lexeme where
  kind : TokenKind
  value : String
  length : Nat
deriving DecidableEq, Inhabited

namespace Lexeme

/-! ## Gaps -/

/-- How far a block comment goes on: through its end mark, or to the end of the text. -/
def blockRest : List Char → Nat
  | [] => 0
  | '*' :: '/' :: _ => 2
  | _ :: cs => blockRest cs + 1

/-- The length of the blank or the comment that the text begins with. -/
def gap? : List Char → Option Nat
  | [] => none
  | '/' :: '/' :: cs => some (2 + (cs.takeWhile (· != '\n')).length)
  | '/' :: '*' :: cs => some (2 + blockRest cs)
  | c :: _ => if isBlank c then some 1 else none

/-! ## Quoted texts -/

/-- The characters that a quoted text stands for, from after its opening quote, and how
many characters it takes up through its closing quote. A text that nothing closes goes on
to the end. -/
def quotedRest (closing : Char) : List Char → List Char × Nat
  | [] => ([], 0)
  | [c] => if c = closing then ([], 1) else if c = '\\' then ([], 1) else ([c], 1)
  | c :: d :: cs =>
    if c = closing then ([], 1)
    else if c = '\\' then
      let (value, n) := quotedRest closing cs
      (unescaped d :: value, n + 2)
    else
      let (value, n) := quotedRest closing (d :: cs)
      (c :: value, n + 1)

/-- The quoted text at an opening quote. -/
def quoted? : List Char → Option Lexeme
  | [] => none
  | c :: cs => (closing? c).map fun closing =>
    let (value, n) := quotedRest closing cs
    ⟨if c = templateQuote then .template else .string, String.ofList value, n + 1⟩

/-! ## Numerals -/

def digitCount (cs : List Char) : Nat := (cs.takeWhile isDigit).length

/-- The digits that may follow the letter of a base. -/
def baseDigit? : Char → Option (Char → Bool)
  | 'x' | 'X' => some isHexDigit
  | 'b' | 'B' => some isBinaryDigit
  | 'o' | 'O' => some isOctalDigit
  | _ => none

/-- The length of a point with digits after it. A point that no digit follows is left
to the next token. -/
def fractionLength : List Char → Nat
  | '.' :: cs => if digitCount cs = 0 then 0 else digitCount cs + 1
  | _ => 0

def signLength : List Char → Nat
  | '+' :: _ => 1
  | '-' :: _ => 1
  | _ => 0

/-- The length of an exponent: its letter, its sign and its digits, of which the last
two may be missing. -/
def exponentLength : List Char → Nat
  | c :: cs =>
    if c = 'e' ∨ c = 'E' then 1 + signLength cs + digitCount (cs.drop (signLength cs)) else 0
  | [] => 0

/-- The length of a decimal numeral without its first character. -/
def decimalLength (cs : List Char) : Nat :=
  let whole := digitCount cs
  let fraction := fractionLength (cs.drop whole)
  let exponent := exponentLength (cs.drop (whole + fraction))
  whole + fraction + exponent

/-- The length of the numeral at the head of the text. The first character is taken
whatever it is. -/
def numeralLength : List Char → Nat
  | [] => 0
  | [_] => 1
  | c :: d :: cs =>
    match if c = '0' then baseDigit? d else none with
    | some ok => 2 + (cs.takeWhile ok).length
    | none => 1 + decimalLength (d :: cs)

def numeral (cs : List Char) : Lexeme :=
  ⟨.number, String.ofList (cs.take (numeralLength cs)), numeralLength cs⟩

/-! ## Words and signs -/

/-- The word at the head of the text. It is empty if no word begins there. -/
def word (cs : List Char) : Lexeme :=
  let text := cs.takeWhile isWordPart
  ⟨wordKind (String.ofList text), String.ofList text, text.length⟩

/-- The longest sign at the head of the text, read through the table of punctuation.
A `<` and a `/` do not begin a closing tag before a `>`: there `/>` is the second sign. -/
def sign? (cs : List Char) : Option Lexeme :=
  let window := (cs.take 3).map normalized
  let three := String.ofList window
  let two := String.ofList (window.take 2)
  let one := String.ofList (window.take 1)
  match threeSigns.lookup three with
  | some kind => some ⟨kind, three, 3⟩
  | none =>
    if two = Vocabulary.closeTag ∧ window[2]? ≠ some '>' then some ⟨.closeTag, two, 2⟩
    else if two = Vocabulary.selfClose then some ⟨.selfClose, two, 2⟩
    else
      match twoSigns.lookup two with
      | some kind => some ⟨kind, two, 2⟩
      | none => (oneSign.lookup one).map fun kind => ⟨kind, one, 1⟩

/-! ## The next lexeme -/

/-- The next character on its own, which nothing else explains. -/
def stray (cs : List Char) : Lexeme :=
  ⟨.unrecognized, String.ofList (cs.take 1), (cs.take 1).length⟩

/-- The lexeme at the head of a text that does not begin with a gap. -/
def next (cs : List Char) : Lexeme :=
  match quoted? cs with
  | some l => l
  | none =>
    if cs.head?.any isDigit then numeral cs
    else if cs.head?.any isWordStart then word cs
    else (sign? cs).getD (stray cs)

end Lexeme

end HanScript
