-- The scanner walks through the source text and collects tokens. It knows the
-- place that it has reached, and the place where the token it works on began.
import HanScript.Lexeme

namespace HanScript

/-! ## Places -/

/-- A place in a text: how many characters stand before it, and its line and column,
which both count from one. -/
structure Place where
  offset : Nat := 0
  line : Nat := 1
  column : Nat := 1
deriving DecidableEq, Inhabited

namespace Place

/-- The place after a character. Only a line feed begins a line. -/
def step (p : Place) (c : Char) : Place :=
  if c = '\n' then ⟨p.offset + 1, p.line + 1, 1⟩ else ⟨p.offset + 1, p.line, p.column + 1⟩

/-- The place after some characters. -/
def after (p : Place) (cs : List Char) : Place := cs.foldl step p

/-- The span from one place to another. -/
def spanTo (p q : Place) : Span := ⟨p.line, p.column, p.offset, q.offset⟩

end Place

/-! ## The scanner -/

structure Scanner where
  /-- What is behind, the latest character first. -/
  behind : List Char
  ahead : List Char
  place : Place
  /-- Where the token in work began. -/
  origin : Place
  /-- The tokens, the latest first. -/
  collected : List Token
deriving DecidableEq, Inhabited

namespace Scanner

def ofSource (source : String) : Scanner := ⟨[], source.toList, {}, {}, []⟩

def tokens (s : Scanner) : List Token := s.collected.reverse

/-- The whole source text. -/
def text (s : Scanner) : List Char := s.behind.reverse ++ s.ahead

/-- Moves on by `n` characters, or to the end. -/
def advance (s : Scanner) (n : Nat) : Scanner :=
  { s with
    behind := (s.ahead.take n).reverse ++ s.behind
    ahead := s.ahead.drop n
    place := s.place.after (s.ahead.take n) }

/-- What an offset from here leads to: nothing after the end, and an error too far
before the start. A place before the start counts from the end. -/
inductive Glance where
  | char (c : Char)
  | pastEnd
  | beforeStart
deriving DecidableEq

/-- Looks at the character `offset` characters from here. -/
def glance (s : Scanner) (offset : Int) : Glance :=
  let target := s.behind.length + offset
  let index := if target < 0 then target + s.text.length else target
  if index < 0 then .beforeStart
  else match s.text[index.toNat]? with
    | some c => .char c
    | none => .pastEnd

/-- How far `count` characters reach. A count that leads before the start stands for the
place as far from the end; one that leads back from here reaches no character. -/
def reach (s : Scanner) (count : Int) : Nat :=
  let target := s.behind.length + count
  let stop := if target < 0 then target + s.text.length else target
  (stop - s.behind.length).toNat

/-- Takes `count` characters. -/
def take (s : Scanner) (count : Int) : String × Scanner :=
  (String.ofList (s.ahead.take (s.reach count)), s.advance (s.reach count))

/-- Whether `text` comes next. -/
def startsWith (s : Scanner) (text : String) : Bool := text.toList.isPrefixOf s.ahead

/-- Begins a token here. -/
def mark (s : Scanner) : Scanner := { s with origin := s.place }

/-- Ends the token in work here. -/
def add (s : Scanner) (kind : TokenKind) (value : String) : Scanner :=
  { s with collected := ⟨kind, value, s.origin.spanTo s.place⟩ :: s.collected }

/-- Moves past a lexeme and ends the token in work with it. -/
def accept (s : Scanner) (l : Lexeme) : Scanner := (s.advance l.length).add l.kind l.value

/-- Ends the token in work with a quoted text. Where no quote opens, the next character
is passed over and there is no token. -/
def scanQuoted (s : Scanner) : Bool × Scanner :=
  match Lexeme.quoted? s.ahead with
  | some l => (true, s.accept l)
  | none => (false, s.advance 1)

def scanNumeral (s : Scanner) : Scanner := s.accept (Lexeme.numeral s.ahead)

def scanWord (s : Scanner) : Scanner := s.accept (Lexeme.word s.ahead)

/-- Ends the token in work with a sign, if there is one. -/
def scanSign (s : Scanner) : Bool × Scanner :=
  match Lexeme.sign? s.ahead with
  | some l => (true, s.accept l)
  | none => (false, s)

/-- Passes one gap, or takes one token. -/
def scan (s : Scanner) : Scanner :=
  match Lexeme.gap? s.ahead with
  | some n => s.advance n
  | none => s.mark.accept (Lexeme.next s.ahead)

/-- Scans at most `n` times, and never at the end of the text. -/
def scanTimes : Nat → Scanner → Scanner
  | 0, s => s
  | n + 1, s => if s.ahead.isEmpty then s else scanTimes n s.scan

/-- Scans to the end of the text and adds the end token. Every scan takes up at least one
character, so there are no more scans than characters. -/
def scanAll (s : Scanner) : Scanner := (scanTimes s.ahead.length s).mark.add .eof ""

end Scanner

/-- The tokens of a source text. The last one is the end token. -/
def tokenize (source : String) : List Token := (Scanner.ofSource source).scanAll.tokens

end HanScript
