-- The characters that the source text is made of: blanks, digits, and the
-- characters of words.

namespace HanScript.Text

/-- The code points of the blanks, as first and last. -/
def blanks : List (Nat × Nat) :=
  [(0x9, 0xD), (0x1C, 0x20), (0x85, 0x85), (0xA0, 0xA0), (0x1680, 0x1680), (0x2000, 0x200A),
   (0x2028, 0x2029), (0x202F, 0x202F), (0x205F, 0x205F), (0x3000, 0x3000)]

/-- A blank separates words and means nothing else. -/
def isBlank (c : Char) : Bool := blanks.any fun r => r.1 ≤ c.toNat && c.toNat ≤ r.2

def isDigit (c : Char) : Bool := '0' ≤ c && c ≤ '9'

def isBinaryDigit (c : Char) : Bool := c = '0' || c = '1'

def isOctalDigit (c : Char) : Bool := '0' ≤ c && c ≤ '7'

def isHexDigit (c : Char) : Bool := isDigit c || ('a' ≤ c && c ≤ 'f') || ('A' ≤ c && c ≤ 'F')

/-- A Han character of the main block. -/
def isHan (c : Char) : Bool := 0x4E00 ≤ c.toNat && c.toNat ≤ 0x9FFF

def isLatin (c : Char) : Bool := ('a' ≤ c && c ≤ 'z') || ('A' ≤ c && c ≤ 'Z')

/-- A character that a word can begin with. -/
def isWordStart (c : Char) : Bool := isLatin c || c = '_' || isHan c

/-- A character that a word can go on with. -/
def isWordPart (c : Char) : Bool := isWordStart c || isDigit c

end HanScript.Text
