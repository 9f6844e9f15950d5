-- The kinds of tokens, in their order, and the name that messages give to each.
-- Every kind stands in the list of all kinds.

namespace HanScript

/-- What a token is. The names that end in `Word` are those of the reserved words. -/
inductive TokenKind where
  -- Literals and names
  | number | string | template | trueWord | falseWord | nullWord | undefinedWord | identifier
  -- Keywords
  | functionWord | returnWord | ifWord | elseWord | elseIfWord | forWord | whileWord | inWord
  | letWord | constWord | importWord | exportWord | defaultWord | fromWord | componentWord
  | asyncWord | awaitWord | tryWord | catchWord | finallyWord | throwWord | classWord
  | extendsWord | newWord | thisWord | superWord | staticWord | breakWord | continueWord
  -- Operators
  | plus | minus | times | divide | modulo | power | equal | strictEqual | notEqual
  | strictNotEqual | greater | less | greaterEqual | lessEqual | logicalAnd | logicalOr | logicalNot
  | bitAnd | bitOr | bitXor | bitNot | assign | plusAssign | minusAssign | timesAssign
  | divideAssign | moduloAssign | arrow | question | colon | optionalChain | nullish
  -- Punctuation
  | leftParen | rightParen | leftBrace | rightBrace | leftBracket | rightBracket | semicolon
  | comma | dot | spread
  -- Markup
  | closeTag | selfClose
  -- The end, and what is none of these
  | eof | unrecognized
deriving DecidableEq, Inhabited

namespace TokenKind

/-- The name that messages use. -/
def name : TokenKind → String
  | number => "NUMBER"
  | string => "STRING"
  | template => "TEMPLATE_STRING"
  | trueWord => "TRUE"
  | falseWord => "FALSE"
  | nullWord => "NULL"
  | undefinedWord => "UNDEFINED"
  | identifier => "IDENTIFIER"
  | functionWord => "FUNCTION"
  | returnWord => "RETURN"
  | ifWord => "IF"
  | elseWord => "ELSE"
  | elseIfWord => "ELSE_IF"
  | forWord => "FOR"
  | whileWord => "WHILE"
  | inWord => "IN"
  | letWord => "LET"
  | constWord => "CONST"
  | importWord => "IMPORT"
  | exportWord => "EXPORT"
  | defaultWord => "DEFAULT"
  | fromWord => "FROM"
  | componentWord => "COMPONENT"
  | asyncWord => "ASYNC"
  | awaitWord => "AWAIT"
  | tryWord => "TRY"
  | catchWord => "CATCH"
  | finallyWord => "FINALLY"
  | throwWord => "THROW"
  | classWord => "CLASS"
  | extendsWord => "EXTENDS"
  | newWord => "NEW"
  | thisWord => "THIS"
  | superWord => "SUPER"
  | staticWord => "STATIC"
  | breakWord => "BREAK"
  | continueWord => "CONTINUE"
  | plus => "PLUS"
  | minus => "MINUS"
  | times => "MULTIPLY"
  | divide => "DIVIDE"
  | modulo => "MODULO"
  | power => "POWER"
  | equal => "EQUALS"
  | strictEqual => "STRICT_EQUALS"
  | notEqual => "NOT_EQUALS"
  | strictNotEqual => "STRICT_NOT_EQUALS"
  | greater => "GREATER_THAN"
  | less => "LESS_THAN"
  | greaterEqual => "GREATER_EQUAL"
  | lessEqual => "LESS_EQUAL"
  | logicalAnd => "LOGICAL_AND"
  | logicalOr => "LOGICAL_OR"
  | logicalNot => "LOGICAL_NOT"
  | bitAnd => "BITWISE_AND"
  | bitOr => "BITWISE_OR"
  | bitXor => "BITWISE_XOR"
  | bitNot => "BITWISE_NOT"
  | assign => "ASSIGN"
  | plusAssign => "PLUS_ASSIGN"
  | minusAssign => "MINUS_ASSIGN"
  | timesAssign => "MULTIPLY_ASSIGN"
  | divideAssign => "DIVIDE_ASSIGN"
  | moduloAssign => "MODULO_ASSIGN"
  | arrow => "ARROW"
  | question => "QUESTION"
  | colon => "COLON"
  | optionalChain => "OPTIONAL_CHAIN"
  | nullish => "NULLISH_COALESCE"
  | leftParen => "LPAREN"
  | rightParen => "RPAREN"
  | leftBrace => "LBRACE"
  | rightBrace => "RBRACE"
  | leftBracket => "LBRACKET"
  | rightBracket => "RBRACKET"
  | semicolon => "SEMICOLON"
  | comma => "COMMA"
  | dot => "DOT"
  | spread => "SPREAD"
  | closeTag => "JSX_SLASH"
  | selfClose => "JSX_SELF_CLOSING"
  | eof => "EOF"
  | unrecognized => "UNRECOGNIZED"

/-- All kinds, in order. -/
def all : List TokenKind :=
  [number, string, template, trueWord, falseWord, nullWord, undefinedWord, identifier,
   functionWord, returnWord, ifWord, elseWord, elseIfWord, forWord, whileWord, inWord, letWord,
   constWord, importWord, exportWord, defaultWord, fromWord, componentWord, asyncWord,
   awaitWord, tryWord, catchWord, finallyWord, throwWord, classWord, extendsWord, newWord,
   thisWord, superWord, staticWord, breakWord, continueWord, plus, minus, times, divide, modulo,
   power, equal, strictEqual, notEqual, strictNotEqual, greater, less, greaterEqual, lessEqual,
   logicalAnd, logicalOr, logicalNot, bitAnd, bitOr, bitXor, bitNot, assign, plusAssign, minusAssign,
   timesAssign, divideAssign, moduloAssign, arrow, question, colon, optionalChain, nullish,
   leftParen, rightParen, leftBrace, rightBrace, leftBracket, rightBracket, semicolon, comma,
   dot, spread, closeTag, selfClose, eof, unrecognized]

/-- The kind with a given name. -/
def ofName? (name : String) : Option TokenKind := all.find? fun k => k.name == name

theorem mem_all (k : TokenKind) : k ∈ all := by cases k <;> decide

end TokenKind

end HanScript
