-- The words and signs of the language: its keywords with their JavaScript
-- spelling, its literals, quotes, escapes, punctuation and operators.
import HanScript.Token.Kind

namespace HanScript.Vocabulary

/-! ## Words -/

/-- A keyword, the kind of its token, and its spelling in JavaScript. -/
structure Keyword where
  word : String
  kind : TokenKind
  script : String
deriving DecidableEq

def keywords : List Keyword :=
  [⟨"函数", .functionWord, "function"⟩, ⟨"返回", .returnWord, "return"⟩,
   ⟨"如果", .ifWord, "if"⟩, ⟨"否则", .elseWord, "else"⟩, ⟨"否则如果", .elseIfWord, "else if"⟩,
   ⟨"对于", .forWord, "for"⟩, ⟨"当", .whileWord, "while"⟩, ⟨"属于", .inWord, "in"⟩,
   ⟨"令", .letWord, "let"⟩, ⟨"常量", .constWord, "const"⟩, ⟨"导入", .importWord, "import"⟩,
   ⟨"导出", .exportWord, "export"⟩, ⟨"默认", .defaultWord, "default"⟩,
   ⟨"从", .fromWord, "from"⟩, ⟨"组件", .componentWord, "function"⟩,
   ⟨"异步", .asyncWord, "async"⟩, ⟨"等待", .awaitWord, "await"⟩, ⟨"尝试", .tryWord, "try"⟩,
   ⟨"捕获", .catchWord, "catch"⟩, ⟨"最后", .finallyWord, "finally"⟩,
   ⟨"抛出", .throwWord, "throw"⟩, ⟨"类", .classWord, "class"⟩,
   ⟨"扩展", .extendsWord, "extends"⟩, ⟨"新建", .newWord, "new"⟩, ⟨"这个", .thisWord, "this"⟩,
   ⟨"超级", .superWord, "super"⟩, ⟨"静态", .staticWord, "static"⟩, ⟨"破", .breakWord, "break"⟩,
   ⟨"续", .continueWord, "continue"⟩, ⟨"真", .trueWord, "true"⟩, ⟨"假", .falseWord, "false"⟩,
   ⟨"空", .nullWord, "null"⟩, ⟨"未定义", .undefinedWord, "undefined"⟩]

/-- Literals that keep their Latin spelling. -/
def literals : List (String × TokenKind) :=
  [("true", .trueWord), ("True", .trueWord), ("false", .falseWord), ("False", .falseWord),
   ("null", .nullWord), ("Null", .nullWord), ("undefined", .undefinedWord),
   ("Undefined", .undefinedWord)]

def keyword? (word : String) : Option Keyword := keywords.find? fun k => k.word == word

/-- The kind of a word: a keyword, a literal, or else a name. -/
def wordKind (word : String) : TokenKind :=
  match keyword? word with
  | some k => k.kind
  | none => (literals.lookup word).getD .identifier

/-! ## Quotes -/

/-- The opening quotes, each with the quote that closes it. -/
def quotes : List (Char × Char) :=
  [('"', '"'), ('\x27', '\x27'), ('\x60', '\x60'), ('“', '”'), ('”', '”'), ('‘', '’'),
   ('’', '’')]

/-- The quote that opens and closes a template. -/
def templateQuote : Char := '\x60'

/-- What stands for what after a backslash. -/
def escapes : List (Char × Char) :=
  [('n', '\n'), ('t', '\t'), ('r', '\r'), ('\\', '\\'), ('"', '"'), ('\x27', '\x27'),
   ('\x60', '\x60')]

def closing? (c : Char) : Option Char := quotes.lookup c

/-- What a character stands for after a backslash: itself, unless the table has it. -/
def unescaped (c : Char) : Char := (escapes.lookup c).getD c

/-! ## Signs -/

/-- Chinese punctuation, with the sign that each mark is read as. -/
def punctuation : List (Char × Char) :=
  [('。', '.'), ('，', ','), ('；', ';'), ('：', ':'), ('（', '('), ('）', ')'), ('【', '['),
   ('】', ']'), ('｛', '\x7b'), ('｝', '\x7d'), ('！', '!'), ('？', '?'), ('·', ','),
   ('、', ',')]

/-- The sign that a character is read as. -/
def normalized (c : Char) : Char := (punctuation.lookup c).getD c

def threeSigns : List (String × TokenKind) :=
  [("...", .spread), ("===", .strictEqual), ("!==", .strictNotEqual)]

def twoSigns : List (String × TokenKind) :=
  [("==", .equal), ("!=", .notEqual), ("<=", .lessEqual), (">=", .greaterEqual),
   ("&&", .logicalAnd), ("||", .logicalOr), ("+=", .plusAssign), ("-=", .minusAssign),
   ("*=", .timesAssign), ("/=", .divideAssign), ("%=", .moduloAssign), ("=>", .arrow),
   ("**", .power), ("?.", .optionalChain), ("??", .nullish)]

def oneSign : List (String × TokenKind) :=
  [("+", .plus), ("-", .minus), ("*", .times), ("/", .divide), ("%", .modulo),
   ("!", .logicalNot), ("&", .bitAnd), ("|", .bitOr), ("^", .bitXor), ("~", .bitNot),
   ("=", .assign), ("?", .question), (":", .colon), ("(", .leftParen), (")", .rightParen),
   ("\x7b", .leftBrace), ("\x7d", .rightBrace), ("[", .leftBracket), ("]", .rightBracket),
   (";", .semicolon), (",", .comma), (".", .dot), ("<", .less), (">", .greater)]

/-- The signs that begin a closing tag. -/
def closeTag : String := "</"

/-- The signs that end a tag without content. -/
def selfClose : String := "/>"

end HanScript.Vocabulary
