-- The grammar of expressions and of markup, as a relation between lists of
-- tokens and bare trees. It says what may stand where, and nothing about how
-- to find it.
import HanScript.Proofs.Grammar.Lists

namespace HanScript.Grammar

/-! ## Levels -/

/-- How tightly an expression binds, from the loosest to the tightest. -/
inductive Level where
  | assignment | conditional | logicalOr | logicalAnd | equality | relational | additive
  | multiplicative | power | unary | suffixed | primary
deriving DecidableEq

namespace Level

/-- The level that binds just tighter. -/
def tighter? : Level → Option Level
  | assignment => some conditional
  | conditional => some logicalOr
  | logicalOr => some logicalAnd
  | logicalAnd => some equality
  | equality => some relational
  | relational => some additive
  | additive => some multiplicative
  | multiplicative => some power
  | power => some unary
  | unary => some suffixed
  | suffixed => some primary
  | primary => none

/-- The operators that bind to the left at a level. -/
def operators : Level → List TokenKind
  | logicalOr => [.logicalOr]
  | logicalAnd => [.logicalAnd]
  | equality => [.equal, .notEqual, .strictEqual, .strictNotEqual]
  | relational => [.greater, .less, .greaterEqual, .lessEqual]
  | additive => [.plus, .minus]
  | multiplicative => [.times, .divide, .modulo]
  | _ => []

end Level

def assignmentOperators : List TokenKind :=
  [.assign, .plusAssign, .minusAssign, .timesAssign, .divideAssign, .moduloAssign]

def unaryOperators : List TokenKind := [.minus, .plus, .logicalNot]

/-! ## Expressions -/

/-- The name of a tag: words with points between them. -/
inductive TagName : List Terminal → Node → Prop where
  | word {x} : TagName [⟨.identifier, x⟩] (.tagName {} x)
  | member {w n x y} : TagName w n →
    TagName (w ++ [⟨.dot, x⟩, ⟨.identifier, y⟩]) (.tagMember {} n (.tagName {} y))

/-- What the rules of expressions and of markup tell apart. -/
inductive Form where
  | expression (level : Level)
  | property
  | container
  | tagAttribute
  | child
  | markup
deriving DecidableEq

/-- The tokens form the tree. -/
inductive Phrase : Form → List Terminal → Node → Prop where
  -- Operators
  | tighter {l m w n} : l.tighter? = some m → Phrase (.expression m) w n → Phrase (.expression l) w n
  | assignment {w v a b op} : Phrase (.expression .logicalOr) w a → op.kind ∈ assignmentOperators →
    Phrase (.expression .assignment) v b →
    Phrase (.expression .assignment) (w ++ op :: v) (.assignment {} op.value a b)
  | conditional {w v u a b c x y} : Phrase (.expression .logicalOr) w a →
    Phrase (.expression .assignment) v b → Phrase (.expression .assignment) u c →
    Phrase (.expression .conditional) (w ++ ⟨.question, x⟩ :: v ++ ⟨.colon, y⟩ :: u)
      (.conditional {} a b c)
  | binary {l m w v a b op} : l.tighter? = some m → Phrase (.expression l) w a →
    op.kind ∈ l.operators → Phrase (.expression m) v b →
    Phrase (.expression l) (w ++ op :: v) (.binary {} op.value a b)
  | power {w v a b x} : Phrase (.expression .unary) w a → Phrase (.expression .power) v b →
    Phrase (.expression .power) (w ++ ⟨.power, x⟩ :: v) (.binary {} x a b)
  | unary {op w a} : op.kind ∈ unaryOperators → Phrase (.expression .unary) w a →
    Phrase (.expression .unary) (op :: w) (.unary {} op.value a true)
  -- Calls and members
  | call {w v f as x y} : Phrase (.expression .suffixed) w f →
    SeparatedOrNone (Phrase (.expression .assignment)) v as →
    Phrase (.expression .suffixed) (w ++ ⟨.leftParen, x⟩ :: v ++ [⟨.rightParen, y⟩]) (.call {} f as)
  | member {w o x y} : Phrase (.expression .suffixed) w o →
    Phrase (.expression .suffixed) (w ++ [⟨.dot, x⟩, ⟨.identifier, y⟩])
      (.member {} o (.identifier {} y) false)
  | computed {w v o f x y} : Phrase (.expression .suffixed) w o →
    Phrase (.expression .assignment) v f →
    Phrase (.expression .suffixed) (w ++ ⟨.leftBracket, x⟩ :: v ++ [⟨.rightBracket, y⟩])
      (.member {} o f true)
  -- Atoms
  | number {x k} : Numeral.value? x = some k →
    Phrase (.expression .primary) [⟨.number, x⟩] (.literal {} (.number k) x false)
  | string {x} : Phrase (.expression .primary) [⟨.string, x⟩] (.literal {} (.text x) x false)
  | template {x} : Phrase (.expression .primary) [⟨.template, x⟩] (.literal {} (.text x) x true)
  | trueWord {x} :
    Phrase (.expression .primary) [⟨.trueWord, x⟩] (.literal {} (.truth true) x false)
  | falseWord {x} :
    Phrase (.expression .primary) [⟨.falseWord, x⟩] (.literal {} (.truth false) x false)
  | nullWord {x} : Phrase (.expression .primary) [⟨.nullWord, x⟩] (.literal {} .nothing x false)
  | undefinedWord {x} :
    Phrase (.expression .primary) [⟨.undefinedWord, x⟩] (.identifier {} "undefined")
  | name {x} : Phrase (.expression .primary) [⟨.identifier, x⟩] (.identifier {} x)
  | array {w ns x y} : Slotted (Phrase (.expression .assignment)) w ns →
    Phrase (.expression .primary) (⟨.leftBracket, x⟩ :: w ++ [⟨.rightBracket, y⟩]) (.array {} ns)
  | object {w ns x y} : Listed (Phrase .property) w ns →
    Phrase (.expression .primary) (⟨.leftBrace, x⟩ :: w ++ [⟨.rightBrace, y⟩]) (.object {} ns)
  | parenthesized {w n x y} : Phrase (.expression .assignment) w n →
    Phrase (.expression .primary) (⟨.leftParen, x⟩ :: w ++ [⟨.rightParen, y⟩]) n
  | element {w n} : Phrase .markup w n → Phrase (.expression .primary) w n
  -- Parts
  | property {w n x y} : Phrase (.expression .assignment) w n →
    Phrase .property (⟨.identifier, x⟩ :: ⟨.colon, y⟩ :: w) (.property {} (.identifier {} x) n)
  | container {w n x y} : Phrase (.expression .assignment) w n →
    Phrase .container (⟨.leftBrace, x⟩ :: w ++ [⟨.rightBrace, y⟩]) (.container {} n)
  | bareAttribute {x} :
    Phrase .tagAttribute [⟨.identifier, x⟩] (.tagAttribute {} (.tagName {} x) .absent)
  | textAttribute {x y z} : Phrase .tagAttribute [⟨.identifier, x⟩, ⟨.assign, y⟩, ⟨.string, z⟩]
    (.tagAttribute {} (.tagName {} x) (.literal {} (.text z) z false))
  | givenAttribute {w n x y} : Phrase .container w n →
    Phrase .tagAttribute (⟨.identifier, x⟩ :: ⟨.assign, y⟩ :: w) (.tagAttribute {} (.tagName {} x) n)
  -- Markup
  | wordChild {x} : Phrase .child [⟨.identifier, x⟩] (.markupText {} x)
  | textChild {x} : Phrase .child [⟨.string, x⟩] (.markupText {} x)
  | givenChild {w n} : Phrase .container w n → Phrase .child w n
  | nestedChild {w n} : Phrase .markup w n → Phrase .child w n
  | fragment {w ns x y p q} : Interspersed (Phrase .child) w ns →
    Phrase .markup (⟨.less, x⟩ :: ⟨.greater, y⟩ :: w ++ [⟨.less, p⟩, ⟨.selfClose, q⟩])
      (.fragment {} ns)
  | taggedFragment {w ns x y p q} : Interspersed (Phrase .child) w ns →
    Phrase .markup (⟨.less, x⟩ :: ⟨.greater, y⟩ :: w ++ [⟨.closeTag, p⟩, ⟨.greater, q⟩])
      (.fragment {} ns)
  | closedElement {w v n as x y} : TagName w n → Sequence (fun _ => Phrase .tagAttribute) .selfClose v as →
    Phrase .markup (⟨.less, x⟩ :: w ++ v ++ [⟨.selfClose, y⟩]) (.element {} n as [] true)
  | openElement {w v u t n m as ns x y p q} : TagName w n →
    Sequence (fun _ => Phrase .tagAttribute) .greater v as → Interspersed (Phrase .child) u ns →
    TagName t m →
    Phrase .markup
      (⟨.less, x⟩ :: w ++ v ++ ⟨.greater, y⟩ :: u ++ ⟨.closeTag, p⟩ :: t ++ [⟨.greater, q⟩])
      (.element {} n as ns false)

/-! ## Induction -/

/-- Induction over the rules. What holds of the items of a list is said of the list, with the
relation that the items are in strengthened by the induction hypothesis. -/
@[elab_as_elim]
theorem Phrase.induction {motive : ∀ {f w n}, Phrase f w n → Prop}
    (tighter : ∀ {l m : Level} {w n} (hl : l.tighter? = some m) (h : Phrase (.expression m) w n), motive h →
      motive (Phrase.tighter hl h))
    (assignment : ∀ {w v a b} {op : Terminal} (hw : Phrase (.expression .logicalOr) w a)
      (ho : op.kind ∈ assignmentOperators) (hv : Phrase (.expression .assignment) v b), motive hw →
      motive hv → motive (Phrase.assignment hw ho hv))
    (conditional : ∀ {w v u a b c x y} (hw : Phrase (.expression .logicalOr) w a)
      (hv : Phrase (.expression .assignment) v b) (hu : Phrase (.expression .assignment) u c),
      motive hw → motive hv → motive hu → motive (@Phrase.conditional w v u a b c x y hw hv hu))
    (binary : ∀ {l m : Level} {w v a b} {op : Terminal} (hl : l.tighter? = some m)
      (hw : Phrase (.expression l) w a)
      (ho : op.kind ∈ l.operators) (hv : Phrase (.expression m) v b), motive hw →
      motive hv → motive (Phrase.binary hl hw ho hv))
    (power : ∀ {w v a b x} (hw : Phrase (.expression .unary) w a)
      (hv : Phrase (.expression .power) v b), motive hw → motive hv →
      motive (@Phrase.power w v a b x hw hv))
    (unary : ∀ {op : Terminal} {w a} (ho : op.kind ∈ unaryOperators)
      (hw : Phrase (.expression .unary) w a), motive hw → motive (Phrase.unary ho hw))
    (call : ∀ {w v f as x y} (hw : Phrase (.expression .suffixed) w f)
      (hv : SeparatedOrNone (Phrase (.expression .assignment)) v as), motive hw →
      SeparatedOrNone (fun w n => ∃ h : Phrase (.expression .assignment) w n, motive h) v as →
      motive (@Phrase.call w v f as x y hw hv))
    (member : ∀ {w o x y} (hw : Phrase (.expression .suffixed) w o), motive hw →
      motive (@Phrase.member w o x y hw))
    (computed : ∀ {w v o f x y} (hw : Phrase (.expression .suffixed) w o)
      (hv : Phrase (.expression .assignment) v f), motive hw → motive hv →
      motive (@Phrase.computed w v o f x y hw hv))
    (number : ∀ {x k} (hk : Numeral.value? x = some k), motive (Phrase.number hk))
    (string : ∀ {x}, motive (@Phrase.string x))
    (template : ∀ {x}, motive (@Phrase.template x))
    (trueWord : ∀ {x}, motive (@Phrase.trueWord x))
    (falseWord : ∀ {x}, motive (@Phrase.falseWord x))
    (nullWord : ∀ {x}, motive (@Phrase.nullWord x))
    (undefinedWord : ∀ {x}, motive (@Phrase.undefinedWord x))
    (name : ∀ {x}, motive (@Phrase.name x))
    (array : ∀ {w ns x y} (hw : Slotted (Phrase (.expression .assignment)) w ns),
      Slotted (fun w n => ∃ h : Phrase (.expression .assignment) w n, motive h) w ns →
      motive (@Phrase.array w ns x y hw))
    (object : ∀ {w ns x y} (hw : Listed (Phrase .property) w ns),
      Listed (fun w n => ∃ h : Phrase .property w n, motive h) w ns →
      motive (@Phrase.object w ns x y hw))
    (parenthesized : ∀ {w n x y} (hw : Phrase (.expression .assignment) w n), motive hw →
      motive (@Phrase.parenthesized w n x y hw))
    (element : ∀ {w n} (hw : Phrase .markup w n), motive hw → motive (Phrase.element hw))
    (property : ∀ {w n x y} (hw : Phrase (.expression .assignment) w n), motive hw →
      motive (@Phrase.property w n x y hw))
    (container : ∀ {w n x y} (hw : Phrase (.expression .assignment) w n), motive hw →
      motive (@Phrase.container w n x y hw))
    (bareAttribute : ∀ {x}, motive (@Phrase.bareAttribute x))
    (textAttribute : ∀ {x y z}, motive (@Phrase.textAttribute x y z))
    (givenAttribute : ∀ {w n x y} (hw : Phrase .container w n), motive hw →
      motive (@Phrase.givenAttribute w n x y hw))
    (wordChild : ∀ {x}, motive (@Phrase.wordChild x))
    (textChild : ∀ {x}, motive (@Phrase.textChild x))
    (givenChild : ∀ {w n} (hw : Phrase .container w n), motive hw → motive (Phrase.givenChild hw))
    (nestedChild : ∀ {w n} (hw : Phrase .markup w n), motive hw → motive (Phrase.nestedChild hw))
    (fragment : ∀ {w ns x y p q} (hw : Interspersed (Phrase .child) w ns),
      Interspersed (fun w n => ∃ h : Phrase .child w n, motive h) w ns →
      motive (@Phrase.fragment w ns x y p q hw))
    (taggedFragment : ∀ {w ns x y p q} (hw : Interspersed (Phrase .child) w ns),
      Interspersed (fun w n => ∃ h : Phrase .child w n, motive h) w ns →
      motive (@Phrase.taggedFragment w ns x y p q hw))
    (closedElement : ∀ {w v n as x y} (hw : TagName w n)
      (hv : Sequence (fun _ => Phrase .tagAttribute) .selfClose v as),
      Sequence (fun _ w n => ∃ h : Phrase .tagAttribute w n, motive h) .selfClose v as →
      motive (@Phrase.closedElement w v n as x y hw hv))
    (openElement : ∀ {w v u t n m as ns x y p q} (hw : TagName w n)
      (hv : Sequence (fun _ => Phrase .tagAttribute) .greater v as)
      (hu : Interspersed (Phrase .child) u ns) (ht : TagName t m),
      Sequence (fun _ w n => ∃ h : Phrase .tagAttribute w n, motive h) .greater v as →
      Interspersed (fun w n => ∃ h : Phrase .child w n, motive h) u ns →
      motive (@Phrase.openElement w v u t n m as ns x y p q hw hv hu ht))
    {f w n} (h : Phrase f w n) : motive h := by
  -- The items of each kind of list have a motive of their own, which says it of the list.
  apply @Phrase.rec (fun _ _ _ h => motive h)
    (fun v as _ =>
      SeparatedOrNone (fun w n => ∃ h : Phrase (.expression .assignment) w n, motive h) v as)
    (fun w ns _ => Slotted (fun w n => ∃ h : Phrase (.expression .assignment) w n, motive h) w ns)
    (fun w ns _ => Listed (fun w n => ∃ h : Phrase .property w n, motive h) w ns)
    (fun w ns _ => Interspersed (fun w n => ∃ h : Phrase .child w n, motive h) w ns)
    (fun v as _ => Sequence (fun _ w n => ∃ h : Phrase .tagAttribute w n, motive h) .selfClose v as)
    (fun v as _ => Sequence (fun _ w n => ∃ h : Phrase .tagAttribute w n, motive h) .greater v as)
    (fun v as _ => Separated (fun w n => ∃ h : Phrase (.expression .assignment) w n, motive h) v as)
  any_goals assumption
  -- Arguments
  · exact .none
  · exact fun _ ih => .some ih
  -- Elements
  · exact .nil
  · exact fun _ ih => .hole ih
  · exact fun h ih => .last ⟨h, ih⟩
  · exact fun h _ ih ihs => .more ⟨h, ih⟩ ihs
  -- Properties
  · exact .nil
  · exact fun h ih => .last ⟨h, ih⟩
  · exact fun h _ ih ihs => .more ⟨h, ih⟩ ihs
  -- Children
  · exact .nil
  · exact fun h _ ih ihs => .item ⟨h, ih⟩ ihs
  · exact fun ht _ ihs => .skipped ht ihs
  -- Attributes
  · exact .nil
  · exact fun h _ ih ihs => .cons ⟨h, ih⟩ ihs
  · exact .nil
  · exact fun h _ ih ihs => .cons ⟨h, ih⟩ ihs
  -- Arguments, if there are some
  · exact fun h ih => .last ⟨h, ih⟩
  · exact fun h _ ih ihs => .more ⟨h, ih⟩ ihs

/-! ## First tokens -/

/-- The kinds of tokens that an expression without an operator before it begins with. -/
def atomKinds : List TokenKind :=
  [.number, .string, .template, .trueWord, .falseWord, .nullWord, .undefinedWord, .identifier,
   .leftBracket, .leftBrace, .leftParen, .less]

/-- The kinds of tokens that something of a form begins with. -/
def Form.openers : Form → List TokenKind
  | .expression .suffixed | .expression .primary => atomKinds
  | .expression _ => unaryOperators ++ atomKinds
  | .property | .tagAttribute => [.identifier]
  | .container => [.leftBrace]
  | .child => [.identifier, .string, .leftBrace, .less]
  | .markup => [.less]

theorem Form.openers_tighter {l m : Level} (h : l.tighter? = some m) :
    ∀ kind ∈ (expression m).openers, kind ∈ (expression l).openers := by
  cases l <;> cases h <;> decide

theorem TagName.opens {w : List Terminal} {n : Node} (h : TagName w n) :
    ∃ x v, w = ⟨.identifier, x⟩ :: v := by
  induction h with
  | word => exact ⟨_, [], rfl⟩
  | member _ ih =>
    obtain ⟨x, v, rfl⟩ := ih
    exact ⟨x, _, rfl⟩

/-- What the tokens form decides what they can begin with. -/
theorem Phrase.opens {f : Form} {w : List Terminal} {n : Node} (h : Phrase f w n) :
    ∃ t v, w = t :: v ∧ t.kind ∈ f.openers := by
  induction h using Phrase.induction with
  | tighter hl _ ih =>
    obtain ⟨t, v, rfl, ht⟩ := ih
    exact ⟨t, v, rfl, Form.openers_tighter hl _ ht⟩
  | assignment _ _ _ ih =>
    obtain ⟨t, v, rfl, ht⟩ := ih
    exact ⟨t, _, rfl, ht⟩
  | conditional _ _ _ ih =>
    obtain ⟨t, v, rfl, ht⟩ := ih
    exact ⟨t, _, rfl, ht⟩
  | binary _ _ _ _ ih =>
    obtain ⟨t, v, rfl, ht⟩ := ih
    exact ⟨t, _, rfl, ht⟩
  | power _ _ ih =>
    obtain ⟨t, v, rfl, ht⟩ := ih
    exact ⟨t, _, rfl, ht⟩
  | unary ho => exact ⟨_, _, rfl, List.mem_append_left _ ho⟩
  | call _ _ ih =>
    obtain ⟨t, v, rfl, ht⟩ := ih
    exact ⟨t, _, rfl, ht⟩
  | member _ ih =>
    obtain ⟨t, v, rfl, ht⟩ := ih
    exact ⟨t, _, rfl, ht⟩
  | computed _ _ ih =>
    obtain ⟨t, v, rfl, ht⟩ := ih
    exact ⟨t, _, rfl, ht⟩
  | element _ ih =>
    obtain ⟨t, v, rfl, ht⟩ := ih
    exact ⟨t, v, rfl, by simp_all [Form.openers, atomKinds]⟩
  | givenChild _ ih =>
    obtain ⟨t, v, rfl, ht⟩ := ih
    exact ⟨t, v, rfl, by simp_all [Form.openers]⟩
  | nestedChild _ ih =>
    obtain ⟨t, v, rfl, ht⟩ := ih
    exact ⟨t, v, rfl, by simp_all [Form.openers]⟩
  | _ => exact ⟨_, _, rfl, by simp [Form.openers, atomKinds]⟩

theorem Phrase.avoids {f : Form} {w : List Terminal} {n : Node} (h : Phrase f w n)
    {kinds : List TokenKind} (hk : ∀ kind ∈ f.openers, kind ∉ kinds) : Avoids kinds w := by
  obtain ⟨t, v, rfl, ht⟩ := h.opens
  exact ⟨t, v, rfl, hk _ ht⟩

theorem Phrase.ne_nil {f : Form} {w : List Terminal} {n : Node} (h : Phrase f w n) : w ≠ [] := by
  obtain ⟨t, v, rfl, -⟩ := h.opens
  simp

/-- Markup begins with `<` and a name, or with `<` and `>`. -/
theorem Phrase.markup_opens {w : List Terminal} {n : Node} (h : Phrase .markup w n) :
    ∃ x t v, w = ⟨.less, x⟩ :: t :: v ∧ (t.kind = .identifier ∨ t.kind = .greater) := by
  cases h with
  | fragment => exact ⟨_, _, _, rfl, .inr rfl⟩
  | taggedFragment => exact ⟨_, _, _, rfl, .inr rfl⟩
  | closedElement hw =>
    obtain ⟨x, v, rfl⟩ := hw.opens
    exact ⟨_, _, _, rfl, .inl rfl⟩
  | openElement hw =>
    obtain ⟨x, v, rfl⟩ := hw.opens
    exact ⟨_, _, _, rfl, .inl rfl⟩

end HanScript.Grammar
