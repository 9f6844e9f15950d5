-- The grammar of statements and of whole programs. What a statement is may
-- depend on the kind of the token after it: only before a closing brace and at
-- the end can a semicolon be left out, and an `else` belongs to the nearest
-- `if` that has none yet.
import HanScript.Proofs.Grammar.Expression

namespace HanScript.Grammar

/-! ## Parts of statements -/

/-- The end of a statement before a token of kind `next`. At the end of all tokens that is
the end token. -/
inductive Terminator (next : TokenKind) : List Terminal → Prop where
  | semicolon {x} : Terminator next [⟨.semicolon, x⟩]
  | leftOut : next = .rightBrace ∨ next = .eof → Terminator next []

/-- A name. -/
inductive Word : List Terminal → Node → Prop where
  | mk {x} : Word [⟨.identifier, x⟩] (.identifier {} x)

/-- What a declaration gives a value to: a name, or a pattern of names and holes. -/
inductive Target : List Terminal → Node → Prop where
  | name {w n} : Word w n → Target w n
  | pattern {w ns x y} : Slotted Word w ns →
    Target (⟨.leftBracket, x⟩ :: w ++ [⟨.rightBracket, y⟩]) (.arrayPattern {} ns)

inductive Declarator : List Terminal → Node → Prop where
  | plain {w n} : Target w n → Declarator w (.declarator {} n .absent)
  | given {w v n e x} : Target w n → Phrase (.expression .assignment) v e →
    Declarator (w ++ ⟨.assign, x⟩ :: v) (.declarator {} n e)

inductive Declaration : List Terminal → Node → Prop where
  | changing {w ns x} : Separated Declarator w ns →
    Declaration (⟨.letWord, x⟩ :: w) (.declaration {} "let" ns)
  | constant {w ns x} : Separated Declarator w ns →
    Declaration (⟨.constWord, x⟩ :: w) (.declaration {} "const" ns)

/-- An expression that may be left out. -/
inductive Optional : List Terminal → Node → Prop where
  | leftOut : Optional [] .absent
  | given {w n} : Phrase (.expression .assignment) w n → Optional w n

/-- What a loop begins with. -/
inductive Initial : List Terminal → Node → Prop where
  | declaration {w n} : Declaration w n → Initial w n
  | expression {w n} : Optional w n → Initial w n

/-- An imported name. -/
inductive Specifier : List Terminal → Node → Prop where
  | mk {x} : Specifier [⟨.identifier, x⟩] (.importSpecifier {} (.identifier {} x) (.identifier {} x))

/-- An expression in parentheses. -/
inductive Condition : List Terminal → Node → Prop where
  | mk {w n x y} : Phrase (.expression .assignment) w n →
    Condition (⟨.leftParen, x⟩ :: w ++ [⟨.rightParen, y⟩]) n

/-! ## Statements -/

/-- The kinds of tokens that say at once what statement begins with them. -/
def statementKinds : List TokenKind :=
  [.letWord, .constWord, .functionWord, .componentWord, .leftBrace, .ifWord, .whileWord, .forWord,
   .returnWord, .breakWord, .continueWord, .importWord, .exportWord]

/-- What the rules of statements tell apart: a statement, and what stands after an `if` or an
`else if`. -/
inductive Part where
  | statement
  | branch
deriving DecidableEq

/-- The tokens form the tree, before a token of kind `next`. -/
inductive Statement : Part → TokenKind → List Terminal → Node → Prop where
  | declaration {next w v n} : Declaration w n → Terminator next v →
    Statement .statement next (w ++ v) n
  | function {next k w v ns ps name p q r s t} : k = .functionWord ∨ k = .componentWord →
    SeparatedOrNone Word v ps → Sequence (Statement .statement) .rightBrace w ns →
    Statement .statement next
      (⟨k, p⟩ :: ⟨.identifier, name⟩ :: ⟨.leftParen, q⟩ :: v
        ++ ⟨.rightParen, r⟩ :: ⟨.leftBrace, s⟩ :: w ++ [⟨.rightBrace, t⟩])
      (.function {} (.identifier {} name) ps (.block {} ns))
  | block {next w ns x y} : Sequence (Statement .statement) .rightBrace w ns →
    Statement .statement next (⟨.leftBrace, x⟩ :: w ++ [⟨.rightBrace, y⟩]) (.block {} ns)
  | ifElse {next w n x} : Statement .branch next w n →
    Statement .statement next (⟨.ifWord, x⟩ :: w) n
  | whileLoop {next w v e n x} : Condition w e → Statement .statement next v n →
    Statement .statement next (⟨.whileWord, x⟩ :: w ++ v) (.whileLoop {} e n)
  | forLoop {next i t u w a b c n p q r s z} : Initial i a → Optional t b → Optional u c →
    Statement .statement next w n →
    Statement .statement next
      (⟨.forWord, p⟩ :: ⟨.leftParen, q⟩ :: i ++ ⟨.semicolon, r⟩ :: t ++ ⟨.semicolon, s⟩ :: u
        ++ ⟨.rightParen, z⟩ :: w)
      (.forLoop {} a b c n)
  | returning {next w v n x} : Optional w n → Terminator next v →
    Statement .statement next (⟨.returnWord, x⟩ :: w ++ v) (.returning {} n)
  | breaking {next v x} : Terminator next v →
    Statement .statement next (⟨.breakWord, x⟩ :: v) (.breaking {})
  | continuing {next v x} : Terminator next v →
    Statement .statement next (⟨.continueWord, x⟩ :: v) (.continuing {})
  | importing {next w v ns p q r s source} : Listed Specifier w ns → Terminator next v →
    Statement .statement next
      (⟨.importWord, p⟩ :: ⟨.leftBrace, q⟩ :: w
        ++ ⟨.rightBrace, r⟩ :: ⟨.fromWord, s⟩ :: ⟨.string, source⟩ :: v)
      (.importing {} ns (.literal {} (.text source) source false))
  | exporting {next w n x} : Statement .statement next w n →
    Statement .statement next (⟨.exportWord, x⟩ :: w) (.exporting {} n false)
  | exportingDefault {next w n x y} : Statement .statement next w n →
    Statement .statement next (⟨.exportWord, x⟩ :: ⟨.defaultWord, y⟩ :: w) (.exporting {} n true)
  | expression {next w v n} : Phrase (.expression .assignment) w n →
    follower w .eof ∉ statementKinds → Terminator next v →
    Statement .statement next (w ++ v) (.expressionStatement {} n)
  -- The ways in which an `if` goes on
  | alone {next w v e n} : Condition w e → Statement .statement next v n → next ≠ .elseWord →
    next ≠ .elseIfWord → Statement .branch next (w ++ v) (.ifElse {} e n .absent)
  | orElse {next w v u e n m x} : Condition w e → Statement .statement .elseWord v n →
    Statement .statement next u m →
    Statement .branch next (w ++ v ++ ⟨.elseWord, x⟩ :: u) (.ifElse {} e n m)
  | orElseIf {next w v u e n m x} : Condition w e → Statement .statement .elseIfWord v n →
    Statement .branch next u m →
    Statement .branch next (w ++ v ++ ⟨.elseIfWord, x⟩ :: u) (.ifElse {} e n m)

/-- The tokens form the program. -/
inductive Program : List Terminal → Node → Prop where
  | mk {w ns} : Sequence (Statement .statement) .eof w ns → Program w (.program {} ns)

/-! ## Induction -/

/-- Induction over the rules of statements, with what holds of the statements of a block said
of the block. -/
@[elab_as_elim]
theorem Statement.induction {motive : ∀ {part next w n}, Statement part next w n → Prop}
    (declaration : ∀ {next w v n} (hw : Declaration w n) (hv : Terminator next v),
      motive (Statement.declaration hw hv))
    (function : ∀ {next k w v ns ps name p q r s t} (hk : k = .functionWord ∨ k = .componentWord)
      (hv : SeparatedOrNone Word v ps) (hw : Sequence (Statement .statement) .rightBrace w ns),
      Sequence (fun k w n => ∃ h : Statement .statement k w n, motive h) .rightBrace w ns →
      motive (@Statement.function next k w v ns ps name p q r s t hk hv hw))
    (block : ∀ {next w ns x y} (hw : Sequence (Statement .statement) .rightBrace w ns),
      Sequence (fun k w n => ∃ h : Statement .statement k w n, motive h) .rightBrace w ns →
      motive (@Statement.block next w ns x y hw))
    (ifElse : ∀ {next w n x} (hw : Statement .branch next w n), motive hw →
      motive (@Statement.ifElse next w n x hw))
    (whileLoop : ∀ {next w v e n x} (hw : Condition w e) (hv : Statement .statement next v n),
      motive hv → motive (@Statement.whileLoop next w v e n x hw hv))
    (forLoop : ∀ {next i t u w a b c n p q r s z} (hi : Initial i a) (ht : Optional t b)
      (hu : Optional u c) (hw : Statement .statement next w n), motive hw →
      motive (@Statement.forLoop next i t u w a b c n p q r s z hi ht hu hw))
    (returning : ∀ {next w v n x} (hw : Optional w n) (hv : Terminator next v),
      motive (@Statement.returning next w v n x hw hv))
    (breaking : ∀ {next v x} (hv : Terminator next v), motive (@Statement.breaking next v x hv))
    (continuing : ∀ {next v x} (hv : Terminator next v), motive (@Statement.continuing next v x hv))
    (importing : ∀ {next w v ns p q r s source} (hw : Listed Specifier w ns)
      (hv : Terminator next v), motive (@Statement.importing next w v ns p q r s source hw hv))
    (exporting : ∀ {next w n x} (hw : Statement .statement next w n), motive hw →
      motive (@Statement.exporting next w n x hw))
    (exportingDefault : ∀ {next w n x y} (hw : Statement .statement next w n), motive hw →
      motive (@Statement.exportingDefault next w n x y hw))
    (expression : ∀ {next w v n} (hw : Phrase (.expression .assignment) w n)
      (hs : follower w .eof ∉ statementKinds) (hv : Terminator next v),
      motive (Statement.expression hw hs hv))
    (alone : ∀ {next w v e n} (hw : Condition w e) (hv : Statement .statement next v n)
      (he : next ≠ .elseWord) (hi : next ≠ .elseIfWord), motive hv →
      motive (Statement.alone hw hv he hi))
    (orElse : ∀ {next w v u e n m x} (hw : Condition w e) (hv : Statement .statement .elseWord v n)
      (hu : Statement .statement next u m), motive hv → motive hu →
      motive (@Statement.orElse next w v u e n m x hw hv hu))
    (orElseIf : ∀ {next w v u e n m x} (hw : Condition w e)
      (hv : Statement .statement .elseIfWord v n) (hu : Statement .branch next u m), motive hv →
      motive hu → motive (@Statement.orElseIf next w v u e n m x hw hv hu))
    {part next w n} (h : Statement part next w n) : motive h := by
  apply @Statement.rec (fun _ _ _ _ h => motive h)
    (fun w ns _ => Sequence (fun k w n => ∃ h : Statement .statement k w n, motive h)
      .rightBrace w ns)
  any_goals assumption
  · exact .nil
  · exact fun h _ ih ihs => .cons ⟨h, ih⟩ ihs

/-! ## First tokens -/

/-- The kinds of tokens that stand between statements or after them, and begin none. -/
def followingKinds : List TokenKind := [.rightBrace, .eof, .defaultWord, .elseWord, .elseIfWord]

theorem Statement.avoids {next : TokenKind} {w : List Terminal} {n : Node} {kinds : List TokenKind}
    (h : Statement .statement next w n) (hk : ∀ kind ∈ kinds, kind ∈ followingKinds) :
    Avoids kinds w := by
  have avoided : Avoids followingKinds w := by
    cases h with
    | declaration hw => cases hw <;> exact ⟨_, _, rfl, by simp [followingKinds]⟩
    | function hk => rcases hk with rfl | rfl <;> exact ⟨_, _, rfl, by simp [followingKinds]⟩
    | expression hw => exact (hw.avoids (by decide)).append _
    | _ => exact ⟨_, _, rfl, by simp [followingKinds]⟩
  obtain ⟨t, v, rfl, ht⟩ := avoided
  exact ⟨t, v, rfl, fun hm => ht (hk _ hm)⟩

end HanScript.Grammar
