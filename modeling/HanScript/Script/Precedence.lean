-- How tightly expressions bind, and which of them begin with a brace.
import HanScript.Syntax.Node

namespace HanScript.Script

/-! ## Levels, from the loosest to the tightest -/

def assignmentLevel : Nat := 1

def conditionalLevel : Nat := 2

/-- The level of an operator that is not in the table, which is also the least in it. -/
def looseLevel : Nat := 3

def operatorLevels : List (String × Nat) :=
  [("||", 3), ("&&", 4), ("==", 5), ("!=", 5), ("===", 5), ("!==", 5), ("<", 6), (">", 6),
   ("<=", 6), (">=", 6), ("+", 7), ("-", 7), ("*", 8), ("/", 8), ("%", 8), ("**", 9)]

def unaryLevel : Nat := 10

def callLevel : Nat := 11

def atomLevel : Nat := 12

/-- How tightly a node binds. -/
def precedence : Node → Nat
  | .assignment .. => assignmentLevel
  | .conditional .. => conditionalLevel
  | .binary _ operator _ _ => (operatorLevels.lookup operator).getD looseLevel
  | .unary .. => unaryLevel
  | .call .. | .member .. => callLevel
  | _ => atomLevel

/-- The text of the node begins with an object, so that a statement made of it would be
taken for a block. -/
def startsWithObject : Node → Bool
  | .object .. => true
  | .call _ callee _ => startsWithObject callee
  | .member _ owner _ _ => startsWithObject owner
  | .binary _ _ left _ => startsWithObject left
  | .assignment _ _ left _ => startsWithObject left
  | .conditional _ test _ _ => startsWithObject test
  | .unary _ _ argument before => !before && startsWithObject argument
  | _ => false

/-- The operator of a unary node. -/
def unaryOperator? : Node → Option String
  | .unary _ operator _ _ => some operator
  | _ => none

end HanScript.Script
