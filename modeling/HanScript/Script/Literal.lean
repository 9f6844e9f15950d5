-- How the values of literals are written.
import HanScript.Number.Shortest
import HanScript.Script.Error
import HanScript.Script.Text
import HanScript.Syntax.Node

namespace HanScript.Script

/-- A number in decimal. Whole numbers are written with as many digits as they can be
read with. -/
def numberText : Number → Except RenderError String
  | .integer n =>
    if n.natAbs < Nat.pow 10 Numeral.mostDigits then .ok (toString n) else .error .tooManyDigits
  | .double d => .ok d.text

/-- A value as text. -/
def valueText : Value → Except RenderError String
  | .nothing => .ok "None"
  | .truth b => .ok (if b then "True" else "False")
  | .number n => numberText n
  | .text s => .ok s

/-- A number as the source wrote it, or in decimal if it does not say. -/
def numberOr (raw : String) (n : Number) : Except RenderError String :=
  if raw.isEmpty then numberText n else .ok raw

/-- A literal as an expression. -/
def literal (value : Value) (raw : String) (isTemplate : Bool) : Except RenderError String :=
  match value with
  | .text s => .ok (if isTemplate then template s else quote s)
  | .nothing => if isTemplate then .error .incomplete else .ok "null"
  | .truth b => if isTemplate then .error .incomplete else .ok (if b then "true" else "false")
  | .number n => if isTemplate then .error .incomplete else numberOr raw n

/-- A number written in digits only. A point right after it would be read as its decimal
point. -/
def isBareInteger : Node → Except RenderError Bool
  | .literal _ (.number n) raw _ => do
    let text ← numberOr raw n
    return !text.isEmpty && text.toList.all Text.isDigitOfAnyScript
  | _ => .ok false

end HanScript.Script
