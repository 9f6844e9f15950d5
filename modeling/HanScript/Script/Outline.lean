-- Trees written out in full: the kind of a node, where it stands, and all its
-- parts by name. That is the text of a node that stands where a name belongs.
import HanScript.Script.Literal
import HanScript.Text.Printable

namespace HanScript.Script

/-! ## Parts -/

def flagOutline (b : Bool) : String := if b then "True" else "False"

/-- The value of a literal. Unlike a number, a text is quoted. -/
def valueOutline : Value → Except RenderError String
  | .text s => .ok (Text.quoted s)
  | v => valueText v

/-- Items in parentheses. A single one has a comma after it. -/
def inParens (items : Except RenderError (List String)) : Except RenderError String := do
  match ← items with
  | [item] => return parenthesized (item ++ ",")
  | items => return parenthesized (listed items)

/-- Where a node stands. -/
def placeOutline (s : Span) : List String :=
  ["line=" ++ toString s.line, "column=" ++ toString s.column, "start=" ++ toString s.start,
    "end=" ++ toString s.stop]

/-- A node from the outlines of its parts. -/
def record (n : Node) (parts : List (String × Except RenderError String)) :
    Except RenderError String := do
  let fields ← parts.mapM fun (name, part) => do
    let text ← part
    return name ++ "=" ++ text
  return n.kind ++ parenthesized (listed (placeOutline n.span ++ fields))

/-! ## Nodes -/

mutual

/-- A node written out in full. -/
def outline : Node → Except RenderError String
  | .absent => .ok "None"
  | n@(.unknown ..) => record n []
  | n@(.program _ body) => record n [("body", inParens (outlineEach body))]
  | n@(.identifier _ name) => record n [("name", .ok (Text.quoted name))]
  | n@(.arrayPattern _ elements) => record n [("elements", inParens (outlineEach elements))]
  | n@(.declarator _ target initial) =>
    record n [("id", outline target), ("init", outline initial)]
  | n@(.declaration _ keyword declarators) =>
    record n [("kind", .ok (Text.quoted keyword)), ("declarations", inParens (outlineEach declarators))]
  | n@(.block _ body) => record n [("body", inParens (outlineEach body))]
  | n@(.function _ name params body) =>
    record n [("id", outline name), ("params", inParens (outlineEach params)), ("body", outline body)]
  | n@(.ifElse _ test consequent alternate) =>
    record n [("test", outline test), ("consequent", outline consequent),
      ("alternate", outline alternate)]
  | n@(.whileLoop _ test body) => record n [("test", outline test), ("body", outline body)]
  | n@(.forLoop _ initial test update body) =>
    record n [("init", outline initial), ("test", outline test), ("update", outline update),
      ("body", outline body)]
  | n@(.returning _ argument) => record n [("argument", outline argument)]
  | n@(.breaking _) => record n []
  | n@(.continuing _) => record n []
  | n@(.importSpecifier _ imported localName) =>
    record n [("imported", outline imported), ("local", outline localName)]
  | n@(.importing _ specifiers source) =>
    record n [("specifiers", inParens (outlineEach specifiers)), ("source", outline source)]
  | n@(.exporting _ exported isDefault) =>
    record n [("declaration", outline exported), ("is_default", .ok (flagOutline isDefault))]
  | n@(.expressionStatement _ e) => record n [("expression", outline e)]
  | n@(.literal _ value raw isTemplate) =>
    record n [("value", valueOutline value), ("raw", .ok (Text.quoted raw)),
      ("template", .ok (flagOutline isTemplate))]
  | n@(.binary _ operator left right) =>
    record n [("operator", .ok (Text.quoted operator)), ("left", outline left),
      ("right", outline right)]
  | n@(.unary _ operator argument before) =>
    record n [("operator", .ok (Text.quoted operator)), ("argument", outline argument),
      ("prefix", .ok (flagOutline before))]
  | n@(.assignment _ operator left right) =>
    record n [("operator", .ok (Text.quoted operator)), ("left", outline left),
      ("right", outline right)]
  | n@(.conditional _ test consequent alternate) =>
    record n [("test", outline test), ("consequent", outline consequent),
      ("alternate", outline alternate)]
  | n@(.call _ callee arguments) =>
    record n [("callee", outline callee), ("arguments", inParens (outlineEach arguments))]
  | n@(.member _ owner field computed) =>
    record n [("object", outline owner), ("property", outline field),
      ("computed", .ok (flagOutline computed))]
  | n@(.array _ elements) => record n [("elements", inParens (outlineEach elements))]
  | n@(.property _ key value) => record n [("key", outline key), ("value", outline value)]
  | n@(.object _ properties) => record n [("properties", inParens (outlineEach properties))]
  | n@(.tagName _ name) => record n [("name", .ok (Text.quoted name))]
  | n@(.tagMember _ owner field) =>
    record n [("object", outline owner), ("property", outline field)]
  | n@(.container _ e) => record n [("expression", outline e)]
  | n@(.tagAttribute _ name value) => record n [("name", outline name), ("value", outline value)]
  | n@(.markupText _ value) => record n [("value", .ok (Text.quoted value))]
  | n@(.element _ name attributes children selfClosing) =>
    record n [("name", outline name), ("attributes", inParens (outlineEach attributes)),
      ("children", inParens (outlineEach children)), ("self_closing", .ok (flagOutline selfClosing))]
  | n@(.fragment _ children) => record n [("children", inParens (outlineEach children))]

/-- The outlines of nodes, one by one. -/
def outlineEach : List Node → Except RenderError (List String)
  | [] => .ok []
  | n :: ns => do
    let item ← outline n
    let rest ← outlineEach ns
    return item :: rest

end

/-! ## Names -/

/-- The name of a node that has to have one. -/
def nameOf (n : Node) : Except RenderError Name :=
  match n.name? with
  | some name => .ok name
  | none => .error .incomplete

/-- A name inside other text. -/
def nameText : Name → Except RenderError String
  | .text s => .ok s
  | .node n => outline n

/-- A name that is listed with others. -/
def listedName : Name → Except RenderError String
  | .text s => .ok s
  | .node _ => .error .nameNotText

/-- The name of a node inside other text. -/
def nameTextOf (n : Node) : Except RenderError String := nameOf n >>= nameText

end HanScript.Script
