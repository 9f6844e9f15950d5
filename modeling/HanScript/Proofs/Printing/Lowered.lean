-- Programs without markup. Each element becomes the call that makes it, and the
-- words for truth and for nothing are written in one way.
import HanScript.Proofs.Bare
import HanScript.Proofs.Rewritten

namespace HanScript.Node

/-- The name of a tag as an expression. -/
def reference : Node → Node
  | tagName s name => identifier s name
  | tagMember s owner field => member s (reference owner) (reference field) false
  | n => n

/-- The name of a tag as an argument: a text, or an expression if it has points. -/
def tagArgument : Node → Node
  | tagName s name => literal s (.text name) name false
  | n => reference n

/-- A member of `React`. -/
def reactMember (s : Span) (name : String) : Node :=
  member s (identifier s "React") (identifier s name) false

/-- The attributes of an element as an argument: an object, or nothing if there are none. -/
def propsArgument (s : Span) : List Node → Node
  | [] => literal s .nothing "null" false
  | attributes => object s attributes

/-- The call that makes an element of markup. -/
def createElement (s : Span) (tag props : Node) (children : List Node) : Node :=
  call s (reactMember s "createElement") (tag :: props :: children)

/-- The node without markup, if there is none in its parts. -/
def unmarkedRoot : Node → Node
  | element s name attributes children _ =>
    createElement s (tagArgument name) (propsArgument s attributes) children
  | fragment s children =>
    createElement s (reactMember s "Fragment") (literal s .nothing "null" false) children
  -- An attribute is a property, which is true if it has no value.
  | tagAttribute s name absent => property s (reference name) (literal s (.truth true) "true" false)
  | tagAttribute s name value => property s (reference name) value
  | container _ e => e
  | markupText s value => literal s (.text value) value false
  | n => n

theorem unmarkedRoot_attribute {s : Span} {name value : Node} (h : value.isAbsent = false) :
    unmarkedRoot (.tagAttribute s name value) = .property s name.reference value := by
  cases value with
  | absent => cases h
  | _ => rfl

/-- How a literal is written that the source may write in several ways. -/
def loweredRaw : Value → String → String
  | .truth true, _ => "true"
  | .truth false, _ => "false"
  | .nothing, _ => "null"
  | _, raw => raw

/-- The node without markup, if there is none in its parts, with truth and nothing written in one
way. -/
def loweredRoot : Node → Node
  | literal s value raw template => literal s value (loweredRaw value raw) template
  | n => unmarkedRoot n

/-- The tree without markup, with truth and nothing written in one way all over it. -/
def lowered (n : Node) : Node := n.rewritten loweredRoot

theorem lowered_eq (n : Node) : n.lowered = loweredRoot (n.rebuilt id lowered) :=
  rewritten_eq loweredRoot n

theorem lowered_binary (s : Span) (operator : String) (left right : Node) :
    (binary s operator left right).lowered = binary s operator left.lowered right.lowered := rfl

theorem bareList_lowered (ns : List Node) :
    bareList (rewrittenList loweredRoot ns) = ns.map fun n => n.lowered.bare := by
  rw [bareList_eq_map, rewrittenList_eq_map, List.map_map]
  rfl

end HanScript.Node
