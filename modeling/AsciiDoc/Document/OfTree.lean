import AsciiDoc.Document.Basic
import AsciiDoc.Tree.Basic

namespace AsciiDoc

inductive TreeError where
  | missingSpan (rule : Rule)
  | missingToken (rule : Rule) (kind : Kind)
  | missingChild (rule child : Rule)
  | unexpectedNode (parent found : Rule)
  deriving DecidableEq, Repr

namespace TreeError

def message : TreeError → String
  | missingSpan r => "Internal error: CST node " ++ r.name ++ " has no resolvable source span"
  | missingToken r k => "Internal error: CST node " ++ r.name ++ " has no " ++ k.name ++ " token"
  | missingChild r c => "Internal error: CST node " ++ r.name ++ " has no " ++ c.name ++ " child"
  | unexpectedNode p f => "Internal error: unexpected " ++ f.name ++ " node under " ++ p.name

end TreeError

namespace Node

def location (n : Node) : Except TreeError Location :=
  match n.span with
  | some e => .ok (.ofExtent e)
  | none => .error (.missingSpan n.rule)

def child (n : Node) (r : Rule) : Except TreeError Node :=
  match n.nodes r with
  | m :: _ => .ok m
  | [] => .error (.missingChild n.rule r)

def texts (n : Node) (k : Kind) : List Text := (n.tokens k).map Token.text

def toLine (n : Node) : Except TreeError Line := do
  return ⟨n.texts .inlineText, ← n.location⟩

def toHeadline (n : Node) : Except TreeError Headline := do
  match n.tokens .headline with
  | [] => throw (.missingToken n.rule .headline)
  | marker :: _ =>
    let title ← (← n.child .text).toLine
    return ⟨Headline.levelOf marker.text.length, title, ← n.location⟩

/-- Spaces inside a line belong to its text, so a space of the paragraph itself is an indent. -/
def toParagraph (n : Node) : Except TreeError Paragraph := do
  let lines ← (n.nodes .text).mapM toLine
  return ⟨lines, n.hasToken .space, ← n.location⟩

def toValue (n : Node) : Except TreeError AttributeValue := do
  let kind := if n.hasToken .stringStart then Kind.stringText else Kind.listText
  return ⟨n.texts kind, ← n.location⟩

def toEntry (n : Node) : Except TreeError Attribute := do
  let key := if n.hasToken .assignment then (n.texts .listText).head? else none
  let value ← (← n.child .attributeValue).toValue
  return ⟨key, value, ← n.location⟩

def mark (n : Node) : Except TreeError Mark :=
  if n.hasToken .legacyIdStart || n.hasToken .idMark then .ok .id
  else if n.hasToken .roleMark then .ok .role
  else if n.hasToken .optionMark then .ok .option
  else .error (.missingToken n.rule .idMark)

def valueLocation (n : Node) : Location :=
  (n.tokens .listText).foldl (fun l t => l.union (.ofExtent t.extent)) .unresolved

end Node

structure Gathering where
  attributes : List Attribute
  merged : Mark → Option Nat

namespace Gathering

def empty : Gathering := ⟨[], fun _ => none⟩

def push (g : Gathering) (a : Attribute) : Gathering := ⟨g.attributes ++ [a], g.merged⟩

def pushMark (g : Gathering) (m : Mark) (a : Attribute) : Gathering :=
  ⟨g.attributes ++ [a], fun k => if k = m then some g.attributes.length else g.merged k⟩

def extendAt (g : Gathering) (index : Nat) (values : List Text) : Gathering :=
  ⟨g.attributes.modify index (Attribute.extend values), g.merged⟩

def addItem (parent : Rule) (g : Gathering) (item : Node) : Except TreeError Gathering :=
  match item.rule with
  | .attributeEntry => do return g.push (← item.toEntry)
  | .shorthand => do
    let m ← item.mark
    let values := item.texts .listText
    match g.merged m with
    | some index => return g.extendAt index values
    | none => return g.pushMark m ⟨some m.key, ⟨values, item.valueLocation⟩, ← item.location⟩
  | r => .error (.unexpectedNode parent r)

end Gathering

namespace Node

def toAttributeList (n : Node) : Except TreeError AttributeList := do
  let gathering ← n.orderedNodes.foldlM (Gathering.addItem n.rule) .empty
  return ⟨gathering.attributes, ← n.location⟩

def toAttributeBlock (n : Node) : Except TreeError AttributeBlock := do
  let list ← (← n.child .attributeList).toAttributeList
  return ⟨list, ← n.location⟩

def toBlock (n : Node) : Except TreeError Block :=
  match n.rule with
  | .headline => n.toHeadline.map .headline
  | .paragraph => n.toParagraph.map .paragraph
  | .emptyLine => n.location.map .emptyLine
  | .attributeBlock => n.toAttributeBlock.map .attributes
  | r => .error (.unexpectedNode .document r)

def toDocument (n : Node) : Except TreeError Document :=
  if n.rule = .document then do
    let blocks ← n.orderedNodes.mapM toBlock
    return ⟨blocks, (n.span.map Location.ofExtent).getD .unresolved⟩
  else .error (.unexpectedNode .document n.rule)

end Node

end AsciiDoc
