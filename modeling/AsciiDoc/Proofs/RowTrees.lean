import AsciiDoc.Tree.Basic

namespace AsciiDoc

inductive Item where
  | punctuation (t : Token)
  | legacyId (opening text closing : Token)
  | marked (pairs : List (Token × Token))
  | entry (key : Option (Token × Token)) (value : List Token)
  deriving DecidableEq, Repr

namespace Item

def addPair (p : Token × Token) : List Item → List Item
  | marked (q :: qs) :: items =>
    if q.1.kind = p.1.kind then marked (p :: q :: qs) :: items
    else marked [p] :: marked (q :: qs) :: items
  | items => marked [p] :: items

def valueExtra (t : Token) (ts : List Token) : Nat :=
  if t.kind = .stringStart then (ts.takeWhile fun u => u.kind != .stringEnd).length + 1 else 0

def ofTokens : List Token → List Item
  | [] => []
  | t :: ts =>
    match t.kind with
    | .listStart | .listEnd | .comma => punctuation t :: ofTokens ts
    | .legacyIdStart =>
      match ts with
      | a :: b :: rest => legacyId t a b :: ofTokens rest
      | _ => []
    | .idMark | .roleMark | .optionMark =>
      match ts with
      | a :: rest => addPair (t, a) (ofTokens rest)
      | [] => []
    | _ =>
      if (ts.head?.map Token.kind) = some .assignment then
        match ts with
        | a :: v :: vs =>
          entry (some (t, a)) (v :: vs.take (valueExtra v vs)) ::
            ofTokens (vs.drop (valueExtra v vs))
        | _ => []
      else
        entry none (t :: ts.take (valueExtra t ts)) :: ofTokens (ts.drop (valueExtra t ts))
termination_by ts => ts.length
decreasing_by
  all_goals simp only [List.length_drop, List.length_cons]
  all_goals omega

def child : Item → Child Node
  | punctuation t => .token t
  | legacyId a b c => .node (.ofChildren .shorthand [.token a, .token b, .token c])
  | marked pairs =>
    .node (.ofChildren .shorthand (pairs.flatMap fun p => [.token p.1, .token p.2]))
  | entry key value =>
    let value := Node.ofChildren .attributeValue (value.map .token)
    match key with
    | none => .node (.ofChildren .attributeEntry [.node value])
    | some (k, a) => .node (.ofChildren .attributeEntry [.token k, .token a, .node value])

end Item

structure Row where
  opening : Token
  body : List Token
  deriving DecidableEq, Repr

namespace Row

def opens (k : Kind) : Bool := k = .newline || k = .emptyLine

def split : List Token → List Token × List Row
  | [] => ([], [])
  | t :: ts =>
    let (body, rows) := split ts
    if opens t.kind then ([], ⟨t, body⟩ :: rows) else (t :: body, rows)

def isSpace (t : Token) : Bool := t.kind = .space

def lineChildren (ts : List Token) : List (Child Node) :=
  (ts.takeWhile isSpace).map .token ++
    [.node (.ofChildren .text ((ts.dropWhile isSpace).map .token))]

end Row

inductive Part where
  | newline (t : Token)
  | emptyLine (t : Token)
  | headline (opening marker : Token) (rest : List Token)
  | attributes (opening : Token) (list : List Token)
  | paragraph (rows : List Row)
  deriving DecidableEq, Repr

namespace Part

def ofRow (r : Row) : Part :=
  if r.opening.kind = .emptyLine then emptyLine r.opening
  else
    match r.body with
    | [] => newline r.opening
    | t :: ts =>
      match t.kind with
      | .headline => headline r.opening t ts
      | .listStart => attributes r.opening (t :: ts)
      | _ => paragraph [r]

def join : Part → List Part → List Part
  | paragraph rows, paragraph more :: parts => paragraph (rows ++ more) :: parts
  | p, parts => p :: parts

def ofRows (rows : List Row) : List Part := rows.foldr (fun r => join (ofRow r)) []

def child : Part → Child Node
  | newline t => .token t
  | emptyLine t => .node (.ofChildren .emptyLine [.token t])
  | headline opening marker rest =>
    .node (.ofChildren .headline (.token opening :: .token marker :: Row.lineChildren rest))
  | attributes opening list =>
    let list := Node.ofChildren .attributeList ((Item.ofTokens list).map Item.child)
    .node (.ofChildren .attributeBlock [.token opening, .node list])
  | paragraph rows =>
    .node (.ofChildren .paragraph
      (rows.flatMap fun r => .token r.opening :: Row.lineChildren r.body))

end Part

def Node.ofTokens (ts : List Token) : Node :=
  .ofChildren .document ((Part.ofRows (Row.split ts).2).map Part.child)

end AsciiDoc
