import AsciiDoc.Document.Json
import AsciiDoc.Format

namespace AsciiDoc

inductive Event where
  | enteredMode (offset : Nat) (outer inner : Mode)
  | leftMode (offset : Nat) (mode : Mode)
  | tokenized (tokens bytes : Nat)
  | readToken (t : Token)
  | readTokens (count : Nat)
  | parsed (tokens blocks : Nat)
  | built (blocks : Nat) (location : Location)
  | printed (bytes : Nat)
  deriving DecidableEq, Repr

namespace Event

inductive Level where
  | trace
  | debug
  | info
  deriving DecidableEq, Repr

def level : Event → Level
  | enteredMode .. | leftMode .. => .trace
  | readToken .. | readTokens .. => .info
  | tokenized .. | parsed .. | built .. | printed .. => .debug

def message : Event → String
  | enteredMode .. => "push lexer mode"
  | leftMode .. => "pop lexer mode"
  | tokenized .. => "tokenized source"
  | readToken .. => "token"
  | readTokens .. => "token stream"
  | parsed .. => "parsed document"
  | built .. => "built document AST"
  | printed .. => "printed document"

def fields : Event → List (String × Json)
  | enteredMode offset outer inner =>
    [("offset", .nat offset), ("from", .text outer.name.toList), ("to", .text inner.name.toList)]
  | leftMode offset mode => [("offset", .nat offset), ("mode", .text mode.name.toList)]
  | tokenized tokens bytes => [("tokens", .nat tokens), ("bytes", .nat bytes)]
  | readToken t =>
    [("kind", .text t.kind.name.toList), ("text", .text (Text.quoted t.text)),
      ("start", .nat t.extent.start), ("end", .nat t.extent.stop)]
  | readTokens count => [("count", .nat count)]
  | parsed tokens blocks => [("tokens", .nat tokens), ("blocks", .nat blocks)]
  | built blocks location => [("blocks", .nat blocks), ("location", .text location.render)]
  | printed bytes => [("bytes", .nat bytes)]

def ofStep (s : Lexer.Step) : Option Event :=
  match s.shift with
  | .stay => none
  | .push m => some (enteredMode s.token.extent.start s.modes.current m)
  | .pop => s.modes.pop.1.map (leftMode s.token.extent.start)

def dump (ts : List Token) : List Event := ts.map readToken ++ [readTokens ts.length]

end Event

def Document.journal (c : Config) (ts : List Token) : List Event :=
  match Node.parse ts with
  | .error _ => []
  | .ok tree =>
    Event.parsed ts.length tree.orderedNodes.length ::
      match tree.toDocument with
      | .error _ => []
      | .ok d => [.built d.blocks.length d.location, .printed (Text.bytes (d.print c))]

def journal (c : Config) (text : Text) : List Event :=
  let source := normalize text
  let run := Lexer.run c.legacyIds source
  run.steps.filterMap Event.ofStep ++
    match run.tokens source with
    | .error _ => []
    | .ok ts =>
      Event.tokenized ts.length (Text.bytes source) ::
        (if c.verbose then Event.dump ts else []) ++ Document.journal c ts

end AsciiDoc
