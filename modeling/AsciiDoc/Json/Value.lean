import AsciiDoc.Text.Basic

namespace AsciiDoc

inductive Json where
  | null
  | bool (b : Bool)
  | int (n : Int)
  | text (s : Text)
  | array (items : List Json)
  | object (members : List (String × Json))

namespace Json

def nat (n : Nat) : Json := int n

def textOrNull : Option Text → Json
  | some s => text s
  | none => null

def escape (c : Char) : Text :=
  if c = '"' then ['\\', '"']
  else if c = '\\' then ['\\', '\\']
  else if c = '\n' then ['\\', 'n']
  else if c = '\r' then ['\\', 'r']
  else if c = '\t' then ['\\', 't']
  else if c.toNat = 8 then ['\\', 'b']
  else if c.toNat = 12 then ['\\', 'f']
  else if c.toNat < 32 then
    ['\\', 'u', '0', '0', (c.toNat / 16).digitChar, (c.toNat % 16).digitChar]
  else [c]

def renderText (s : Text) : Text := '"' :: s.flatMap escape ++ ['"']

mutual

def render : Json → Text
  | null => "null".toList
  | bool true => "true".toList
  | bool false => "false".toList
  | int n => Text.signedDecimal n
  | text s => renderText s
  | array [] => ['[', ']']
  | array (x :: xs) => '[' :: render x ++ renderItems xs ++ [']']
  | object [] => ['\x7b', '\x7d']
  | object ((k, x) :: ms) =>
    '\x7b' :: renderText k.toList ++ ':' :: render x ++ renderMembers ms ++ ['\x7d']

def renderItems : List Json → Text
  | [] => []
  | x :: xs => ',' :: render x ++ renderItems xs

def renderMembers : List (String × Json) → Text
  | [] => []
  | (k, x) :: ms => ',' :: renderText k.toList ++ ':' :: render x ++ renderMembers ms

end

end Json

end AsciiDoc
