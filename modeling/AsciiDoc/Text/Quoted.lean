import AsciiDoc.Text.Unprintable

namespace AsciiDoc.Text

def codePointEscape (c : Char) : Text :=
  ['\\', 'u', '\x7b'] ++ Nat.toDigits 16 c.toNat ++ ['\x7d']

def escape (c : Char) : Text :=
  if c = '"' then ['\\', '"']
  else if c = '\\' then ['\\', '\\']
  else if c = '\n' then ['\\', 'n']
  else if c = '\r' then ['\\', 'r']
  else if c = '\t' then ['\\', 't']
  else if c.toNat = 0 then ['\\', '0']
  else if isUnprintable c then codePointEscape c
  else [c]

def quoted (s : Text) : Text := '"' :: s.flatMap escape ++ ['"']

def quotedList (texts : List Text) : Text :=
  '[' :: [',', ' '].intercalate (texts.map quoted) ++ [']']

end AsciiDoc.Text
