import AsciiDoc.Text.Basic

namespace AsciiDoc.Text

/-- The code points with the property `White_Space`, as ranges with both ends included. -/
def blankRanges : List (Nat × Nat) :=
  [(0x9, 0xD), (0x20, 0x20), (0x85, 0x85), (0xA0, 0xA0), (0x1680, 0x1680), (0x2000, 0x200A),
    (0x2028, 0x2029), (0x202F, 0x202F), (0x205F, 0x205F), (0x3000, 0x3000)]

def isBlank (c : Char) : Bool :=
  blankRanges.any fun r => r.1 ≤ c.toNat && c.toNat ≤ r.2

def isIndent (c : Char) : Bool := c = ' ' || c = '\t'

def isDelimiter (c : Char) : Bool :=
  c = ',' || c = '=' || c = '[' || c = ']' || c = '.' || c = '%' || c = '#'

def trimEnd : Text → Text
  | [] => []
  | c :: s =>
    match trimEnd s with
    | [] => if isBlank c then [] else [c]
    | r => c :: r

/-- Drops the lines at the start that hold only spaces and tabs and are ended by a newline; `whole`
is the text from the start of the line that `s` continues. -/
def dropBlankLinesFrom (whole : Text) : Text → Text
  | [] => whole
  | c :: s =>
    if c = '\n' then dropBlankLinesFrom s s
    else if isIndent c then dropBlankLinesFrom whole s
    else whole

def dropBlankLines (s : Text) : Text := dropBlankLinesFrom s s

theorem isBlank_of_isIndent {c : Char} (h : isIndent c = true) : isBlank c = true := by
  rcases (by simpa [isIndent] using h : c = ' ' ∨ c = '\t') with rfl | rfl <;> decide

theorem isBlank_newline : isBlank '\n' = true := by decide

end AsciiDoc.Text
