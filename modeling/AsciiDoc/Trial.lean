import AsciiDoc.Expectation
import AsciiDoc.Format

namespace AsciiDoc.Trial

def tokens (source : Text) : Except String (List Token) :=
  (tokenize true source).mapError fun e =>
    "lexing " ++ Report.text source ++ " failed: " ++ e.message

def format (c : Config) (text : Text) : Except String Text :=
  (AsciiDoc.format c text).mapError fun e =>
    "formatting " ++ Report.text text ++ " failed: " ++ e.message

def formatTwice (c : Config) (text : Text) : Except String Text := do
  let once ← format c text
  let twice ← format c once
  Report.demand Report.text
    (some ("formatting is not idempotent for " ++ Report.text text ++ " with " ++ c.describe))
    twice once
  return once

end AsciiDoc.Trial
