import AsciiDoc.Document.Printer
import AsciiDoc.Error
import AsciiDoc.Tree.OfTokens

namespace AsciiDoc

/-- The source that is read for a text: blank lines at the start and blanks at the end are dropped,
and a newline is put in front, so that every line stands behind one. -/
def normalize (text : Text) : Text := '\n' :: Text.trimEnd (Text.dropBlankLines text)

def Document.ofTokens (ts : List Token) : Except Error Document := do
  let tree ← (Node.parse ts).mapError .syntactic
  tree.toDocument.mapError .structural

def parse (c : Config) (text : Text) : Except Error Document := do
  let ts ← (tokenize c.legacyIds (normalize text)).mapError .lexical
  Document.ofTokens ts

def format (c : Config) (text : Text) : Except Error Text := (parse c text).map (Document.print c)

end AsciiDoc
