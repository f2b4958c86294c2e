import AsciiDoc.Document.OfTree
import AsciiDoc.Grammar.SyntaxError
import AsciiDoc.Token.Lexer

namespace AsciiDoc

inductive Error where
  | lexical (e : LexError)
  | syntactic (e : SyntaxError)
  | structural (e : TreeError)
  deriving DecidableEq, Repr

namespace Error

def message : Error → String
  | lexical e => e.message
  | syntactic e => e.message
  | structural e => e.message

end Error

end AsciiDoc
