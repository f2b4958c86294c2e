import AsciiDoc.Grammar.Rules
import AsciiDoc.Grammar.SyntaxError

namespace AsciiDoc.Node

def parse (ts : List Token) : Except SyntaxError Node :=
  (Grammar.document.run ts).mapError (SyntaxError.ofMisses ts)

end AsciiDoc.Node
