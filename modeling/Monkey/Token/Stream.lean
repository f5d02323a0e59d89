import Monkey.Token.Piece
/-!
# Token streams

The tokens of a source text, taken one at a time; behind the last one stands an end token that never runs out.  Tabs
are expanded before the text is cut, so the places of tokens count columns as they are displayed; the end token alone
is placed by the characters of the source as it stands.
-/
namespace Monkey

/-- A stream of tokens: those ahead, and the place of the end token. -/
structure TokenStream where
  ahead : List Token
  endPos : Pos

namespace TokenStream

def ofSource (source : String) : TokenStream where
  ahead := Piece.tokensFrom .start (pieces (Text.Tab.expand source.toList))
  endPos := Pos.start.after source.toList

def eof (s : TokenStream) : Token := .atEnd s.endPos

/-- The next token and the stream behind it. -/
def next (s : TokenStream) : Token × TokenStream :=
  match s.ahead with
  | [] => (s.eof, s)
  | t :: rest => (t, { s with ahead := rest })

/-- All tokens ahead, the end token included. -/
def toList (s : TokenStream) : List Token := s.ahead ++ [s.eof]

/-- The stream behind its last token. -/
def drain (s : TokenStream) : TokenStream := { s with ahead := [] }

end TokenStream

def tokenize (source : String) : List Token := (TokenStream.ofSource source).toList

end Monkey
