/-! Places in a source text. -/

namespace JackLang

/-- Line and column, both counted from 1; columns count characters. -/
structure Span where
  line : Nat
  column : Nat
deriving DecidableEq, Repr, Inhabited

namespace Span

def text (s : Span) : String := s!"{s.line}:{s.column}"

end Span
end JackLang
