/-! Text inside a tag document: the four characters with a meaning there are written as entities. -/

namespace JackLang.Text

/-- The written form of one character. -/
def escapeChar (c : Char) : List Char :=
  match c with
  | '<' => ['&', 'l', 't', ';']
  | '>' => ['&', 'g', 't', ';']
  | '&' => ['&', 'a', 'm', 'p', ';']
  | '"' => ['&', 'q', 'u', 'o', 't', ';']
  | c => [c]

/-- The written form of a text. -/
def escape (s : String) : String :=
  .ofList (s.toList.flatMap escapeChar)

end JackLang.Text
