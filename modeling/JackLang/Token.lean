import JackLang.Span
import JackLang.Text.Markup

/-! Tokens of the language: keywords, symbols, constants and identifiers, with the texts by which
listings and error messages name them. -/

namespace JackLang

/-! ### Keywords -/

inductive Keyword
  | «class» | constructor | function | method | field | static | var
  | int | char | boolean | void
  | «true» | «false» | null | this
  | «let» | «do» | «if» | «else» | «while» | «return»
deriving DecidableEq, Repr

namespace Keyword

def text : Keyword → String
  | «class» => "class" | constructor => "constructor" | function => "function"
  | method => "method" | field => "field" | static => "static" | var => "var"
  | int => "int" | char => "char" | boolean => "boolean" | void => "void"
  | «true» => "true" | «false» => "false" | null => "null" | this => "this"
  | «let» => "let" | «do» => "do" | «if» => "if" | «else» => "else"
  | «while» => "while" | «return» => "return"

def all : List Keyword :=
  [«class», constructor, function, method, field, static, var, int, char, boolean, void,
    «true», «false», null, this, «let», «do», «if», «else», «while», «return»]

def ofText? (word : String) : Option Keyword :=
  all.find? (·.text == word)

theorem mem_all (k : Keyword) : k ∈ all := by cases k <;> decide

theorem ofText?_text (k : Keyword) : ofText? k.text = some k := by cases k <;> decide

end Keyword

/-! ### Symbols -/

inductive Symbol
  | openBrace | closeBrace | openParen | closeParen | openBracket | closeBracket
  | dot | comma | semicolon
  | plus | minus | star | slash | ampersand | bar | less | greater | equal | tilde
deriving DecidableEq, Repr

namespace Symbol

def char : Symbol → Char
  | openBrace => '{' | closeBrace => '}' | openParen => '(' | closeParen => ')'
  | openBracket => '[' | closeBracket => ']' | dot => '.' | comma => ',' | semicolon => ';'
  | plus => '+' | minus => '-' | star => '*' | slash => '/' | ampersand => '&' | bar => '|'
  | less => '<' | greater => '>' | equal => '=' | tilde => '~'

def all : List Symbol :=
  [openBrace, closeBrace, openParen, closeParen, openBracket, closeBracket, dot, comma, semicolon,
    plus, minus, star, slash, ampersand, bar, less, greater, equal, tilde]

def ofChar? (c : Char) : Option Symbol :=
  all.find? (·.char == c)

theorem mem_all (s : Symbol) : s ∈ all := by cases s <;> decide

theorem ofChar?_char (s : Symbol) : ofChar? s.char = some s := by cases s <;> decide

end Symbol

/-! ### Tokens -/

/-- What a listing calls a token. -/
inductive Category
  | keyword | symbol | integerConstant | stringConstant | identifier
deriving DecidableEq, Repr

namespace Category

def text : Category → String
  | keyword => "keyword"
  | symbol => "symbol"
  | integerConstant => "integerConstant"
  | stringConstant => "stringConstant"
  | identifier => "identifier"

end Category

inductive Token
  | keyword (keyword : Keyword)
  | symbol (symbol : Symbol)
  | integer (value : Nat)
  | string (text : String)
  | identifier (name : String)
deriving DecidableEq, Repr

namespace Token

def category : Token → Category
  | keyword _ => .keyword
  | symbol _ => .symbol
  | integer _ => .integerConstant
  | string _ => .stringConstant
  | identifier _ => .identifier

/-- The characters a token stands for. -/
def value : Token → String
  | keyword k => k.text
  | symbol s => s.char.toString
  | integer n => toString n
  | string s => s
  | identifier name => name

/-- The value as a tag document shows it. -/
def markup (t : Token) : String := Text.escape t.value

/-- How an error message names a token. -/
def describe : Token → String
  | keyword k => s!"keyword '{k.text}'"
  | symbol s => s!"symbol '{s.char}'"
  | integer n => s!"integer {n}"
  | string s => s!"string \"{s}\""
  | identifier name => s!"identifier '{name}'"

end Token

/-- A token and the place of its first character. -/
structure Located where
  token : Token
  span : Span
deriving DecidableEq, Repr

end JackLang
