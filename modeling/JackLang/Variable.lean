import JackLang.Instr

/-! Variables: their declared types, and their kinds, which fix the scope they live in and the
segment that holds them. -/

namespace JackLang

inductive VarType
  | int | char | boolean
  | object (className : String)
deriving DecidableEq, Repr

namespace VarType

def text : VarType → String
  | int => "int"
  | char => "char"
  | boolean => "boolean"
  | object className => className

end VarType

inductive VarKind
  | static | field | argument | «local»
deriving DecidableEq, Repr

namespace VarKind

def text : VarKind → String
  | static => "static" | field => "field" | argument => "argument" | «local» => "local"

def all : List VarKind := [static, field, argument, «local»]

def ofText? (word : String) : Option VarKind := all.find? (·.text == word)

def segment : VarKind → Segment
  | static => .static | field => .this | argument => .argument | «local» => .local

/-- Statics and fields belong to the class, arguments and locals to one subroutine. -/
def isClassLevel : VarKind → Bool
  | static | field => true
  | argument | «local» => false

end VarKind

/-- A declared variable; `index` is its position among the variables of its kind. -/
structure Variable where
  name : String
  type : VarType
  kind : VarKind
  index : Nat
deriving DecidableEq, Repr

namespace Variable

def segment (v : Variable) : Segment := v.kind.segment

end Variable
end JackLang
