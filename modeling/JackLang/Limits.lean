/-! Capacities of the language and of the stack machine's words. -/

namespace JackLang

/-- The largest value that a constant may have. -/
def maxConstant : Nat := 32767

/-- The largest count an instruction can carry, and the number of variables of one kind that a scope
has room for. -/
def maxCount : Nat := 65535

/-- The value at which integer literals saturate. -/
def maxLiteral : Nat := 4294967295

/-- How many statement blocks and terms may enclose each other. -/
def maxNesting : Nat := 64

end JackLang
