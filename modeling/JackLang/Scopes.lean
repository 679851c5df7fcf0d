import JackLang.Fault
import Std.Data.HashMap

/-! The two scopes of names: the class with its statics and fields, and the current subroutine with
its arguments and locals. The subroutine's names hide those of the class. -/

namespace JackLang

/-- How many variables of each kind are declared. -/
structure Counts where
  static : Nat := 0
  field : Nat := 0
  argument : Nat := 0
  «local» : Nat := 0
deriving DecidableEq, Repr

namespace Counts

def get (c : Counts) : VarKind → Nat
  | .static => c.static
  | .field => c.field
  | .argument => c.argument
  | .local => c.local

/-- One more variable of a kind. -/
def increase (c : Counts) : VarKind → Counts
  | .static => { c with static := c.static + 1 }
  | .field => { c with field := c.field + 1 }
  | .argument => { c with argument := c.argument + 1 }
  | .local => { c with «local» := c.local + 1 }

end Counts

structure Scopes where
  classLevel : Std.HashMap String Variable := {}
  subroutineLevel : Std.HashMap String Variable := {}
  counts : Counts := {}

namespace Scopes

def count (s : Scopes) (kind : VarKind) : Nat := s.counts.get kind

/-- A new subroutine starts with no names of its own. -/
def enterSubroutine (s : Scopes) : Scopes :=
  { s with subroutineLevel := {}, counts := { s.counts with argument := 0, «local» := 0 } }

/-- Whether the scope of a kind already has a name. -/
def declares (s : Scopes) (kind : VarKind) (name : String) : Bool :=
  if kind.isClassLevel then s.classLevel.contains name else s.subroutineLevel.contains name

def insert (s : Scopes) (v : Variable) : Scopes :=
  if v.kind.isClassLevel then
    { s with classLevel := s.classLevel.insert v.name v, counts := s.counts.increase v.kind }
  else
    { s with subroutineLevel := s.subroutineLevel.insert v.name v,
             counts := s.counts.increase v.kind }

/-- Declares a name, with the next free index of its kind. A name has one declaration in a scope,
and a kind has `maxCount` indices; a declaration at fault changes nothing. -/
def declare (name : String) (type : VarType) (kind : VarKind) (span : Span) :
    EStateM Fault Scopes Variable := fun s =>
  if s.declares kind name then .error (.duplicate name span) s
  else if maxCount ≤ s.count kind then .error (.tooManyVariables kind span) s
  else
    let v : Variable := ⟨name, type, kind, s.count kind⟩
    .ok v (s.insert v)

/-- The variable that a name stands for, the subroutine's first. -/
def find? (s : Scopes) (name : String) : Option Variable :=
  s.subroutineLevel[name]? <|> s.classLevel[name]?

def kind? (s : Scopes) (name : String) : Option VarKind := (s.find? name).map (·.kind)

def type? (s : Scopes) (name : String) : Option VarType := (s.find? name).map (·.type)

def index? (s : Scopes) (name : String) : Option Nat := (s.find? name).map (·.index)

def isDeclared (s : Scopes) (name : String) : Bool := (s.find? name).isSome

end Scopes
end JackLang
