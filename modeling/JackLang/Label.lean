import JackLang.Error
import Std.Data.HashMap

/-! Labels of the jumps that branches and loops compile to. Each occurrence of a construct takes a
pair of labels, numbered from 0 for its class, subroutine and construct. -/

namespace JackLang

inductive Construct
  | «if» | «while»
deriving DecidableEq, Repr, Hashable

/-- Why no label can be given out. -/
inductive LabelFault
  | outsideSubroutine
  | unknownConstruct (word : String)
deriving DecidableEq, Repr

namespace LabelFault

def report : LabelFault → Error
  | outsideSubroutine => .precondition "label requested outside of a class subroutine"
  | unknownConstruct word =>
    .precondition s!"unknown control construct '{word}', expected 'if' or 'while'"

end LabelFault

namespace Construct

def ofText (word : String) : Except LabelFault Construct :=
  if word = "if" then .ok .if
  else if word = "while" then .ok .while
  else .error (.unknownConstruct word)

/-- For a branch, where the condition does not hold and where both cases meet; for a loop, its start
and its end. -/
def firstBase : Construct → String
  | .if => "IF_FALSE"
  | .while => "WHILE_EXP"

def secondBase : Construct → String
  | .if => "IF_END"
  | .while => "WHILE_END"

end Construct

/-- The text of a label: class, subroutine, base name and the number of the occurrence. -/
def labelText (className subroutine base : String) (number : Nat) : String :=
  s!"{className}.{subroutine}${base}{number}"

structure LabelPair where
  first : String
  second : String
deriving DecidableEq, Repr

/-- How many pairs each class, subroutine and construct has taken, in words of 32 bits. -/
structure Labels where
  taken : Std.HashMap (String × String × Construct) UInt32 := {}

namespace Labels

/-- The next pair of an occurrence in a subroutine. -/
def draw (labels : Labels) (className subroutine : String) (construct : Construct) :
    LabelPair × Labels :=
  let key := (className, subroutine, construct)
  let number := labels.taken[key]?.getD 0
  (⟨labelText className subroutine construct.firstBase number.toNat,
    labelText className subroutine construct.secondBase number.toNat⟩,
    ⟨labels.taken.insert key (number + 1)⟩)

/-- The next pair of an occurrence, for which both names must be given. -/
@[inline] def next (labels : Labels) (className subroutine : String) (construct : Construct) :
    Except LabelFault (LabelPair × Labels) :=
  if className.isEmpty || subroutine.isEmpty then .error .outsideSubroutine
  else .ok (labels.draw className subroutine construct)

end Labels
end JackLang
