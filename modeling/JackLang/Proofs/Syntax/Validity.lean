import JackLang.Limits
import JackLang.Proofs.Environment.Basic
import JackLang.Proofs.Syntax.Tree
import Mathlib.Tactic.MkIffOfInductiveProp

/-! What the language asks of a tree beyond the grammar (`Class.Valid`): scoping, where the current
object may be used, and the capacities. -/

namespace JackLang.Syntax

/-! ### What a tree declares -/

def Declaration.declared (kind : VarKind) (d : Declaration) : List Declared :=
  d.names.map (⟨·, d.type, kind⟩)

namespace Class

/-- The statics and fields of a class. -/
def declared (c : Class) : List Declared :=
  c.declarations.flatMap fun d => d.2.declared d.1.kind

end Class

namespace Subroutine

/-- The current object, which is the first argument of a method. -/
def receiver (className : String) (kind : SubroutineKind) : List Declared :=
  match kind with
  | .constructor | .function => []
  | .method => [⟨"this", .object className, .argument⟩]

def declaredParameters (s : Subroutine) : List Declared :=
  s.parameters.map fun p => ⟨p.name, p.type, .argument⟩

def declaredLocals (s : Subroutine) : List Declared := s.locals.flatMap (·.declared .local)

/-- The names that a subroutine declares itself. -/
def written (s : Subroutine) : List Declared := s.declaredParameters ++ s.declaredLocals

def declared (className : String) (s : Subroutine) : List Declared :=
  receiver className s.kind ++ s.written

end Subroutine

/-- Where in a class a phrase stands. -/
structure Site where
  className : String
  kind : SubroutineKind
  environment : Environment

/-- What a name stands for. -/
def Site.find? (site : Site) (name : String) : Option Variable := site.environment.find? name

/-- The place of the body of a subroutine. -/
def Class.site (c : Class) (s : Subroutine) : Site :=
  ⟨c.name, s.kind, c.declared, s.declared c.name⟩

/-! ### Conditions on phrases -/

/-- What is asked of one term in a subroutine of a kind, of names that are declared. -/
def Term.Allowed (kind : SubroutineKind) (Declares : String → Prop) : Term → Prop
  | .integer value => value ≤ maxConstant
  | .string text => text.length ≤ maxConstant ∧ ∀ c ∈ text.toList, c.toNat ≤ maxConstant
  | .this | .call none _ _ => kind ≠ .function
  | .variable name | .element name _ => Declares name
  | .constant _ | .call (some _) _ _ | .group _ | .unary _ _ => True

/-- What is asked of one statement. -/
def Statement.Allowed (kind : SubroutineKind) (Declares : String → Prop) : Statement → Prop
  | .assign name _ | .assignElement name _ _ => Declares name
  | .call none _ _ => kind ≠ .function
  | .call (some _) _ _ | .ifThen _ _ | .ifElse _ _ _ | .while _ _ | .return _ => True

section decidable

variable (kind : SubroutineKind) (Declares : String → Prop) [DecidablePred Declares]

instance : DecidablePred (Term.Allowed kind Declares)
  | .integer value => inferInstanceAs (Decidable (value ≤ maxConstant))
  | .string text => @instDecidableAnd _ _ _ (List.decidableBAll _ text.toList)
  | .this | .call none _ _ => inferInstanceAs (Decidable (kind ≠ .function))
  | .variable name | .element name _ => inferInstanceAs (Decidable (Declares name))
  | .constant _ | .call (some _) _ _ | .group _ | .unary _ _ => inferInstanceAs (Decidable True)

instance : DecidablePred (Statement.Allowed kind Declares)
  | .assign name _ | .assignElement name _ _ => inferInstanceAs (Decidable (Declares name))
  | .call none _ _ => inferInstanceAs (Decidable (kind ≠ .function))
  | .call (some _) _ _ | .ifThen _ _ | .ifElse _ _ _ | .while _ _ | .return _ =>
    inferInstanceAs (Decidable True)

end decidable

/-- A name is declared by a subroutine or by its class. -/
def Class.Declares (c : Class) (s : Subroutine) (name : String) : Prop :=
  name ∈ s.written.map (·.name) ∨ name ∈ c.declared.map (·.name)

instance (c : Class) (s : Subroutine) : DecidablePred (c.Declares s) := fun name =>
  inferInstanceAs (Decidable
    (name ∈ s.written.map (·.name) ∨ name ∈ c.declared.map (·.name)))

@[mk_iff]
structure Subroutine.Valid (c : Class) (s : Subroutine) : Prop where
  nodup : (s.written.map (·.name)).Nodup
  /-- The current object of a method is one of its arguments. -/
  arguments_le : Declared.count .argument (s.declared c.name) ≤ maxCount
  locals_le : Declared.count .local (s.declared c.name) ≤ maxCount
  statements : ∀ statement ∈ s.statements, statement.Allowed s.kind (c.Declares s)
  terms : ∀ term ∈ s.terms, term.Allowed s.kind (c.Declares s)
  depth_le : s.depth ≤ maxNesting

instance (c : Class) (s : Subroutine) : Decidable (s.Valid c) :=
  decidable_of_iff' _ (s.valid_iff c)

@[mk_iff]
structure Class.Valid (c : Class) : Prop where
  nodup : (c.declared.map (·.name)).Nodup
  statics_le : Declared.count .static c.declared ≤ maxCount
  fields_le : Declared.count .field c.declared ≤ maxCount
  constructor_fields_le : ∀ s ∈ c.subroutines, s.kind = .constructor →
    Declared.count .field c.declared ≤ maxConstant
  subroutines : ∀ s ∈ c.subroutines, s.Valid c

instance (c : Class) : Decidable c.Valid := decidable_of_iff' _ c.valid_iff

/-! ### Calls within the capacity of an instruction -/

/-- The instruction of a call can count the arguments, and the current object among them. -/
def Term.CallFits : Term → Prop
  | .call _ _ arguments => arguments.length < maxCount
  | _ => True

def Statement.CallFits : Statement → Prop
  | .call _ _ arguments => arguments.length < maxCount
  | _ => True

instance : DecidablePred Term.CallFits
  | .call _ _ arguments => inferInstanceAs (Decidable (arguments.length < maxCount))
  | .integer _ | .string _ | .constant _ | .this | .variable _ | .element _ _ | .group _
  | .unary _ _ => inferInstanceAs (Decidable True)

instance : DecidablePred Statement.CallFits
  | .call _ _ arguments => inferInstanceAs (Decidable (arguments.length < maxCount))
  | .assign _ _ | .assignElement _ _ _ | .ifThen _ _ | .ifElse _ _ _ | .while _ _ | .return _ =>
    inferInstanceAs (Decidable True)

@[mk_iff]
structure Subroutine.CallsFit (s : Subroutine) : Prop where
  statements : ∀ statement ∈ s.statements, statement.CallFits
  terms : ∀ term ∈ s.terms, term.CallFits

instance (s : Subroutine) : Decidable s.CallsFit := decidable_of_iff' _ s.callsFit_iff

/-- No call of the class writes more arguments than an instruction counts beside the receiver. -/
def Class.CallsFit (c : Class) : Prop := ∀ s ∈ c.subroutines, s.CallsFit

instance (c : Class) : Decidable c.CallsFit :=
  inferInstanceAs (Decidable (∀ s ∈ c.subroutines, s.CallsFit))

end JackLang.Syntax
