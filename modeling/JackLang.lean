import JackLang.Main
import JackLang.Proofs.Environment.Basic
import JackLang.Proofs.Environment.Scopes
import JackLang.Proofs.Environment.Requests
import JackLang.Proofs.Syntax.Tree
import JackLang.Proofs.Syntax.Translation
import JackLang.Proofs.Syntax.Resolution
import JackLang.Proofs.Emission
import JackLang.Proofs.Parser.Reading
import JackLang.Proofs.Parser.Soundness
import JackLang.Proofs.Parser.Completeness
import JackLang.Proofs.Parser.Declarations
import JackLang.Proofs.Parser.Class
import JackLang.Proofs.Engine.Basic
import JackLang.Proofs.Engine.Expression
import JackLang.Proofs.Engine.Statement
import JackLang.Proofs.Engine.Declarations
import JackLang.Proofs.Engine.Class
import JackLang.Proofs.Engine.Blindness
import JackLang.Proofs.Acceptance
import JackLang.Proofs.Compilation
import JackLang.Proofs.Machine.Runs
import JackLang.Proofs.Semantics
import JackLang.Proofs.Syntax.Unambiguity
import JackLang.Proofs.Syntax.Blocks
import JackLang.Proofs.Syntax.Labels
import JackLang.Proofs.Simulation.Expression
import JackLang.Proofs.Simulation.Statement
import JackLang.Proofs.Simulation.Class
import JackLang.Proofs.Heights
import JackLang.Proofs.StackDiscipline
import JackLang.Proofs.Syntax.Capacity
import JackLang.Proofs.Syntax.Jumps
import JackLang.Proofs.Legibility
import JackLang.Proofs.Jumps
import JackLang.Proofs.Arity
import JackLang.Proofs.Syntax.Leaves
import JackLang.Proofs.Prediction.Basic
import JackLang.Proofs.Syntax.Outline
import JackLang.Proofs.Prediction.Expression
import JackLang.Proofs.Prediction.Statement
import JackLang.Proofs.Prediction.Declaration
import JackLang.Proofs.Prediction.Class
import JackLang.Proofs.Errors
import JackLang.Proofs.Syntax.Renaming
import JackLang.Proofs.Syntax.Origin
import JackLang.Proofs.FrameBounds
import JackLang.Proofs.Receiver
import JackLang.Proofs.Independence
import JackLang.Proofs.Lockstep.Basic
import JackLang.Proofs.Lockstep.Productions
import JackLang.Proofs.Layout
import JackLang.Proofs.Scanning
import JackLang.Proofs.FailFast
import JackLang.Proofs.Places
import JackLang.Proofs.Truncation
import JackLang.Proofs.Text
import JackLang.Proofs.Trace.Document
import JackLang.Proofs.Trace.Leaves
import JackLang.Proofs.Trace.Productions
import JackLang.Proofs.Trace.Faithful
import JackLang.Proofs.Lexis.Printing
import JackLang.Proofs.Files.Runs
import JackLang.Proofs.Caret
import JackLang.Proofs.Lexis.Requests
import JackLang.Proofs.Lexis.Progress
import JackLang.Proofs.Lexis.Recovery
import JackLang.Proofs.Lexis.Cursor
import JackLang.Proofs.Lexis.Bounds
import JackLang.Proofs.Source
import JackLang.Proofs.Excerpt
import JackLang.Proofs.Labels
import JackLang.Proofs.Writing
import JackLang.Proofs.Procedure.Basic
import JackLang.Proofs.Procedure.Grammar
import JackLang.Proofs.Procedure.Runs
import JackLang.Proofs.Procedure.Steps
import JackLang.Proofs.Procedure.Levels
import JackLang.Proofs.Procedure.Descent
import JackLang.Proofs.Procedure.Performs
import JackLang.Proofs.Procedure.Productions
import JackLang.Proofs.Traffic
import JackLang.Proofs.Nesting
import JackLang.Proofs.Literals
