import JackLang.Project

/-! The command line: what its arguments request, and what a run prints. -/

namespace JackLang.CommandLine

/-! ### Arguments -/

/-- What to compile and where to. -/
structure Job where
  input : String
  output? : Option String
  suffix : String
  traced : Bool
deriving DecidableEq, Repr

inductive Request
  | compile (job : Job)
  | version
  | help
deriving DecidableEq, Repr

/-- Why arguments request nothing. -/
inductive UsageFault
  | unknown (argument : String)
  | repeated (argument : String)
  | missingValue (argument : String)
  | missingInput
deriving DecidableEq, Repr

namespace UsageFault

def message : UsageFault → String
  | unknown argument => s!"unexpected argument '{argument}' found"
  | repeated argument => s!"the argument '{argument}' cannot be used multiple times"
  | missingValue argument => s!"a value is required for '{argument}' but none was supplied"
  | missingInput => "the following required arguments were not provided:\n  <INPUT>"

end UsageFault

/-- The options that take a value. -/
inductive Setting
  | output | suffix
deriving DecidableEq, Repr

namespace Setting

def text : Setting → String
  | output => "--output <OUTPUT>"
  | suffix => "--suffix <SUFFIX>"

end Setting

/-- What the arguments so far have set. -/
structure Settings where
  input? : Option String := none
  output? : Option String := none
  suffix? : Option String := none
  traced : Bool := false
deriving DecidableEq, Repr

namespace Settings

/-- The one argument that is not an option; it is a path and not empty. -/
def setInput (s : Settings) (value : String) : Except UsageFault Settings :=
  if s.input?.isSome then .error (.unknown value)
  else if value.isEmpty then .error (.missingValue "<INPUT>")
  else .ok { s with input? := some value }

/-- An option is set once. The output directory is a path and not empty. -/
def set (s : Settings) (setting : Setting) (value : String) : Except UsageFault Settings :=
  match setting with
  | .output =>
    if s.output?.isSome then .error (.repeated setting.text)
    else if value.isEmpty then .error (.missingValue setting.text)
    else .ok { s with output? := some value }
  | .suffix =>
    if s.suffix?.isSome then .error (.repeated setting.text)
    else .ok { s with suffix? := some value }

def setTraced (s : Settings) : Except UsageFault Settings :=
  if s.traced then .error (.repeated "--enable-parse-tree") else .ok { s with traced := true }

def request (s : Settings) : Except UsageFault Request :=
  match s.input? with
  | none => .error .missingInput
  | some input => .ok (.compile ⟨input, s.output?, s.suffix?.getD "", s.traced⟩)

end Settings

/-- What reading an argument leads to. -/
inductive Step
  | next (settings : Settings)
  /-- The next argument is the value of an option. -/
  | value (setting : Setting) (settings : Settings)
  /-- The request is known, whatever follows. -/
  | done (request : Request)
deriving DecidableEq, Repr

/-- An option of one letter that takes a value, with what follows it in its argument: the value,
perhaps behind an equals sign. -/
def shortSetting (setting : Setting) (s : Settings) : List Char → Except UsageFault Step
  | [] => .ok (.value setting s)
  | '=' :: value => .next <$> s.set setting (.ofList value)
  | value => .next <$> s.set setting (.ofList value)

/-- Options of one letter, in one argument. -/
def shortOptions : List Char → Settings → Except UsageFault Step
  | [], s => .ok (.next s)
  | 'p' :: options, s => do shortOptions options (← s.setTraced)
  | 'v' :: options, s => shortOptions options s
  | 'V' :: _, _ => .ok (.done .version)
  | 'h' :: _, _ => .ok (.done .help)
  | 'o' :: value, s => shortSetting .output s value
  | 's' :: value, s => shortSetting .suffix s value
  | c :: _, _ => .error (.unknown (.ofList ['-', c]))

/-- A long option that takes a value, which may follow an equals sign. -/
def longSetting (setting : Setting) (s : Settings) : Option String → Except UsageFault Step
  | none => .ok (.value setting s)
  | some value => .next <$> s.set setting value

/-- An option by its name, and the value behind an equals sign if there is one. -/
def longOption (name : String) (value? : Option String) (s : Settings) : Except UsageFault Step :=
  match name, value? with
  | "output", _ => longSetting .output s value?
  | "suffix", _ => longSetting .suffix s value?
  | "enable-parse-tree", none => .next <$> s.setTraced
  | "verbose", none => .ok (.next s)
  | "version", none => .ok (.done .version)
  | "help", none => .ok (.done .help)
  | _, _ => .error (.unknown s!"--{name}")

/-- A text up to its first equals sign, and what follows the sign. -/
def splitValue (text : List Char) : String × Option String :=
  let name := String.ofList (text.takeWhile (· ≠ '='))
  match text.dropWhile (· ≠ '=') with
  | [] => (name, none)
  | _ :: value => (name, some (.ofList value))

/-- Reads an argument: an option, or the input. -/
def readArgument (argument : String) (s : Settings) : Except UsageFault Step :=
  match argument.toList with
  | '-' :: '-' :: option =>
    let (name, value?) := splitValue option
    longOption name value? s
  | '-' :: c :: options => shortOptions (c :: options) s
  | _ => .next <$> s.setInput argument

/-- Whether an argument reads as an option, and so is not the value of one. -/
def isOption (argument : String) : Bool :=
  match argument.toList with
  | '-' :: _ :: _ => true
  | _ => false

/-- Reads arguments from left to right. The first fault, or the first request for the version or for
help, decides. -/
def readArguments (s : Settings) : List String → Except UsageFault Request
  | [] => s.request
  | "--" :: inputs => do (← inputs.foldlM Settings.setInput s).request
  | argument :: rest => do
    match ← readArgument argument s, rest with
    | .next s, rest => readArguments s rest
    | .done request, _ => return request
    | .value setting _, [] => throw (.missingValue setting.text)
    | .value setting s, value :: rest =>
      if isOption value then throw (.missingValue setting.text)
      else readArguments (← s.set setting value) rest

/-! ### Runs -/

/-- What a run prints, and its exit code. -/
structure Report where
  stdout : String := ""
  stderr : String := ""
  exitCode : Nat := 0
deriving DecidableEq, Repr

namespace Report

def print (r : Report) (text : String) : Report := { r with stdout := r.stdout ++ text }

/-- Tells of a unit that is not done. -/
def complain (r : Report) (text : String) : Report :=
  { r with stderr := r.stderr ++ text, exitCode := 1 }

/-- Ends a run that has nothing to compile. -/
def refuse (text : String) : Report := { stderr := text, exitCode := 2 }

/-- Ends a run in the middle. What the system prints of that is left out. -/
def abort (r : Report) : Report := { r with exitCode := 101 }

end Report

def versionText : String := "JackCompiler 2.0.0\n"

def usageText : String := "Usage: JackCompiler [OPTIONS] <INPUT>\n"

def helpText : String :=
  "Single-pass Jack to VM code compiler\n\n" ++ usageText ++
  "\nArguments:\n" ++
  "  <INPUT>  Input file or directory\n" ++
  "\nOptions:\n" ++
  "  -o, --output <OUTPUT>    Output directory (defaults to input directory)\n" ++
  "  -s, --suffix <SUFFIX>    Appended to each output file stem, " ++
  "e.g. \x60Main.out.vm\x60 [default: ]\n" ++
  "  -p, --enable-parse-tree  Also write the parse-tree trace as \x60<name><suffix>.xml\x60\n" ++
  "  -v, --verbose...         Increase log verbosity (-v info, -vv debug, -vvv trace)\n" ++
  "  -h, --help               Print help\n" ++
  "  -V, --version            Print version\n"

def hintText : String := "For more information, try '--help'.\n"

variable {m : Type → Type} [Monad m] [FileAccess m]

/-- Writes a unit and tells of it. A diagnostic that cannot be laid out aborts the run. -/
def finish (directory suffix : String) (r : Report) (c : Compilation) :
    m (ForInStep Report) := do
  match c.diagnostic? with
  | some (.error _) => return .done r.abort
  | some (.ok diagnostic) => return .yield (r.complain diagnostic)
  | none =>
    match ← c.write directory suffix with
    | .ok () => return .yield (r.print s!"Compiled {c.name}.jack -> {c.name}{suffix}.vm\n")
    | .error error =>
      return .yield (r.complain s!"Error writing {c.name}{suffix}.vm: {error.message}\n")

/-- Finishes units one after the other, as far as the run goes. -/
def finishAll (directory suffix : String) (r : Report) : List Compilation → m Report
  | [] => return r
  | c :: units => do
    match ← finish directory suffix r c with
    | .done r => return r
    | .yield r => finishAll directory suffix r units

/-- Compiles the input, every unit before the first is written. -/
def runJob (job : Job) : m Report := do
  if ← FileAccess.isFile job.input then
    let unit ← compileFile job.input job.traced
    finishAll (job.output?.getD (Path.parent job.input)) job.suffix {} [unit]
  else if ← FileAccess.isDirectory job.input then
    match ← compileDirectory job.input job.traced with
    | [] => return .refuse s!"Error: No .jack files found in {job.input}\n"
    | units => finishAll (job.output?.getD job.input) job.suffix {} units
  else return .refuse s!"Error: Input not found: {job.input}\n"

/-- Does what some arguments request. -/
def run (arguments : List String) : m Report := do
  match readArguments {} arguments with
  | .ok (.compile job) => runJob job
  | .ok .version => return { stdout := versionText }
  | .ok .help => return { stdout := helpText }
  | .error fault => return .refuse s!"error: {fault.message}\n\n{usageText}\n{hintText}"

end JackLang.CommandLine
