import JackLang.CommandLine

/-! The program: the command line on the files of the system. -/

namespace JackLang

/-- Why an operation on files failed. -/
def ioReason : IO.Error → String
  | .noFileOrDirectory _ code details | .inappropriateType _ code details
  | .permissionDenied _ code details | .invalidArgument _ code details =>
    s!"{details} (os error {code})"
  | error => toString error

/-- The outcome of an operation, or the reason why it failed. -/
def tryIO {α : Type} (action : IO α) : IO (Except String α) := do
  return (← action.toBaseIO).mapError ioReason

instance : FileAccess IO where
  isFile path := do
    let path := (← IO.currentDir) / path
    return (← path.pathExists) && !(← path.isDir)
  isDirectory path := do ((← IO.currentDir) / path).isDir
  read path := do
    match ← tryIO (IO.FS.readBinFile path) with
    | .ok bytes =>
      match String.fromUTF8? bytes with
      | some text => return .ok text
      | none => return .error PathFault.notText.reason
    | .error reason => return .error reason
  entries path := tryIO do
    let entries ← ((← IO.currentDir) / path).readDir
    return entries.toList.map (·.fileName)
  write path text := tryIO (IO.FS.writeFile path text)

end JackLang

def main (arguments : List String) : IO UInt32 := do
  let report ← JackLang.CommandLine.run arguments
  (← IO.getStdout).putStr report.stdout
  (← IO.getStderr).putStr report.stderr
  return report.exitCode.toUInt32
