import PacketFec.CommandLine.Output

/-!
# The program

The thin outer layer: read the arguments and the input file, print the output, write the report.
-/

namespace PacketFec

/-- The name and the version of the program. -/
def versionText : String := "shardfec 0.1.0"

/-- How the program is called. -/
def usageText : String :=
  "Usage: shardfec [-v] (simulate [OPTIONS] | inspect [OPTIONS] PACKET | config [OPTIONS])"

/-- The content of a file, if it can be read. -/
def readFile? (path : String) : IO (Option ByteArray) := do
  try return some (← IO.FS.readBinFile path)
  catch _ => return none

/-- Write a file, and say whether that was possible. -/
def writeFile (path text : String) : IO Bool := do
  try
    IO.FS.writeFile path text
    return true
  catch _ => return false

/-- Print a failure and its cause. -/
def printFailure (f : Failure) : IO Unit := do
  IO.eprintln ("Error: " ++ f.context)
  if let some below := f.causeMessage? then IO.eprintln ("\nCaused by:\n    " ++ below)

/-- Run a command, and give the exit code. -/
def execute (command : Command) : IO UInt32 := do
  let content ← match command.inputFile? with
    | some path => readFile? path
    | none => pure none
  let colours := ((← IO.getEnv "CLICOLOR_FORCE").map (· != "0")).getD false
  let output := command.run content colours
  for line in output.lines do IO.println line
  if let some f := output.failure then printFailure f
  if let some (path, text) := output.report then
    unless ← writeFile path text do
      printFailure (.unwritable path)
      return 1
  return UInt32.ofNat output.exitCode

end PacketFec

open PacketFec in
/-- Run the command that the arguments ask for. -/
def main (args : List String) : IO UInt32 := do
  match Command.parse args with
  | .ok command => execute command
  | .error .version =>
    IO.println versionText
    return 0
  | .error .help =>
    IO.println usageText
    return 0
  | .error .usage =>
    IO.eprintln usageText
    return 2
