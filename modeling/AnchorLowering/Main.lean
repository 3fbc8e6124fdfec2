import AnchorLowering.CommandLine

/-!
# The program

Reads the model, runs the command, shows its report and writes its file.
-/

namespace AnchorLowering.CommandLine

/-- The text of a file, if it can be read. -/
def readModel (path : Text) : IO (Option Text) := do
  try
    let content ← IO.FS.readFile (String.ofList path)
    return some content.toList
  catch _ => return none

end AnchorLowering.CommandLine

open AnchorLowering

def main (args : List String) : IO UInt32 := do
  let command := CommandLine.Command.parse (args.map String.toList)
  let content ← match command.model? with
    | some path => CommandLine.readModel path
    | none => pure none
  let result := command.run content
  if result.exitCode == 0 then IO.println (String.ofList result.report)
  else IO.eprintln (String.ofList result.report)
  if let some (path, text) := result.file then
    IO.FS.writeFile (String.ofList path) (String.ofList text)
  return UInt32.ofNat result.exitCode
