import StreamTopology.CommandLine

/-!
# The program

Reads the description of a topology from a file and writes the source of the application to another.
-/

namespace StreamTopology

namespace CommandLine

/-- Writes the source of the topology in one file to another. The result is the exit code. -/
def generateFile (input output : String) : IO UInt32 := do
  let fail (f : Failure) : IO UInt32 := do
    IO.eprint f.text
    pure 1
  let read ← (IO.FS.readFile input).toBaseIO
  match read with
  | .error e => fail (.unreadable input (toString e))
  | .ok text =>
    match sourceOf input text with
    | .error f => fail f
    | .ok spl =>
      match ← (IO.FS.writeFile output spl).toBaseIO with
      | .error e => fail (.unwritable output (toString e))
      | .ok _ => pure 0

end CommandLine

end StreamTopology

open StreamTopology in
/-- Does what the arguments ask for. -/
def main (args : List String) : IO UInt32 :=
  match CommandLine.parse args with
  | .generate input output => CommandLine.generateFile input output
  | .version => do
    IO.print CommandLine.versionText
    pure 0
  | .help => do
    IO.print CommandLine.usageText
    pure 0
  | .misuse => do
    IO.eprint CommandLine.usageText
    pure 2
