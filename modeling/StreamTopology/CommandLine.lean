import StreamTopology.Session

/-!
# Command line

What the arguments of the program ask for, and what it answers. Reading and writing files is left to
the caller.
-/

namespace StreamTopology

namespace CommandLine

/-- What the arguments ask for. -/
inductive Request where
  /-- The arguments make no sense. -/
  | misuse
  | help
  | version
  /-- Write the source of the topology in one file to another. -/
  | generate (input output : String)
  deriving DecidableEq, Repr

/-- Adds a file name to those given so far. There are at most two, and none is empty. -/
def addFile (files : List String) (arg : String) : Option (List String) :=
  if arg.isEmpty || 2 ≤ files.length then none else some (files ++ [arg])

/-- What the files ask for. -/
def requestOf : Option (List String) → Request
  | some [input, output] => .generate input output
  | _ => .misuse

/-- Reads arguments after those that gave the files so far. After `--` every argument is a file. -/
def parseFrom : List String → List String → Request
  | files, [] => requestOf (some files)
  | files, "--" :: args => requestOf (args.foldlM addFile files)
  | files, arg :: args =>
    if arg = "--help" then .help
    else if arg = "--version" then .version
    else
      match arg.toList with
      | '-' :: 'h' :: _ => .help
      | '-' :: 'V' :: _ => .version
      | '-' :: _ :: _ => .misuse
      | _ =>
        match addFile files arg with
        | some files => parseFrom files args
        | none => .misuse

/-- What the arguments ask for. -/
def parse (args : List String) : Request := parseFrom [] args

/-- The answer to a question for the version. -/
def versionText : String := "splgen 0.1.0\n"

/-- How the program is called. -/
def usageText : String := "Usage: splgen <GRAPH_JSON> <SPL_FILE>\n"

/-- Why no source was written. -/
inductive Failure where
  | unreadable (file cause : String)
  | unparsable (file : String) (cause : Error)
  | notGenerated (name : String) (cause : Error)
  | unwritable (file cause : String)

namespace Failure

/-- What the program tried to do. -/
def context : Failure → String
  | .unreadable file _ => "Failed to read graph " ++ file
  | .unparsable file _ => "Failed to parse graph " ++ file
  | .notGenerated name _ => "Failed to generate SPL for " ++ quoted name
  | .unwritable file _ => "Failed to write " ++ file

/-- What went wrong. -/
def cause : Failure → String
  | .unreadable _ cause | .unwritable _ cause => cause
  | .unparsable _ e | .notGenerated _ e => e.message

/-- What the program says about a failure. -/
def text (f : Failure) : String :=
  "Error: " ++ f.context ++ "\n\nCaused by:\n    " ++ f.cause ++ "\n"

end Failure

/-- The source of the topology that is described by the text of a file. -/
def sourceOf (file text : String) : Except Failure String := do
  let g ← (Graph.ofText text).mapError (.unparsable file)
  let generated ← (Session.generate {} g).result.mapError (.notGenerated g.name)
  pure generated.spl

end CommandLine

end StreamTopology
