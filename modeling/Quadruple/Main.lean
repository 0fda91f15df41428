import Quadruple.Golden.Run

/-!
# The command line

Takes the files that a command needs into memory, runs it, and writes what it changed. Under the
name `qgold` the program runs golden tests, under any other it compiles.
-/

namespace Quadruple.Shell

def readText? (path : String) : IO (Option String) :=
  try return some (← IO.FS.readFile path) catch _ => return none

def listDir? (path : String) : IO (Option (List String)) :=
  try
    let entries ← (← IO.FS.realPath path).readDir
    return some (entries.toList.map (·.fileName))
  catch _ => return none

def load (files : Files) (path : String) : IO Files := do
  if (← listDir? path).isSome then return files.addPath path none
  match ← readText? path with
  | some text => return files.addPath path (some text)
  | none => return files

/-- Adds a directory with all that is in it. -/
partial def loadTree (files : Files) (path : String) : IO Files := do
  match ← listDir? path with
  | none => load files path
  | some names =>
    names.foldlM (fun files name => loadTree files (path ++ "/" ++ name))
      (files.addPath path none)

def save (before after : Files) : IO Unit :=
  after.texts.forM fun (p, text) => do
    if before.text? p ≠ some text then IO.FS.writeFile ("/".intercalate p) text

def finish (before : Files) (out : Outcome) : IO UInt32 := do
  save before out.files
  IO.print out.stdout
  IO.eprint out.stderr
  return out.exitCode.toUInt32

def compile (args : List String) : IO UInt32 := do
  let files ← (Compiler.inputs args).foldlM load {}
  finish files (Compiler.run files args)

def golden (args : List String) : IO UInt32 := do
  let files ← (Golden.inputs 1 args).foldlM loadTree {}
  finish files (Golden.run Golden.xxHash 1 files args)

end Quadruple.Shell

def main (args : List String) : IO UInt32 := do
  if (← IO.appPath).fileName == some "qgold" then Quadruple.Shell.golden args
  else Quadruple.Shell.compile args
