import Quadruple.CommandLine.Help
import Quadruple.Compile
import Quadruple.Files.Basic

/-!
# The compiler as a command

Reads programs from files, and prints their output form, writes it to a file, or hands it on to be
assembled and linked. All that a run needs to know is in its arguments and in the files.
-/

namespace Quadruple

structure Outcome where
  stdout : String := ""
  stderr : String := ""
  exitCode : Nat := 0
  files : Files
deriving Inhabited

namespace Compiler

open CommandLine (About Flag Flags)

def about : About where
  name := "quadc"
  synopsis := "[options] <input.q> ..."
  description := "Lowers quadruple programs to QBE or LLVM and links them into an executable."
  repository := "<https://github.com/xplshn/quadc>"
  authors := ["xplshn"]

def flags : Flags :=
  let plain : List Flag :=
    [.text "output" "o" "a.out"
        "Place the output into <file>. A .s, .ssa or .ll name stops before linking." "file",
      .text "target" "t" "qbe" "Set the backend and target ABI." "backend/target",
      .switch "dump-ir" "d" false "Dump the backend IR and exit.",
      .switch "verbose" "v" false "Log each compilation stage.",
      .items "linker-arg" "L" [] "Pass an argument to the linker." "arg"]
  let fs := plain.foldl (fun fs f => (fs.register f).1) ({} : Flags)
  (fs.registerCollecting
    (.collecting "W" "Enable or disable a warning (-Wall, -Wno-<name>)." "warning")).1

inductive Fault where
  | usage (why : CommandLine.ParseFault)
  | flags (why : CommandLine.RegisterFault)
  | noInput
  | settings (why : SettingsFault)
  | backend (why : Backend.Fault)
  | noFile (path : String) (why : FileFault)
  | unreadable (path : String) (why : FileFault)
  | source (why : SourceFault)
  | build (path : String) (why : Flow.BuildFault)
  | lowering (why : Lowering.Fault)
  | errors (count : Nat)
  | render (why : Backend.Fault)
  | assemble (why : Backend.Fault)
  | noWrite (path : String) (why : FileFault)
  /-- The linker is not there. -/
  | noLinker
deriving DecidableEq, Repr

def Fault.message : Fault → String
  | .usage why => why.message
  | .flags why => why.message
  | .noInput => "no input files specified"
  | .settings why => why.message
  | .backend why => why.message
  | .noFile path why => "could not read file '" ++ path ++ "': open " ++ path ++ ": " ++ why.message
  | .unreadable path why => "reading " ++ path ++ ": read " ++ path ++ ": " ++ why.message
  | .source why => why.message
  | .build path why => path ++ ": " ++ why.message
  | .lowering why => "internal compiler error: " ++ why.message
  | .errors count => Numeral.decimalText count ++ " error(s)"
  | .render why => "backend IR generation failed: " ++ why.message
  | .assemble why => "backend code generation failed: " ++ why.message
  | .noWrite path why => "open " ++ path ++ ": " ++ why.message
  | .noLinker =>
    "cc command failed: exec: \"cc\": executable file not found in $PATH\nOutput:\n"

def Fault.fatal? : Fault → Option String
  | .lowering (.noEntry _) => some "panic: "
  | .lowering why => some ("fatal: internal compiler error: " ++ why.message)
  | .flags why => some ("panic: " ++ why.message)
  | .render why => why.breakage?.map fun m => "panic: " ++ m.getD ""
  | .assemble why => why.breakage?.map fun m => "panic: " ++ m.getD ""
  | _ => none

def Fault.outcome (f : Fault) (reported : String) (files : Files) : Outcome :=
  match f.fatal? with
  | some text => { stderr := reported ++ text ++ "\n", exitCode := 2, files }
  | none => { stderr := reported ++ f.message ++ "\n", exitCode := 1, files }

def readGraph (files : Files) (path : String) : Except Fault Flow.Graph := do
  let text ← (files.read path).mapError fun why =>
    if why = .isDirectory then .unreadable path why else .noFile path why
  (Source.graph ⟨path, text⟩).mapError fun
    | .source why => .source why
    | .build why => .build path why

def readAll (files : Files) (paths : List String) : Except Fault Flow.Graph :=
  paths.foldlM (fun g path => do return g.append (← readGraph files path)) ⟨[], []⟩

def chooseSettings (fs : Flags) : Except Fault Settings := do
  let checked : Settings × Option SettingsFault → Except Fault Settings
    | (s, none) => .ok s
    | (_, some why) => .error (.settings why)
  let s : Settings := {}
  let s ← checked (s.processFlags ((fs.getItems "W").map ("W" ++ ·)))
  checked (s.setTarget "linux" "amd64" (fs.getText "target"))

def isOutputForm (path : String) : Bool := fileExtension path = ".ssa" || fileExtension path = ".ll"

/-- The name that diagnostics show: that of the file when there is only one. -/
def shownFile : List String → String
  | [path] => path
  | _ => ""

/-- Compiles files, with the text of all diagnostics beside the result. -/
def compileFiles (files : Files) (settings : Settings) (backend : Backend) (textOnly : Bool)
    (paths : List String) : String × Except Fault String :=
  match readAll files paths with
  | .error why => ("", .error why)
  | .ok g =>
    let l := lowerGraph settings .empty (shownFile paths) g
    (l.report.text false, match l.result with
      | .error why => .error (.lowering why)
      | .ok p =>
        if l.report.errorCount > 0 then .error (.errors l.report.errorCount)
        else if textOnly then (backend.render p).mapError .render
        else (backend.assemble p).mapError .assemble)

def prepare (fs : Flags) (paths : List String) : Except Fault (Settings × Backend) := do
  if paths.isEmpty then .error .noInput
  let settings ← chooseSettings fs
  let backend ← (Backend.ofSettings settings).mapError Fault.backend
  return (settings, backend)

def act (files : Files) (fs : Flags) (paths : List String) : Outcome :=
  let output := fs.getText "output"
  let dump := fs.getSwitch "dump-ir"
  match prepare fs paths with
  | .error why => why.outcome "" files
  | .ok (settings, backend) =>
    match compileFiles files settings backend (dump || isOutputForm output) paths with
    | (reported, .error why) => why.outcome reported files
    | (reported, .ok text) =>
      if dump then { stdout := text, stderr := reported, files }
      else if isOutputForm output || fileExtension output = ".s" then
        match files.write output text with
        | .ok files => { stderr := reported, files }
        | .error why => (Fault.noWrite output why).outcome reported files
      else Fault.noLinker.outcome reported files

/-- The paths that a run looks at: the files that it compiles and the directory that it writes
to. -/
def inputs (args : List String) : List String :=
  match CommandLine.start about flags args with
  | (fs, .ok (.act paths)) => (splitLast (fs.getText "output")).1 :: paths
  | _ => []

def run (files : Files) (args : List String) : Outcome :=
  match CommandLine.start about flags args with
  | (_, .error why) => (Fault.flags why).outcome "" files
  | (_, .ok (.refuse why)) => (Fault.usage why).outcome (CommandLine.helpHint about) files
  | (_, .ok (.help page)) => { stdout := page, files }
  | (fs, .ok (.act paths)) => act files fs paths

end Compiler

end Quadruple
