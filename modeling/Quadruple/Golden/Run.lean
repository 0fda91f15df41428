import Quadruple.Compiler
import Quadruple.Files.Glob
import Quadruple.Golden.Cache
import Quadruple.Golden.Digest

/-!
# Golden tests

Compiles files and compares what comes out, diagnostics and output form, with the golden file
beside each of them. A file that passed under the same target, with the same source and the same
golden file, is not compiled again: a digest of the three is kept in a cache.

The digest is a parameter where files are tested, so that what is said about the cache does not
hang on one function.
-/

namespace Quadruple.Golden

open CommandLine (About Flag Flags)

/-! ## Rendering -/

inductive RenderFault where
  | settings (why : SettingsFault)
  | graph (why : GraphFault)
  | lowering (why : Lowering.Fault)
  | errors (count : Nat)
  | backend (why : Backend.Fault)
deriving DecidableEq, Repr

def RenderFault.message : RenderFault → String
  | .settings why => why.message
  | .graph why => why.message
  | .lowering why => "internal compiler error: " ++ why.message
  | .errors count => Numeral.decimalText count ++ " error(s)"
  | .backend why => why.message

def RenderFault.crash? : RenderFault → Option (Option String)
  | .lowering (.noEntry _) => some none
  | .backend why => why.breakage?
  | _ => none

def compileText (settings : Settings) (source : Source) : String × Except RenderFault String :=
  match source.graph with
  | .error why => ("", .error (.graph why))
  | .ok g =>
    let l := lowerGraph settings .empty source.name g
    (l.report.text false, match l.result with
      | .error why => .error (.lowering why)
      | .ok p =>
        if l.report.errorCount > 0 then .error (.errors l.report.errorCount)
        else match Backend.ofSettings settings with
          | .error why => .error (.backend why)
          | .ok b => (b.render p).mapError .backend)

def renderParts (target file source : String) : String × Except RenderFault String :=
  let settings : Settings := {}
  match settings.setTarget "linux" "amd64" target with
  | (_, some why) => ("", .error (.settings why))
  | (settings, none) => compileText settings ⟨baseName file, source⟩

/-- What a golden file holds: the diagnostics, a line of dashes, and the output form or what
stands in its way. A crash has no text. -/
def render (target file source : String) : Except (Option String) String :=
  let (reported, result) := renderParts target file source
  match result with
  | .ok text => .ok (reported ++ "---\n" ++ text)
  | .error why => match why.crash? with
    | some crash => .error crash
    | none => .ok (reported ++ "---\n" ++ why.message ++ "\n")

/-! ## Testing one file -/

abbrev Hash := List UInt8 → UInt64

/-- The text that a digest is made of: the three parts with a zero byte between them. -/
def digestInput (target source golden : String) : List UInt8 :=
  Text.utf8Bytes target ++ 0 :: Text.utf8Bytes source ++ 0 :: Text.utf8Bytes golden

def digest (hash : Hash) (target source golden : String) : String :=
  String.ofList (Nat.toDigits 16 (hash (digestInput target source golden)).toNat)

structure Options where
  target : String
  update : Bool
  cache : Cache
deriving DecidableEq, Repr

inductive Status where
  | pass
  | cached
  | updated
  | fail (expected got : String)
  | error (message : String)
deriving DecidableEq, Repr

/-- How the test of a file ended, with its digest if it may be cached. -/
structure Result where
  file : String
  status : Status
  digest : Option String := none
deriving DecidableEq, Repr

def goldenPath (file : String) : String := file ++ ".golden"

def readMessage (path : String) (why : FileFault) : String :=
  (if why = .isDirectory then "read " else "open ") ++ path ++ ": " ++ why.message

def compareGolden (file sum got : String) (golden : Except FileFault String) : Result :=
  match golden with
  | .error _ => ⟨file, .error "no golden file (run with -update)", none⟩
  | .ok expected =>
    if expected = got then ⟨file, .pass, some sum⟩ else ⟨file, .fail expected got, none⟩

def updateGolden (hash : Hash) (target file source got : String) (files : Files) :
    Result × Files :=
  match files.write (goldenPath file) got with
  | .error why => (⟨file, .error ("open " ++ goldenPath file ++ ": " ++ why.message), none⟩, files)
  | .ok files => (⟨file, .updated, some (digest hash target source got)⟩, files)

def testFile (hash : Hash) (o : Options) (files : Files) (file : String) :
    Except (Option String) (Result × Files) :=
  match files.read file with
  | .error why => .ok (⟨file, .error (readMessage file why), none⟩, files)
  | .ok source =>
    let golden := files.read (goldenPath file)
    let sum := digest hash o.target source (golden.toOption.getD "")
    if !o.update && golden.toBool && (o.cache.lookup file).getD "" = sum then
      .ok (⟨file, .cached, some sum⟩, files)
    else do
      let got ← render o.target file source
      if o.update then return updateGolden hash o.target file source got files
      else return (compareGolden file sum got golden, files)

def testAll (hash : Hash) (o : Options) (files : Files) :
    List String → Except (Option String) (List Result × Files)
  | [] => .ok ([], files)
  | file :: rest => do
    let (r, files) ← testFile hash o files file
    let (rs, files) ← testAll hash o files rest
    return (r :: rs, files)

/-! ## A run -/

/-- The cache in a file. No path and no file stand for an empty one. -/
def loadCache (files : Files) (path : String) : Cache :=
  if path = "" then []
  else match files.read path with
    | .ok text => .ofText text
    | .error _ => []

def cacheOf (results : List Result) : Cache :=
  results.filterMap fun r => r.digest.map fun d => (r.file, d)

def saveCache (files : Files) (path : String) (results : List Result) : Files :=
  if path = "" then files
  else match files.write path (cacheOf results).text with
    | .ok files => files
    | .error _ => files

def expandAll (files : Files) (patterns : String) : Except String (List String) := do
  let paths ← (Text.words patterns).mapM fun p => match Glob.expand? files p with
    | some paths => .ok paths
    | none => .error p
  return paths.flatten.eraseDups.mergeSort fun a b => !decide (b < a)

/-- The lines that only one of two texts has, between what both begin and end with. -/
def difference (expected got : String) : String :=
  let a := expected.toList.splitOn '\n'
  let b := got.toList.splitOn '\n'
  let start := ((a.zip b).takeWhile fun (x, y) => x == y).length
  let a := (a.drop start).reverse
  let b := (b.drop start).reverse
  let stop := ((a.zip b).takeWhile fun (x, y) => x == y).length
  let side (mark : String) (l : List (List Char)) : List String :=
    (l.drop stop).reverse.map fun cs => mark ++ String.ofList cs
  "\n".intercalate (side "- " a ++ side "+ " b)

def Result.text (r : Result) : String :=
  match r.status with
  | .pass | .cached => ""
  | .updated => "[UPDATED] " ++ r.file ++ "\n"
  | .error message => "[ERROR] " ++ r.file ++ ": " ++ message ++ "\n"
  | .fail expected got =>
    "[FAIL] " ++ r.file ++ ": output differs from golden file\n" ++ difference expected got ++ "\n"

def Result.isBad (r : Result) : Bool :=
  match r.status with
  | .fail .. | .error _ => true
  | _ => false

def Status.isError : Status → Bool
  | .error _ => true
  | _ => false

def summary (results : List Result) : String :=
  let statuses := results.map (·.status)
  let errors := statuses.countP Status.isError
  let count (n : Nat) (what : String) : String := Numeral.decimalText n ++ " " ++ what
  String.join (results.map Result.text) ++ "\nSummary: " ++ ", ".intercalate
      [count (statuses.count .pass) "passed", count (statuses.count .cached) "cached",
        count (statuses.count .updated) "updated",
        count (results.countP Result.isBad - errors) "failed", count errors "errors"] ++ "\n" ++
    (if results.any Result.isBad then "" else "All tests passed.\n")

def about : About where
  name := "qgold"
  synopsis := "[options]"
  description := "Golden-file tests for quadc."

/-- The flags, where `jobs` is the number of tests that would run side by side. -/
def flags (jobs : Nat) : Flags :=
  let all : List Flag :=
    [.text "files" "f" "tests/*.q" "Glob pattern(s) for files to test (space-separated)." "glob",
      .text "target" "t" "qbe/amd64_sysv" "Backend and target used to render IR."
        "backend/target",
      .text "cache" "c" ".qgold_cache.json"
        "File of digests for files that passed; empty disables it." "file",
      .number "jobs" "j" jobs "Number of parallel jobs.",
      .switch "update" "u" false "Rewrite golden files with the current output.",
      .switch "verbose" "v" false "Log every file."]
  all.foldl (fun fs f => (fs.register f).1) {}

def act (hash : Hash) (files : Files) (fs : Flags) : Outcome :=
  match expandAll files (fs.getText "files") with
  | .error p =>
    { stderr := "invalid glob '" ++ p ++ "': syntax error in pattern\n", exitCode := 1, files }
  | .ok [] => { stdout := "No test files found matching the pattern(s).\n", files }
  | .ok paths =>
    let cachePath := fs.getText "cache"
    let o : Options := ⟨fs.getText "target", fs.getSwitch "update", loadCache files cachePath⟩
    match testAll hash o files paths with
    | .error crash => { stderr := "panic: " ++ crash.getD "" ++ "\n", exitCode := 2, files }
    | .ok (results, files) =>
      let files := saveCache files cachePath results
      if results.any Result.isBad then
        { stdout := summary results, stderr := "golden tests failed\n", exitCode := 1, files }
      else { stdout := summary results, files }

/-- The directories that a run looks at: those in which patterns can match, and that of the
cache. -/
def inputs (jobs : Nat) (args : List String) : List String :=
  let (fs, _) := CommandLine.start about (flags jobs) args
  let literal (pattern : String) : String :=
    String.ofList (pattern.toList.takeWhile fun c => !Glob.isPattern (String.ofList [c]))
  (fs.getText "cache" :: (Text.words (fs.getText "files")).map literal).map fun p =>
    (splitLast p).1

def run (hash : Hash) (jobs : Nat) (files : Files) (args : List String) : Outcome :=
  match CommandLine.start about (flags jobs) args with
  | (_, .error why) => { stderr := "panic: " ++ why.message ++ "\n", exitCode := 2, files }
  | (_, .ok (.refuse why)) =>
    { stderr := CommandLine.helpHint about ++ why.message ++ "\n", exitCode := 1, files }
  | (_, .ok (.help page)) => { stdout := page, files }
  | (fs, .ok (.act _)) => act hash files fs

end Quadruple.Golden
