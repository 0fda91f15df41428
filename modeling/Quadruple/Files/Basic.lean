/-!
# Files

A tree of directories and texts, as a command finds it. Paths are written with slashes; a path is
followed name by name, and each name but the last must be that of a directory. The directories
above the working directory are there too, but nothing is known of what is in them.
-/

namespace Quadruple

/-- The names that lead from the working directory to a file. The root is a name of its own, and
so is the directory above. -/
abbrev Path := List String

structure Files where
  /-- The directories besides the working directory. -/
  dirs : List Path := []
  texts : List (Path × String) := []
deriving DecidableEq, Repr, Inhabited

inductive FileFault where
  | notFound
  | isDirectory
  | notDirectory
  | nameTooLong
deriving DecidableEq, Repr

def FileFault.message : FileFault → String
  | .notFound => "no such file or directory"
  | .isDirectory => "is a directory"
  | .notDirectory => "not a directory"
  | .nameTooLong => "file name too long"

def splitSlashes (s : String) : List String :=
  go [] s.toList
where
  go (run : List Char) : List Char → List String
    | [] => [String.ofList run.reverse]
    | c :: cs => if c = '/' then String.ofList run.reverse :: go [] cs else go (c :: run) cs

namespace Files

def isDir (fs : Files) (p : Path) : Bool :=
  p = ["/"] || p.all (· = "..") || fs.dirs.contains p

def isOutside (p : Path) : Bool := p.head? == some ".." || p.head? == some "/"

def text? (fs : Files) (p : Path) : Option String := fs.texts.lookup p

def step (here : Path) (name : String) : Path :=
  if name = "" || name = "." then here
  else if name = ".." then
    match here.getLast? with
    | none | some ".." => here ++ [name]
    | some "/" => here
    | some _ => here.dropLast
  else here ++ [name]

def maxNameBytes : Nat := 255

def maxPathBytes : Nat := 4095

def walk (fs : Files) (here : Path) : List String → Except FileFault Path
  | [] => .ok here
  | name :: rest =>
    if fs.isDir here then
      if maxNameBytes < name.utf8ByteSize then .error .nameTooLong
      else fs.walk (step here name) rest
    else .error (if (fs.text? here).isSome then .notDirectory else .notFound)

def splitPath (path : String) : Path × List String :=
  match splitSlashes path with
  | "" :: name :: rest => (["/"], name :: rest)
  | names => ([], names)

/-- The place that a path leads to, whether or not there is something. -/
def resolve (fs : Files) (path : String) : Except FileFault Path :=
  let (start, names) := splitPath path
  if path = "" then .error .notFound
  else if maxPathBytes < path.utf8ByteSize then .error .nameTooLong
  else fs.walk start names

def hasPath (fs : Files) (path : String) : Bool :=
  match fs.resolve path with
  | .ok p => fs.isDir p || (fs.text? p).isSome
  | .error _ => false

def read (fs : Files) (path : String) : Except FileFault String := do
  let p ← fs.resolve path
  if fs.isDir p then .error .isDirectory
  else match fs.text? p with
    | some text => .ok text
    | none => .error .notFound

def put (fs : Files) (p : Path) (text : String) : Files :=
  { fs with texts := fs.texts.filter (·.1 != p) ++ [(p, text)] }

def write (fs : Files) (path text : String) : Except FileFault Files := do
  let p ← fs.resolve path
  if fs.isDir p then .error .isDirectory
  else return fs.put p text

def addDir (fs : Files) (p : Path) : Files :=
  if fs.isDir p then fs else { fs with dirs := fs.dirs ++ [p] }

def places (path : String) : List Path :=
  let (start, names) := splitPath path
  names.foldl (fun seen name => seen ++ [step ((seen.getLast?).getD start) name]) [start]

/-- Adds what is at a path, a directory or a text, with all directories that it leads through. -/
def addPath (fs : Files) (path : String) (text : Option String) : Files :=
  let all := places path
  let through := all.dropLast.foldl addDir fs
  let p := (all.getLast?).getD []
  match text with
  | some text => through.put p text
  | none => through.addDir p

def remove (fs : Files) (path : String) : Files :=
  match fs.resolve path with
  | .ok p => { fs with texts := fs.texts.filter (·.1 != p) }
  | .error _ => fs

def nameIn? (dir p : Path) : Option String :=
  match p.getLast? with
  | some name => if p.dropLast = dir then some name else none
  | none => none

def names (fs : Files) (dir : Path) : List String :=
  let all := fs.dirs ++ fs.texts.map (·.1)
  ((all.filterMap (nameIn? dir)).eraseDups).mergeSort fun a b => !decide (b < a)

end Files

/-! ## Paths as texts -/

def splitLast (path : String) : String × String :=
  let cs := path.toList.reverse
  let name := String.ofList (cs.takeWhile (· != '/')).reverse
  match cs.dropWhile (· != '/') with
  | [] => (".", name)
  | [_] => ("/", name)
  | _ :: dir => (String.ofList dir.reverse, name)

def baseName (path : String) : String :=
  match (splitSlashes path).filter (· ≠ "") |>.getLast? with
  | some name => name
  | none => if path = "" then "." else "/"

def fileExtension (path : String) : String :=
  let name := ((splitSlashes path).getLast?).getD ""
  let after := name.toList.reverse.takeWhile (· != '.')
  if name.toList.contains '.' then String.ofList ('.' :: after.reverse) else ""

/-- Drops empty names and points, and resolves steps back, without looking at files. -/
def cleanNames (rooted : Bool) (names : List String) : List String :=
  names.foldl (fun out name =>
    if name = "" || name = "." then out
    else if name = ".." then
      match out.getLast? with
      | some last => if last = ".." then out ++ [name] else out.dropLast
      | none => if rooted then [] else [name]
    else out ++ [name]) []

def cleanPath (path : String) : String :=
  let names := splitSlashes path
  let rooted := names.head? == some "" && names.length ≠ 1
  let text := "/".intercalate (cleanNames rooted names)
  if rooted then "/" ++ text else if text = "" then "." else text

def joinPath (dir name : String) : String := cleanPath (dir ++ "/" ++ name)

end Quadruple
