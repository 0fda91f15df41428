import Quadruple.Code.Basic

/-!
# Settings

The warnings that are reported, the output that is produced, and the limits on nesting and jumps.
A request that fails keeps what it changed before it failed, so changes return the new settings
and the fault side by side.
-/

namespace Quadruple

inductive Warning where
  | implicitDecl
  | unreachableCode
  | type
  | extra
  | unnamed (code : Int)
deriving DecidableEq, Repr, Inhabited

namespace Warning

def all : List Warning := [.implicitDecl, .unreachableCode, .type, .extra]

def code : Warning → Int
  | .implicitDecl => 0
  | .unreachableCode => 1
  | .type => 2
  | .extra => 3
  | .unnamed n => n

def ofCode (n : Int) : Warning := (all.find? (·.code == n)).getD (.unnamed n)

def name : Warning → String
  | .implicitDecl => "implicit-decl"
  | .unreachableCode => "unreachable-code"
  | .type => "type"
  | .extra => "extra"
  | .unnamed _ => ""

def ofName? (s : String) : Option Warning := all.find? (·.name == s)

def description : Warning → String
  | .implicitDecl => "Warn about calls to functions that were never declared."
  | .unreachableCode => "Warn about blocks no branch can reach."
  | .type => "Warn about implicit int/double conversions."
  | .extra => "Enable extra miscellaneous warnings."
  | .unnamed _ => ""

end Warning

structure WarningFlags where
  implicitDecl : Bool := true
  unreachableCode : Bool := true
  type : Bool := false
  extra : Bool := true
deriving DecidableEq, Repr, Inhabited

namespace WarningFlags

def isEnabled (f : WarningFlags) : Warning → Bool
  | .implicitDecl => f.implicitDecl
  | .unreachableCode => f.unreachableCode
  | .type => f.type
  | .extra => f.extra
  | .unnamed _ => false

def set (f : WarningFlags) (w : Warning) (enabled : Bool) : WarningFlags :=
  match w with
  | .implicitDecl => { f with implicitDecl := enabled }
  | .unreachableCode => { f with unreachableCode := enabled }
  | .type => { f with type := enabled }
  | .extra => { f with extra := enabled }
  | .unnamed _ => f

def setAll (f : WarningFlags) (enabled : Bool) : WarningFlags :=
  Warning.all.foldl (fun f w => f.set w enabled) f

end WarningFlags

structure Settings where
  warnings : WarningFlags := {}
  /-- The name of the output that is produced. -/
  backend : String := "qbe"
  /-- The machine, as the output names it. -/
  target : String := ""
  arch : String := ""
  wordSize : Int := 8
  wordType : String := "l"
  stackAlign : Int := 16
  maxLoopDepth : Int := 50
  /-- The greatest number of labels with pending jumps in a function. -/
  maxGotoLabels : Int := 50
  /-- The greatest number of pending jumps to one label. -/
  maxBlanksPerLabel : Int := 256
deriving DecidableEq, Repr, Inhabited

inductive SettingsFault where
  | unknownWarning (name : String)
  | unsupportedTarget (target : String)
  | unsupportedBackend (backend : String)
deriving DecidableEq, Repr

def SettingsFault.message : SettingsFault → String
  | .unknownWarning name => "unknown warning '" ++ name ++ "'"
  | .unsupportedTarget target => "unsupported QBE target '" ++ target ++ "'"
  | .unsupportedBackend backend => "unsupported backend '" ++ backend ++ "'"

@[irreducible]
def stripLead? (lead s : String) : Option String :=
  if lead.toList.isPrefixOf s.toList then some (String.ofList (s.toList.drop lead.length))
  else none

def stripLead (lead s : String) : String := (stripLead? lead s).getD s

def hostTarget (os arch : String) : String :=
  match os, arch with
  | "darwin", "amd64" => "amd64_apple"
  | "darwin", "arm64" => "arm64_apple"
  | "freebsd", "arm64" | "linux", "arm64" => "arm64"
  | "linux", "riscv64" => "rv64"
  | _, _ => "amd64_sysv"

namespace Settings

def setWarning (s : Settings) (w : Warning) (enabled : Bool) : Settings :=
  { s with warnings := s.warnings.set w enabled }

/-- What a warning flag says: a name, or all, and whether to enable it. -/
def splitFlag (flag : String) : String × Bool :=
  let name := stripLead "W" (stripLead "-" flag)
  match stripLead? "no-" name with
  | some rest => (rest, false)
  | none => (name, true)

/-- Applies one warning flag: `-Wall`, `-Wno-all`, `-W<name>` or `-Wno-<name>`. -/
def applyFlag (s : Settings) (flag : String) : Except SettingsFault Settings :=
  let (name, enabled) := splitFlag flag
  if name = "all" then .ok { s with warnings := s.warnings.setAll enabled }
  else match Warning.ofName? name with
    | some w => .ok (s.setWarning w enabled)
    | none => .error (.unknownWarning name)

def isAllFlag (flag : String) : Bool :=
  flag = "-Wall" || flag = "-Wno-all" || flag = "Wall" || flag = "Wno-all"

def applyFlags (s : Settings) : List String → Settings × Option SettingsFault
  | [] => (s, none)
  | f :: fs => match s.applyFlag f with
    | .ok s => s.applyFlags fs
    | .error e => (s, some e)

/-- Applies the flags for all warnings first, so that the specific ones win in any order. -/
def processFlags (s : Settings) (flags : List String) : Settings × Option SettingsFault :=
  match s.applyFlags (flags.filter isAllFlag) with
  | (s, none) => s.applyFlags (flags.filter fun f => !isAllFlag f)
  | failed => failed

def wide (s : Settings) : Settings := { s with wordSize := 8, wordType := "l", stackAlign := 16 }

def narrow (s : Settings) : Settings := { s with wordSize := 4, wordType := "w", stackAlign := 8 }

def cutSlash (s : String) : String × String :=
  let cs := s.toList
  (String.ofList (cs.takeWhile (· != '/')), String.ofList ((cs.dropWhile (· != '/')).drop 1))

/-- Selects the output and its machine from a text such as `qbe`, `qbe/arm64` or
`llvm/x86_64-unknown-linux-gnu`. Without a machine, QBE output is for the host. -/
def setTarget (s : Settings) (os arch target : String) : Settings × Option SettingsFault :=
  let (backend, machine) := cutSlash target
  let s := { s with arch }
  match (if backend = "" then "qbe" else backend) with
  | "qbe" =>
    let machine := if machine = "" then hostTarget os arch else machine
    let s := { s with backend := "qbe", target := machine }
    if machine ∈ ["amd64_sysv", "amd64_apple", "arm64", "arm64_apple", "rv64"] then
      (s.wide, none)
    else if machine ∈ ["arm", "rv32"] then (s.narrow, none)
    else (s, some (.unsupportedTarget machine))
  | "llvm" =>
    let s := { s with backend := "llvm", target := machine }
    (if arch ∈ ["386", "arm", "mips", "mipsle"] then s.narrow else s.wide, none)
  | other => (s, some (.unsupportedBackend other))

end Settings

end Quadruple
