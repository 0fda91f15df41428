import Quadruple.Settings.Basic
import Quadruple.Numeral.Integer

/-!
# Flags

The flags of a command and how arguments set them. An argument is written as `--name value`,
`--name=value`, with one dash instead of two, or with the one-letter shorthand of the flag, to
which the value can be glued. A flag that collects what is glued to its own name is written as in
`-Wall`. All arguments that belong to no flag are kept, and so are those behind `--`.

A command line that cannot be read keeps what was set before the fault.
-/

namespace Quadruple.CommandLine

inductive FlagValue where
  | text (s : String)
  | switch (on : Bool)
  | number (n : Int)
  | items (l : List String)
deriving DecidableEq, Repr, Inhabited

structure Flag where
  name : String
  /-- The shorthand; empty when there is none. -/
  short : String
  usage : String
  value : FlagValue
  /-- The default as help shows it. -/
  shownDefault : String
  /-- What help calls the value. -/
  valueName : String
deriving DecidableEq, Repr, Inhabited

def FlagValue.isSwitch : FlagValue → Bool
  | .switch _ => true
  | _ => false

def FlagValue.shown : FlagValue → String
  | .text s => s
  | .switch on => if on then "true" else "false"
  | .number n => Numeral.decimalText n
  | .items l => ", ".intercalate l

namespace Flag

def text (name short value usage valueName : String) : Flag :=
  ⟨name, short, usage, .text value, value, valueName⟩

def switch (name short : String) (value : Bool) (usage : String) : Flag :=
  ⟨name, short, usage, .switch value, (FlagValue.switch value).shown, ""⟩

def number (name short : String) (value : Int) (usage : String) : Flag :=
  ⟨name, short, usage, .number value, (FlagValue.number value).shown, "n"⟩

def items (name short : String) (value : List String) (usage valueName : String) : Flag :=
  ⟨name, short, usage, .items value, "", valueName⟩

def collecting (name usage valueName : String) : Flag := .items name "" [] usage valueName

end Flag

structure Flags where
  flags : List Flag := []
  /-- The shorthands with the names of their flags. -/
  shorts : List (String × String) := []
  /-- The names of the flags that collect what is glued to them, in the order in which they are
  tried. -/
  collecting : List String := []
  /-- The arguments that belong to no flag. -/
  args : List String := []
deriving DecidableEq, Repr, Inhabited

/-! ## Registration -/

inductive RegisterFault where
  | noName
  | redefined (name : String)
  | shortRedefined (short : String)
deriving DecidableEq, Repr

def RegisterFault.message : RegisterFault → String
  | .noName => "flag name cannot be empty"
  | .redefined name => "flag redefined: " ++ name
  | .shortRedefined short => "shorthand flag redefined: " ++ short

namespace Flags

def find? (fs : Flags) (name : String) : Option Flag := fs.flags.find? (·.name == name)

/-- Adds a flag. One whose shorthand is taken is added without it, and is a fault. -/
def register (fs : Flags) (f : Flag) : Flags × Option RegisterFault :=
  if f.name = "" then (fs, some .noName)
  else if (fs.find? f.name).isSome then (fs, some (.redefined f.name))
  else
    let added := { fs with flags := fs.flags ++ [f] }
    if f.short = "" then (added, none)
    else if (fs.shorts.lookup f.short).isSome then (added, some (.shortRedefined f.short))
    else ({ added with shorts := fs.shorts ++ [(f.short, f.name)] }, none)

def registerCollecting (fs : Flags) (f : Flag) : Flags × Option RegisterFault :=
  match fs.register f with
  | (fs, none) => ({ fs with collecting := fs.collecting ++ [f.name] }, none)
  | failed => failed

end Flags

/-! ## Reading arguments -/

inductive ParseFault where
  | unknownFlag (shown : String)
  | unknownShort (short : String)
  | noArgument (shown : String)
  | badSwitch (text : String)
  | badNumber (text : String) (why : Numeral.IntegerFault)
deriving DecidableEq, Repr

def ParseFault.message : ParseFault → String
  | .unknownFlag shown => "unknown flag: " ++ shown
  | .unknownShort short => "unknown shorthand flag: -" ++ short
  | .noArgument shown => "flag needs an argument: " ++ shown
  | .badSwitch text =>
    "invalid boolean value '" ++ text ++ "': strconv.ParseBool: parsing " ++ Text.quote text ++
      ": invalid syntax"
  | .badNumber text why =>
    "invalid integer value '" ++ text ++ "': strconv.Atoi: parsing " ++ Text.quote text ++ ": " ++
      why.message

def readSwitch? (s : String) : Option Bool :=
  if s ∈ ["1", "t", "T", "true", "TRUE", "True"] then some true
  else if s ∈ ["0", "f", "F", "false", "FALSE", "False"] then some false
  else none

/-- Gives a flag a value. A switch without one is set, and a list grows at its end. -/
def FlagValue.set (v : FlagValue) (s : String) : Except ParseFault FlagValue :=
  match v with
  | .text _ => .ok (.text s)
  | .items l => .ok (.items (l ++ [s]))
  | .switch _ =>
    if s = "" then .ok (.switch true)
    else match readSwitch? s with
      | some on => .ok (.switch on)
      | none => .error (.badSwitch s)
  | .number _ =>
    let r := Numeral.readDecimal s
    match r.fault with
    | none => .ok (.number r.value)
    | some why => .error (.badNumber s why)

def cutEquals (s : String) : String × Option String :=
  let cs := s.toList
  match cs.dropWhile (· != '=') with
  | [] => (s, none)
  | _ :: rest => (String.ofList (cs.takeWhile (· != '=')), some (String.ofList rest))

/-- An argument that sets a flag: which one, as what messages show it, and the value, unless that
is the next argument. -/
structure Use where
  flag : Flag
  shown : String
  value : Option String
deriving DecidableEq, Repr, Inhabited

namespace Flags

def collectingUse? (fs : Flags) (body : String) : Option Use :=
  fs.collecting.findSome? fun name => do
    let rest ← stripLead? name body
    if rest = "" then none
    else return ⟨← fs.find? name, "-" ++ name, some rest⟩

/-- What the shorthand `c` with `rest` behind it means. A shorthand is one byte long, so no other
character than those of ASCII can be one; such a character has no readable first byte. -/
def shortUse (fs : Flags) (c : Char) (rest : List Char) : Except ParseFault Use :=
  let short := if c.toNat < 128 then String.ofList [c] else "�"
  let flag := if c.toNat < 128 then (fs.shorts.lookup short).bind fs.find? else none
  match flag with
  | none => .error (.unknownShort short)
  | some f =>
    .ok ⟨f, "-" ++ short,
      if f.value.isSwitch then some ""
      else if rest.isEmpty then none
      else some (String.ofList rest)⟩

def gluedUse (fs : Flags) (body : String) : Except ParseFault Use :=
  match fs.collectingUse? body with
  | some u => .ok u
  | none => match body.toList with
    | c :: rest => fs.shortUse c rest
    | [] => .error (.unknownShort "")

/-- What an argument means that starts with `dashes`, followed by `body`. -/
def use (fs : Flags) (dashes body : String) : Except ParseFault Use :=
  let (name, value) := cutEquals body
  match fs.find? name with
  | some f =>
    .ok ⟨f, dashes ++ name, if value.isNone && f.value.isSwitch then some "" else value⟩
  | none =>
    if dashes = "-" then fs.gluedUse body else .error (.unknownFlag (dashes ++ name))

def set (fs : Flags) (f : Flag) (value : String) : Except ParseFault Flags := do
  let v ← f.value.set value
  return { fs with
    flags := fs.flags.map fun g => if g.name == f.name then { g with value := v } else g }

end Flags

inductive Form where
  | plain
  /-- The mark behind which all arguments are plain. -/
  | stop
  | option (dashes body : String)
deriving DecidableEq, Repr

def form (arg : String) : Form :=
  match arg.toList with
  | ['-', '-'] => .stop
  | '-' :: '-' :: body => .option "--" (String.ofList body)
  | '-' :: c :: body => .option "-" (String.ofList (c :: body))
  | _ => .plain

namespace Flags

def addArgs (fs : Flags) (args : List String) : Flags := { fs with args := fs.args ++ args }

def parseFrom (fs : Flags) : List String → Flags × Option ParseFault
  | [] => (fs, none)
  | arg :: rest => match form arg with
    | .plain => (fs.addArgs [arg]).parseFrom rest
    | .stop => (fs.addArgs rest, none)
    | .option dashes body => match fs.use dashes body with
      | .error f => (fs, some f)
      | .ok ⟨flag, _, some value⟩ => match fs.set flag value with
        | .ok fs => fs.parseFrom rest
        | .error f => (fs, some f)
      | .ok ⟨flag, shown, none⟩ => match rest with
        | [] => (fs, some (.noArgument shown))
        | value :: rest => match fs.set flag value with
          | .ok fs => fs.parseFrom rest
          | .error f => (fs, some f)

/-- Reads the arguments of a command. What was set before keeps its value. -/
def parse (fs : Flags) (args : List String) : Flags × Option ParseFault :=
  { fs with args := [] }.parseFrom args

/-! ## Access -/

def getText (fs : Flags) (name : String) : String :=
  match (fs.find? name).map Flag.value with
  | some (.text s) => s
  | _ => ""

def getSwitch (fs : Flags) (name : String) : Bool :=
  match (fs.find? name).map Flag.value with
  | some (.switch on) => on
  | _ => false

def getItems (fs : Flags) (name : String) : List String :=
  match (fs.find? name).map Flag.value with
  | some (.items l) => l
  | _ => []

end Flags

end Quadruple.CommandLine
