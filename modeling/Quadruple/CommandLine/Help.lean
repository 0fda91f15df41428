import Quadruple.CommandLine.Flags
import Quadruple.Text.Blank

/-!
# Help pages

What a command is and which flags it has, in columns. Widths are counted in bytes.
-/

namespace Quadruple.CommandLine

structure About where
  name : String
  synopsis : String := ""
  description : String := ""
  repository : String := ""
  authors : List String := []
deriving DecidableEq, Repr, Inhabited

def pageWidth : Nat := 80

/-- The lines of `words` behind the unfinished line `line`, which is not empty: a word goes to the
next line when it does not fit. -/
def wrapFrom (width : Int) (line : String) : List String → List String
  | [] => [line]
  | w :: ws =>
    if width < line.utf8ByteSize + w.utf8ByteSize + 1 then line :: wrapFrom width w ws
    else wrapFrom width (line ++ " " ++ w) ws

/-- The words of a text in lines of at most `width` bytes. A longer word has a line of its own. -/
def wrap (width : Int) (text : String) : List String :=
  match Text.words text with
  | [] => []
  | w :: ws => wrapFrom width w ws

def Flag.header (f : Flag) : String :=
  match f.value with
  | .items _ =>
    if f.short = "" && f.shownDefault = "" && f.valueName ≠ "" then
      "-" ++ f.name ++ "<" ++ f.valueName ++ ">"
    else plain
  | _ => plain
where
  plain : String :=
    (if f.short = "" then "" else "-" ++ f.short ++ ", ") ++ "--" ++ f.name ++
      (if f.value.isSwitch || f.valueName = "" then "" else " <" ++ f.valueName ++ ">")

def Flag.usageText (f : Flag) : String :=
  f.usage ++
    (if f.shownDefault = "" || f.value.isSwitch then "" else " |" ++ f.shownDefault ++ "|")

def spaces (n : Nat) : String := String.ofList (List.replicate n ' ')

def indent (n : Nat) : String := spaces (4 * n)

def padded (width : Nat) (s : String) : String := s ++ spaces (width - s.length)

def flagLines (width : Nat) (usageWidth : Int) (f : Flag) : String :=
  let (first, more) := match wrap usageWidth f.usageText with
    | [] => ("", [])
    | l :: ls => (l, ls)
  let one (left right : String) : String := indent 2 ++ left ++ " " ++ right ++ "\n"
  one (padded width f.header) first ++ String.join (more.map (one (spaces width)))

def sortedFlags (flags : List Flag) : List Flag :=
  flags.mergeSort fun a b => !decide (b.name < a.name)

def flagsText (flags : List Flag) : String :=
  let width := (flags.map fun f => f.header.utf8ByteSize).foldl max 0
  let usageWidth := max (pageWidth - 8 - width - 1) 10
  (if flags.isEmpty then "" else "\n" ++ indent 1 ++ "Options\n") ++
    String.join ((sortedFlags flags).map (flagLines width usageWidth))

def helpPage (about : About) (fs : Flags) : String :=
  let part (given : Bool) (text : String) : String := if given then text else ""
  part (!about.authors.isEmpty)
      ("\n" ++ indent 1 ++ "Copyright (c): " ++ ", ".intercalate about.authors ++
        " and contributors\n") ++
    part (about.repository ≠ "")
      (indent 1 ++ "For more details refer to " ++ about.repository ++ "\n") ++
    part (about.synopsis ≠ "")
      ("\n" ++ indent 1 ++ "Synopsis\n" ++ indent 2 ++ about.name ++ " " ++ about.synopsis ++
        "\n") ++
    part (about.description ≠ "")
      ("\n" ++ indent 1 ++ "Description\n" ++ indent 2 ++ about.description ++ "\n") ++
    flagsText fs.flags

/-! ## Starting a command -/

inductive Request where
  | help (page : String)
  | act (args : List String)
  | refuse (why : ParseFault)
deriving DecidableEq, Repr

def helpFlag : Flag := .switch "help" "h" false "Display this information"

def start (about : About) (fs : Flags) (args : List String) :
    Flags × Except RegisterFault Request :=
  match fs.register helpFlag with
  | (fs, some why) => (fs, .error why)
  | (fs, none) => match fs.parse args with
    | (fs, some why) => (fs, .ok (.refuse why))
    | (fs, none) =>
      (fs, .ok (if fs.getSwitch "help" then .help (helpPage about fs) else .act fs.args))

def helpHint (about : About) : String :=
  "Run '" ++ about.name ++ " --help' for all available options and flags.\n"

end Quadruple.CommandLine
