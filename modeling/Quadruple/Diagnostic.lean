import Quadruple.Numeral.Integer
import Quadruple.Settings.Basic

/-!
# Diagnostics

What is wrong with a program, or looks wrong, in the order in which it was found. Errors do not
stop the work; who needs a correct program looks at the number of errors at the end.
-/

namespace Quadruple

structure Pos where
  file : String
  line : Int
deriving DecidableEq, Repr, Inhabited

def Pos.text (p : Pos) : String :=
  let file := if p.file = "" then "<input>" else p.file
  if p.line ≤ 0 then file else file ++ ":" ++ Numeral.decimalText p.line

inductive Severity where
  | error
  | warning (kind : Warning)
deriving DecidableEq, Repr, Inhabited

structure Diagnostic where
  severity : Severity
  pos : Pos
  message : String
deriving DecidableEq, Repr, Inhabited

def Diagnostic.isError (d : Diagnostic) : Bool := d.severity = .error

def styled (color : Bool) (start stop text : String) : String :=
  if color then "\x1b[" ++ start ++ "m" ++ text ++ "\x1b[" ++ stop ++ "m" else text

def errorMark (color : Bool) (text : String) : String := styled color "31;1" "0;22" text

/-- The line that shows a diagnostic. `named` says whether warnings show their names. -/
def Diagnostic.text (color named : Bool) (d : Diagnostic) : String :=
  d.pos.text ++ ": " ++ (match d.severity with
    | .error => errorMark color "error:" ++ " " ++ d.message
    | .warning kind =>
      styled color "33;1" "0;22" "warning:" ++ " " ++ d.message ++ " " ++
        styled color "2" "22" ("[-W" ++ (if named then kind.name else "") ++ "]")) ++ "\n"

/-- The diagnostics so far. Without flags every warning is kept, and shown without its name. -/
structure Report where
  flags : Option WarningFlags
  diagnostics : List Diagnostic := []
deriving DecidableEq, Repr, Inhabited

namespace Report

def error (r : Report) (pos : Pos) (message : String) : Report :=
  { r with diagnostics := r.diagnostics ++ [⟨.error, pos, message⟩] }

def warn (r : Report) (kind : Warning) (pos : Pos) (message : String) : Report :=
  if r.flags.all (·.isEnabled kind) then
    { r with diagnostics := r.diagnostics ++ [⟨.warning kind, pos, message⟩] }
  else r

def errorCount (r : Report) : Nat := r.diagnostics.countP Diagnostic.isError

def messages (r : Report) (errors : Bool) : List String :=
  (r.diagnostics.filter fun d => d.isError == errors).map (·.message)

def text (r : Report) (color : Bool) : String :=
  String.join (r.diagnostics.map (·.text color r.flags.isSome))

end Report

end Quadruple
