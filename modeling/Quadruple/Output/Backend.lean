import Quadruple.Output.Llvm.Build
import Quadruple.Output.Qbe
import Quadruple.Settings.Basic

/-!
# The choice of output

A program is rendered as QBE or as LLVM text. Turning that text into assembly is the work of other
programs.
-/

namespace Quadruple

inductive Backend where
  | qbe
  | llvm
deriving DecidableEq, Repr, Inhabited

namespace Backend

def ofName? (name : String) : Option Backend :=
  match name with
  | "" | "qbe" => some .qbe
  | "llvm" => some .llvm
  | _ => none

inductive Fault where
  | unsupported (name : String)
  | qbe (why : Qbe.Fault)
  | llvm (why : Llvm.Fault)
  /-- The program that assembles LLVM text is not there. -/
  | noAssembler (text : String)
deriving DecidableEq, Repr

def Fault.message : Fault → String
  | .unsupported name => "unsupported backend '" ++ name ++ "'"
  | .qbe why => why.message
  | .llvm why => why.message
  | .noAssembler text =>
    "\n--- LLVM Compilation Failed ---\nGenerated IR:\n" ++ text ++
      "\n\nError: llc not found in PATH: exec: \"llc\": executable file not found in $PATH"

/-- Whether a fault is a rule of the output form that the program breaks. Such a fault has a
wording or none. -/
def Fault.breakage? : Fault → Option (Option String)
  | .qbe .noCallee => some none
  | .llvm (.broken why) => some why.message?
  | _ => none

def render (b : Backend) (p : Ir.Program) : Except Fault String :=
  match b with
  | .qbe => (Qbe.render p).mapError .qbe
  | .llvm => (Llvm.render p).mapError .llvm

/-- The assembly of a program. Only the text that goes to the assembler is known here: that of QBE
accepts all of it and its result is left open, that of LLVM is not there. -/
def assemble (b : Backend) (p : Ir.Program) : Except Fault String := do
  let text ← b.render p
  match b with
  | .qbe => return ""
  | .llvm => .error (.noAssembler text)

def ofSettings (s : Settings) : Except Fault Backend :=
  match ofName? s.backend with
  | some b => .ok b
  | none => .error (.unsupported s.backend)

end Backend

end Quadruple
