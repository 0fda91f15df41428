import Quadruple.Ir.Basic
import Quadruple.Numeral.Shortest

/-!
# Listing of a program

A compact text of the functions of a program that does not depend on the target. A program with
an operand that is not given, or with an operation that has no name, has no listing.
-/

namespace Quadruple.Ir

open Numeral (decimalText)

def Value.text? : Value → Option String
  | .const n => some (decimalText n)
  | .float x _ => some x.text
  | .global name => some name
  | .temp name id => some (if id < 0 then name else name ++ "." ++ decimalText id)
  | .label name => some name
  | .missing => none

def Value.shown (v : Value) : String := v.text?.getD "<nil>"

def Op.shown : Op → String
  | .unnamed n =>
    (Op.unnamed n).name?.getD
      ("%!s(PANIC=String method: runtime error: index out of range [" ++ decimalText n ++ "])")
  | op => op.name?.getD ""

def Instr.listing? (i : Instr) : Option String := do
  let result ← match i.result with
    | some r => r.text?.map (· ++ " = ")
    | none => some ""
  let op ← i.op.name?
  let args ← i.args.mapM fun a => a.text?.map (" " ++ ·)
  return "\t" ++ result ++ op ++ ",".intercalate args ++ "\n"

def Block.listing? (b : Block) : Option String := do
  return b.label ++ ":\n" ++ String.join (← b.instrs.mapM Instr.listing?)

def Func.listing? (f : Func) : Option String := do
  return "function " ++ f.name ++ "\n" ++ String.join (← f.blocks.mapM Block.listing?)

def Program.listing? (p : Program) : Option String := do
  return String.join (← p.funcs.mapM Func.listing?)

end Quadruple.Ir
