import Quadruple.Ir.Listing

/-!
# QBE text

The intermediate form as input for the QBE compiler: data definitions, the string literals behind
an empty line, and the functions. Addresses have the type of the machine's word.
-/

namespace Quadruple.Qbe

open Numeral (decimalText wrap64)

inductive Fault where
  | unsupported (func : String) (op : Ir.Op)
  /-- A call without the operand that it calls. -/
  | noCallee
deriving DecidableEq, Repr

def Fault.message : Fault → String
  | .unsupported func op => "function '" ++ func ++ "': no QBE instruction for " ++ op.shown
  | .noCallee => ""

def tyText (wordSize : Int) : Ir.Ty → String
  | .byte => "b"
  | .word => "w"
  | .long => "l"
  | .double => "d"
  | .ptr => if wordSize = 4 then "w" else "l"
  | .none | .unnamed _ => ""

def safeName (name : String) : String :=
  String.ofList (name.toList.map fun c => if c == '.' || c == '[' || c == ']' then '_' else c)

def valueText (wordSize : Int) : Ir.Value → String
  | .const n => decimalText n
  | .float x ty => tyText wordSize ty ++ "_" ++ x.text
  | .global name => "$" ++ name
  | .temp name id =>
    let name := safeName name
    if id = -1 then "%" ++ name
    else if name = "" then "%t" ++ decimalText id
    else "%." ++ name ++ "_" ++ decimalText id
  | .label name => "@" ++ name
  | .missing => ""

def itemText (wordSize : Int) (i : Ir.Item) : String :=
  if 0 < i.count then
    "z " ++ decimalText
      (if i.ty = .byte then i.count else wrap64 (i.count * i.ty.size wordSize))
  else tyText wordSize i.ty ++ " " ++ valueText wordSize i.value

def dataText (wordSize : Int) (d : Ir.Data) : String :=
  (if d.exported then "export " else "") ++ "data $" ++ d.name ++ " = " ++
    (if 0 < d.align then "align " ++ decimalText d.align ++ " " else "") ++ "\x7b " ++
    ", ".intercalate (d.items.map (itemText wordSize)) ++ " \x7d\n"

/-- The name of a comparison on operands of type `ty`: signed, unless they are doubles. -/
def comparison (wordSize : Int) (relation : String) (ty : Ir.Ty) : String :=
  (if ty = .double then "c" else "cs") ++ relation ++ tyText wordSize ty

/-- The name of the operation of an instruction. A call has a form of its own. -/
def opText? (wordSize : Int) (i : Ir.Instr) : Option String :=
  let ty := if i.operandTy = .none then i.ty else i.operandTy
  match i.op with
  | .alloc => some (if i.align ≤ 4 then "alloc4" else if i.align ≤ 8 then "alloc8" else "alloc16")
  | .load => some ("load" ++ tyText wordSize i.ty)
  | .store => some ("store" ++ tyText wordSize i.ty)
  | .copy => some "copy"
  | .add => some "add"
  | .sub => some "sub"
  | .mul => some "mul"
  | .div => some "div"
  | .rem => some "rem"
  | .and => some "and"
  | .or => some "or"
  | .xor => some "xor"
  | .shl => some "shl"
  | .sar => some "sar"
  | .neg => some "neg"
  | .ceq => some ("ceq" ++ tyText wordSize ty)
  | .cne => some ("cne" ++ tyText wordSize ty)
  | .clt => some (comparison wordSize "lt" ty)
  | .cgt => some (comparison wordSize "gt" ty)
  | .cle => some (comparison wordSize "le" ty)
  | .cge => some (comparison wordSize "ge" ty)
  | .extsw => some "extsw"
  | .ftosi => some "dtosi"
  | .swtof => some "swtof"
  | .jmp => some "jmp"
  | .jnz => some "jnz"
  | .ret => some "ret"
  | .call | .unnamed _ => none

def resultText (wordSize : Int) (i : Ir.Instr) : String :=
  match i.result with
  | some r => valueText wordSize r ++ " =" ++ tyText wordSize i.ty ++ " "
  | none => ""

/-- The number of arguments of a call before those that vary, negative where none varies. -/
def fixedCount (p : Ir.Program) : Ir.Value → Int
  | .global name => match p.findForeign? name with
    | some f => if f.variadic then f.fixed else -1
    | none => -1
  | _ => -1

def argText (wordSize : Int) (tys : List Ir.Ty) (k : Nat) (arg : Ir.Value) : String :=
  tyText wordSize ((tys[k]?).getD .ptr) ++ " " ++ valueText wordSize arg

/-- The arguments from place `k` of `count` on, with a marker before the one at place `fixed`. -/
def argsText (wordSize fixed : Int) (tys : List Ir.Ty) (count : Nat) : Nat → List Ir.Value → String
  | _, [] => ""
  | k, arg :: args =>
    (if k = fixed then "..., " else "") ++ argText wordSize tys k arg ++
      (if k + 1 < count then ", " else "") ++ argsText wordSize fixed tys count (k + 1) args

/-- The marker behind the arguments, when none of them is one that varies. -/
def endMarker (fixed : Int) (count : Nat) : String :=
  if count ≤ fixed then (if 0 < count then ", " else "") ++ "..." else ""

def callText (p : Ir.Program) (i : Ir.Instr) : Except Fault String :=
  match i.args with
  | [] => .error .noCallee
  | callee :: args =>
    let fixed := fixedCount p callee
    .ok (resultText p.wordSize i ++ "call " ++ valueText p.wordSize callee ++ "(" ++
      (argsText p.wordSize fixed i.argTys args.length 0 args ++ endMarker fixed args.length) ++ ")")

def instrText (p : Ir.Program) (func : String) (i : Ir.Instr) : Except Fault String := do
  let text ← match i.op with
    | .call => callText p i
    | op => match opText? p.wordSize i with
      | some name =>
        .ok (resultText p.wordSize i ++ name ++
          ",".intercalate (i.args.map fun a => " " ++ valueText p.wordSize a))
      | none => .error (.unsupported func op)
  return "\t" ++ text ++ "\n"

def blockText (p : Ir.Program) (func : String) (b : Ir.Block) : Except Fault String := do
  return "@" ++ b.label ++ "\n" ++ String.join (← b.instrs.mapM (instrText p func))

def funcText (p : Ir.Program) (f : Ir.Func) : Except Fault String := do
  let ret := tyText p.wordSize f.ret
  let params := f.params.map fun x => tyText p.wordSize x.ty ++ " " ++ valueText p.wordSize x.val
  let blocks ← f.blocks.mapM (blockText p f.name)
  return "\nexport function" ++ (if ret = "" then "" else " " ++ ret) ++ " $" ++ f.name ++ "(" ++
    ", ".intercalate params ++ ") \x7b\n" ++ String.join blocks ++ "\x7d\n"

def render (p : Ir.Program) : Except Fault String := do
  let globals := String.join (p.globals.map (dataText p.wordSize))
  let strings :=
    if p.strings.isEmpty then "" else "\n" ++ String.join (p.strings.map (dataText p.wordSize))
  return globals ++ strings ++ String.join (← p.funcs.mapM (funcText p))

end Quadruple.Qbe
