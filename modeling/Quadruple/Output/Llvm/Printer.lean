import Quadruple.Output.Llvm.Basic
import Quadruple.Text.Escape

/-!
# LLVM modules as text

Globals come first, one per line, then the functions. Values without a name are numbered through
each function: the parameters, then block by block the block itself if it has no name, and the
instructions that have a result. A result of type void is written with the number 0.
-/

namespace Quadruple.Llvm

open Numeral (Binary64 decimalText digitCount)

/-! ## Names -/

def upperHex (width n : Nat) : String :=
  String.ofList ((Text.hexDigits width n).map Char.toUpper)

/-- Bytes between double quotes; those that are no plain ASCII characters, quotes and backslashes
are written as two hexadecimal digits. -/
def quoteBytes (bytes : List UInt8) : String :=
  let one (b : UInt8) : String :=
    if 0x20 ≤ b && b < 0x7f && b ≠ '"'.toUInt8 && b ≠ '\\'.toUInt8 then
      String.ofList [Char.ofNat b.toNat]
    else "\\" ++ upperHex 2 b.toNat
  "\"" ++ String.join (bytes.map one) ++ "\""

def isNameChar (c : Char) : Bool :=
  c.isAlphanum || c == '$' || c == '-' || c == '.' || c == '_'

def isNumber (name : String) : Bool :=
  let cs := name.toList
  !cs.isEmpty && cs.all Char.isDigit && (Numeral.readDigits 10 false 0 cs).toBool

def nameText (name : String) : String :=
  if name.toList.all isNameChar && !isNumber name then name
  else quoteBytes (Text.utf8Bytes name)

/-! ## Constants -/

def distinctCount (cs : List Char) : Nat := cs.eraseDups.length

/-- How many distinct hexadecimal digits a number may have to be written in hexadecimal. -/
def hexDigitLimit (digits : Nat) : Nat := if digits ≤ 6 then 2 else if digits ≤ 10 then 3 else 4

/-- Whether a number is written in hexadecimal: it is large, has few distinct hexadecimal digits,
and its decimal digits vary more, by a fifth of their number, as double precision counts it. -/
def prefersHex (n : Nat) : Bool :=
  let hex := Nat.toDigits 16 n
  let dec := Nat.toDigits 10 n
  let hexShare := Binary64.ofQuotient (distinctCount hex) (min hex.length 16)
  let decShare := Binary64.ofQuotient (distinctCount dec) (min dec.length 10)
  4096 ≤ n && distinctCount hex ≤ hexDigitLimit hex.length &&
    (hexShare.add (.ofQuotient 1 5)).units ≤ decShare.units

def intText (n : Int) : String :=
  if 0 ≤ n && prefersHex n.toNat then "u0x" ++ upperHex 0 n.toNat else decimalText n

def withPoint (text : String) : String :=
  let cs := text.toList
  if cs.contains '.' then text
  else
    let (digits, exponent) := cs.span (· != 'e')
    String.ofList (digits ++ '.' :: '0' :: exponent)

/-- A double: in decimal when its shortest digits are exact, else its bits in hexadecimal. -/
def doubleText (x : Binary64) : String :=
  let (m, q) := x.magnitude
  let exact := match x.shortest? with
    | none => true
    | some d => d.isExactly m q
  if x.isNaN then "0x7FF8000000000000"
  else if x.isFinite && exact then withPoint x.text
  else "0x" ++ upperHex 0 x.bits.toNat

/-! ## Modules -/

structure Numbering where
  instrs : Array Nat
  blocks : Array Nat
deriving Inhabited

def numberInstrs (numbers : Array Nat) (next : Nat) :
    List (Nat × Instr) → Array Nat × Nat
  | [] => (numbers, next)
  | (place, i) :: rest =>
    if i.isNumbered then numberInstrs (numbers.setIfInBounds place next) (next + 1) rest
    else numberInstrs numbers next rest

def numberBlocks (n : Numbering) (next : Nat) : List Block → Numbering
  | [] => n
  | b :: rest =>
    let unnamed := b.name.isEmpty
    let (instrs, after) := numberInstrs n.instrs (if unnamed then next + 1 else next) b.instrs
    numberBlocks ⟨instrs, n.blocks.push next⟩ after rest

def numbering (f : Func) : Numbering :=
  numberBlocks ⟨Array.replicate f.instrCount 0, #[]⟩ f.sig.params.length f.blocks.toList

def globalNames (names : List String) (next : Nat) : List String :=
  match names with
  | [] => []
  | name :: rest =>
    if name.isEmpty then ("@" ++ decimalText next) :: globalNames rest (next + 1)
    else ("@" ++ nameText name) :: globalNames rest next

structure Context where
  module : Module
  /-- The names of the globals, then those of the functions. -/
  names : Array String
  func : Func
  numbers : Numbering
deriving Inhabited

namespace Context

def globalName (c : Context) (i : Nat) : String := (c.names[i]?).getD ""

def funcName (c : Context) (i : Nat) : String := (c.names[c.module.globals.size + i]?).getD ""

def localText (c : Context) : Local → String
  | .param i => "%" ++ decimalText i
  | .instr i => "%" ++ decimalText (c.numbers.instrs.getD i 0)

def blockText (c : Context) (i : Nat) : String :=
  match c.func.blocks[i]? with
  | some b =>
    "%" ++ (if b.name.isEmpty then decimalText (c.numbers.blocks.getD i 0) else nameText b.name)
  | none => "%"

end Context

def bytesTy (size : Nat) : String := "[" ++ decimalText size ++ " x i8]"

/-- The types of parameters, with the mark of varying ones, in brackets. -/
def paramsText (items : List String) (variadic : Bool) : String :=
  "(" ++ ", ".intercalate (items ++ if variadic then ["..."] else []) ++ ")"

def Signature.text (s : Signature) : String :=
  s.ret.text ++ " " ++ paramsText (s.params.map Scalar.text) s.variadic

def operandText (c : Context) : Operand → String
  | .int _ n => intText n
  | .double x => doubleText x
  | .undef _ => "undef"
  | .var _ x => c.localText x

def noIntegerText : String :=
  "%!s(PANIC=String method: runtime error: invalid memory address or nil pointer dereference)"

def typedText (c : Context) : Operand → String
  | .int .unsized _ => noIntegerText
  | x => x.ty.text ++ " " ++ operandText c x

def addressedText (c : Context) : Addressed → String
  | .slot size x => bytesTy size ++ "* " ++ c.localText x
  | .data i => match c.module.globals[i]? with
    | some g => bytesTy g.size ++ "* " ++ c.globalName i
    | none => ""
  | .func i => match c.module.funcs[i]? with
    | some f => f.sig.text ++ "* " ++ c.funcName i
    | none => ""

def callText (c : Context) (func : Nat) (args : List Operand) : String :=
  let sig := match c.module.funcs[func]? with
    | some f => f.sig
    | none => default
  "call " ++ (if sig.variadic then sig.text else sig.ret.text) ++ " " ++
    c.funcName func ++ "(" ++ ", ".intercalate (args.map (typedText c)) ++ ")"

def bodyText (c : Context) : Instr → String
  | .alloca size align =>
    "alloca " ++ bytesTy size ++ (if 0 < align then ", align " ++ decimalText align else "")
  | .ptrToInt src dst => "ptrtoint " ++ addressedText c src ++ " to " ++ dst.text
  | .intToPtr x elem => "inttoptr " ++ typedText c x ++ " to " ++ elem.text ++ "*"
  | .load ty ptr => "load " ++ ty.text ++ ", " ++ ty.text ++ "* " ++ c.localText ptr
  | .store x elem ptr =>
    "store " ++ typedText c x ++ ", " ++ elem.text ++ "* " ++ c.localText ptr
  | .binary name x y | .compare name x y =>
    name ++ " " ++ typedText c x ++ ", " ++ operandText c y
  | .fneg x => "fneg " ++ typedText c x
  | .convert name x dst => name ++ " " ++ typedText c x ++ " to " ++ dst.text
  | .call func _ args => callText c func args

def instrText (c : Context) (place : Nat) (i : Instr) : String :=
  "\t" ++ (if i.hasResult then c.localText (.instr place) ++ " = " else "") ++ bodyText c i ++ "\n"

def terminatorText (c : Context) : Terminator → String
  | .ret none => "ret void"
  | .ret (some x) => "ret " ++ typedText c x
  | .jump b => "br label " ++ c.blockText b
  | .branch cond t f =>
    "br i1 " ++ c.localText cond ++ ", label " ++ c.blockText t ++ ", label " ++ c.blockText f

/-- The name of a block in messages: one that reads as an integer is shown as that integer, in
quotes. -/
def shownBlockName (name : String) : String :=
  match (Numeral.readDecimal name).value? with
  | some n => "\"" ++ decimalText n ++ "\""
  | none => name

def blockText (c : Context) (i : Nat) (b : Block) : Except Breakage String :=
  let number := decimalText (c.numbers.blocks.getD i 0)
  match b.terminator with
  | none => .error (.noTerminator (if b.name.isEmpty then number else shownBlockName b.name))
  | some t =>
    .ok ((if b.name.isEmpty then number else nameText b.name) ++ ":\n" ++
      String.join (b.instrs.map fun (place, instr) => instrText c place instr) ++
      "\t" ++ terminatorText c t ++ "\n")

def funcText (c : Context) (name : String) : Except Breakage String := do
  let f := c.func
  let params := f.sig.params.zipIdx.map fun (ty, i) => ty.text ++ " %" ++ decimalText i
  let head := f.sig.ret.text ++ " " ++ name ++ paramsText params f.sig.variadic
  if f.blocks.isEmpty then return "declare " ++ head ++ "\n"
  else
    let blocks ← f.blocks.toList.zipIdx.mapM fun (b, i) => blockText c i b
    return "define " ++ head ++ " \x7b\n" ++ "\n".intercalate blocks ++ "\x7d\n"

def globalText (name : String) (g : Global) : String :=
  name ++ " = " ++ (if g.isPrivate then "private " else "") ++
    (if g.isConstant then "constant " else "global ") ++ bytesTy g.size ++ " " ++
    (match g.content with
      | some bytes => "c" ++ quoteBytes bytes
      | none => "zeroinitializer") ++
    (if 0 < g.align then ", align " ++ decimalText g.align else "") ++ "\n"

def Module.text (m : Module) : Except Breakage String := do
  let globals := m.globals.toList
  let funcs := m.funcs.toList
  let names := globalNames (globals.map (·.name) ++ funcs.map (·.name)) 0
  let globals := (globals.zip names).map fun (g, name) => globalText name g
  let funcs ← (funcs.zip (names.drop m.globals.size)).mapM fun (f, name) =>
    funcText ⟨m, names.toArray, f, numbering f⟩ name
  return String.join globals ++
    (if m.globals.isEmpty || m.funcs.isEmpty then "" else "\n") ++ "\n".intercalate funcs

end Quadruple.Llvm
