import Quadruple.Numeral.Binary64
import Quadruple.Numeral.Integer

/-!
# The typed intermediate form

A program of data definitions and functions whose blocks hold typed instructions. Addresses are
numbers of the machine's word size. Codes without a name are kept, so that every program that can
be written down has a value here.
-/

namespace Quadruple.Ir

open Numeral (Binary64 wrap64)

inductive Ty where
  | none
  | byte
  /-- 32 bits. -/
  | word
  /-- 64 bits. -/
  | long
  | double
  /-- An address, as wide as the machine's word. -/
  | ptr
  | unnamed (code : Int)
deriving DecidableEq, Repr, Inhabited

def Ty.named : List Ty := [.none, .byte, .word, .long, .double, .ptr]

def Ty.ofCode (n : Int) : Ty :=
  if n < 0 then .unnamed n else (Ty.named[n.toNat]?).getD (.unnamed n)

def Ty.code : Ty → Int
  | .none => 0
  | .byte => 1
  | .word => 2
  | .long => 3
  | .double => 4
  | .ptr => 5
  | .unnamed n => n

def Ty.size (wordSize : Int) : Ty → Int
  | .byte => 1
  | .word => 4
  | .long | .double => 8
  | .none | .ptr | .unnamed _ => wordSize

inductive Op where
  | alloc | load | store | copy
  | add | sub | mul | div | rem
  | and | or | xor | shl | sar | neg
  | ceq | cne | clt | cgt | cle | cge
  | extsw | ftosi | swtof
  | jmp | jnz | ret | call
  | unnamed (code : Int)
deriving DecidableEq, Repr, Inhabited

def Op.named : List (Op × String) :=
  [(.alloc, "alloc"), (.load, "load"), (.store, "store"), (.copy, "copy"), (.add, "add"),
    (.sub, "sub"), (.mul, "mul"), (.div, "div"), (.rem, "rem"), (.and, "and"), (.or, "or"),
    (.xor, "xor"), (.shl, "shl"), (.sar, "sar"), (.neg, "neg"), (.ceq, "ceq"), (.cne, "cne"),
    (.clt, "clt"), (.cgt, "cgt"), (.cle, "cle"), (.cge, "cge"), (.extsw, "extsw"),
    (.ftosi, "ftosi"), (.swtof, "swtof"), (.jmp, "jmp"), (.jnz, "jnz"), (.ret, "ret"),
    (.call, "call")]

def Op.ofCode (n : Int) : Op :=
  if n < 0 then .unnamed n
  else match Op.named[n.toNat]? with
    | some (op, _) => op
    | none => .unnamed n

def Op.ofName? (name : String) : Option Op :=
  (Op.named.find? fun p => p.2 == name).map (·.1)

def Op.name? : Op → Option String
  | .unnamed n => if n < 0 then none else some ("op(" ++ Numeral.decimalText n ++ ")")
  | op => Op.named.lookup op

def Op.isComparison : Op → Bool
  | .ceq | .cne | .clt | .cgt | .cle | .cge => true
  | _ => false

def Op.isTerminator : Op → Bool
  | .jmp | .jnz | .ret => true
  | _ => false

inductive Value where
  | const (n : Int)
  | float (x : Binary64) (ty : Ty)
  | global (name : String)
  /-- A temporary. One with a negative number is a named slot. -/
  | temp (name : String) (id : Int)
  | label (name : String)
  /-- The place of an operand that was not given. -/
  | missing
deriving DecidableEq, Repr, Inhabited

structure Instr where
  op : Op
  ty : Ty := .none
  /-- The type of the operands, where it differs from that of the result. -/
  operandTy : Ty := .none
  result : Option Value := none
  args : List Value := []
  /-- The types of the arguments of a call. -/
  argTys : List Ty := []
  align : Int := 0
deriving DecidableEq, Repr, Inhabited

structure Block where
  label : String
  instrs : List Instr
deriving DecidableEq, Repr, Inhabited

def Block.isTerminated (b : Block) : Bool :=
  match b.instrs.getLast? with
  | some i => i.op.isTerminator
  | none => false

structure Param where
  name : String
  ty : Ty
  val : Value
deriving DecidableEq, Repr, Inhabited

structure Func where
  name : String
  params : List Param
  ret : Ty
  blocks : List Block
deriving DecidableEq, Repr, Inhabited

/-- A function that the program calls and does not define. `fixed` counts the parameters before
those that vary. -/
structure Foreign where
  name : String
  ret : Ty
  variadic : Bool
  fixed : Int
deriving DecidableEq, Repr, Inhabited

/-- One typed value or, when `count` is positive, that many zero bytes. -/
structure Item where
  ty : Ty
  value : Value := .missing
  count : Int := 0
deriving DecidableEq, Repr, Inhabited

/-- A definition of storage. Exported data is visible to the linker. -/
structure Data where
  name : String
  align : Int
  exported : Bool
  readOnly : Bool
  items : List Item
deriving DecidableEq, Repr, Inhabited

def Item.size (wordSize : Int) (i : Item) : Int :=
  if 0 < i.count then i.count else i.ty.size wordSize

def Data.size (wordSize : Int) (d : Data) : Int :=
  d.items.foldl (fun n i => wrap64 (n + i.size wordSize)) 0

structure Program where
  wordSize : Int
  globals : List Data
  strings : List Data
  foreign : List Foreign
  funcs : List Func
deriving DecidableEq, Repr, Inhabited

namespace Program

def empty (wordSize : Int) : Program := ⟨wordSize, [], [], [], []⟩

def findFunc? (p : Program) (name : String) : Option Func := p.funcs.find? (·.name == name)

def findForeign? (p : Program) (name : String) : Option Foreign :=
  p.foreign.find? (·.name == name)

end Program

end Quadruple.Ir
