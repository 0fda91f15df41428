import Quadruple.Ir.Listing

/-!
# LLVM modules

The part of LLVM assembly that programs are written in. Values are numbers; a pointer lives only
between the instruction that makes it from a number and the load or store that uses it. Results
and blocks are referred to by their place; their names in the text are given when it is printed.
-/

namespace Quadruple.Llvm

open Numeral (Binary64)

inductive Scalar where
  | void
  | i1
  | i8
  | i32
  | i64
  | double
  /-- What stands for a type of integers where none fits. It has no text in a module. -/
  | unsized
deriving DecidableEq, Repr, Inhabited

def Scalar.text : Scalar → String
  | .void => "void"
  | .i1 => "i1"
  | .i8 => "i8"
  | .i32 => "i32"
  | .i64 => "i64"
  | .double => "double"
  | .unsized => "<nil>"

def Scalar.className : Scalar → String
  | .void => "*types.VoidType"
  | .double => "*types.FloatType"
  | .i1 | .i8 | .i32 | .i64 | .unsized => "*types.IntType"

def Scalar.isSized : Scalar → Bool
  | .i1 | .i8 | .i32 | .i64 => true
  | .void | .double | .unsized => false

def Scalar.isInt (s : Scalar) : Bool := s.isSized || s = .unsized

structure Signature where
  ret : Scalar
  params : List Scalar
  variadic : Bool
deriving DecidableEq, Repr, Inhabited

/-- A value of the function: a parameter, or the result of an instruction. -/
inductive Local where
  | param (i : Nat)
  | instr (i : Nat)
deriving DecidableEq, Repr, Inhabited

inductive Operand where
  | int (ty : Scalar) (n : Int)
  | double (x : Binary64)
  | undef (ty : Scalar)
  | var (ty : Scalar) (x : Local)
deriving DecidableEq, Repr, Inhabited

def Operand.ty : Operand → Scalar
  | .int ty _ => ty
  | .double _ => .double
  | .undef ty => ty
  | .var ty _ => ty

/-- What has an address: a slot of the function, a global, or a function, the latter two by their
place in the module. -/
inductive Addressed where
  | slot (size : Nat) (x : Local)
  | data (i : Nat)
  | func (i : Nat)
deriving DecidableEq, Repr, Inhabited

inductive Instr where
  | alloca (size : Nat) (align : Int)
  | ptrToInt (src : Addressed) (dst : Scalar)
  | intToPtr (x : Operand) (elem : Scalar)
  | load (ty : Scalar) (ptr : Local)
  | store (x : Operand) (elem : Scalar) (ptr : Local)
  | binary (name : String) (x y : Operand)
  | fneg (x : Operand)
  | compare (name : String) (x y : Operand)
  | convert (name : String) (x : Operand) (dst : Scalar)
  | call (func : Nat) (ret : Scalar) (args : List Operand)
deriving DecidableEq, Repr, Inhabited

def Instr.hasResult : Instr → Bool
  | .store .. => false
  | .call _ ret _ => ret ≠ .void
  | _ => true

/-- Whether the result of an instruction takes a number of its own. One of type void does not. -/
def Instr.isNumbered : Instr → Bool
  | .store .. => false
  | .load ty _ => ty ≠ .void
  | .binary _ x _ | .fneg x => x.ty ≠ .void
  | .convert _ _ dst => dst ≠ .void
  | .call _ ret _ => ret ≠ .void
  | .alloca .. | .ptrToInt .. | .intToPtr .. | .compare .. => true

/-- How a block ends. Blocks are given by their place in the function. -/
inductive Terminator where
  | ret (x : Option Operand)
  | jump (block : Nat)
  | branch (cond : Local) (onTrue onFalse : Nat)
deriving DecidableEq, Repr, Inhabited

structure Block where
  name : String
  instrs : List (Nat × Instr) := []
  terminator : Option Terminator := none
deriving DecidableEq, Repr, Inhabited

structure Func where
  name : String
  sig : Signature
  blocks : Array Block := #[]
  /-- How many instructions the blocks hold. -/
  instrCount : Nat := 0
deriving DecidableEq, Repr, Inhabited

structure Global where
  name : String
  size : Nat
  content : Option (List UInt8)
  isConstant : Bool
  isPrivate : Bool
  align : Int
deriving DecidableEq, Repr, Inhabited

structure Module where
  globals : Array Global := #[]
  funcs : Array Func := #[]
deriving DecidableEq, Repr, Inhabited

inductive Refusal where
  | unknownGlobal (name : String)
  | undefinedTemp (text : String)
  | unusable (value : String) (ty : Scalar)
  | unknownBlock (value : String)
  | allocSize
  | unknownCallee (value : String)
  | unsupported (op : Ir.Op)
deriving DecidableEq, Repr

def Refusal.message : Refusal → String
  | .unknownGlobal name => "unknown global '" ++ name ++ "'"
  | .undefinedTemp text => "use of undefined temporary " ++ text
  | .unusable value ty => "cannot use " ++ value ++ " as " ++ ty.text
  | .unknownBlock value => "branch to unknown block " ++ value
  | .allocSize => "alloc of non-constant size"
  | .unknownCallee value => "call to unknown function " ++ value
  | .unsupported op => "no LLVM instruction for " ++ op.shown

inductive Breakage where
  | storeTypes (value elem : Scalar)
  | icmpOperand (ty : Scalar)
  | fcmpOperand (ty : Scalar)
  | noTerminator (block : String)
  /-- Something that an instruction needs is not there. -/
  | malformed
deriving DecidableEq, Repr

/-- The wording of a broken rule. There is none for malformed input. -/
def Breakage.message? : Breakage → Option String
  | .storeTypes value elem =>
    some ("store operands are not compatible: src=" ++ value.text ++ "; dst=" ++ elem.text ++ "*")
  | .icmpOperand ty =>
    some ("invalid icmp operand type; expected *types.IntType, *types.PointerType or " ++
      "*types.VectorType, got " ++ ty.className)
  | .fcmpOperand ty =>
    some ("invalid fcmp operand type; expected *types.FloatType or *types.VectorType, got " ++
      ty.className)
  | .noTerminator block =>
    some ("missing terminator in basic block " ++ Text.quote block ++ ".")
  | .malformed => none

inductive Fault where
  | dataByte (name : String)
  | dataType (name : String) (ty : Ir.Ty)
  | refused (func : String) (why : Refusal)
  | broken (why : Breakage)
deriving DecidableEq, Repr

def Fault.message : Fault → String
  | .dataByte name => "data '" ++ name ++ "': non-constant byte"
  | .dataType name ty =>
    "data '" ++ name ++ "': unsupported item type " ++ Numeral.decimalText ty.code
  | .refused func why => "function '" ++ func ++ "': " ++ why.message
  | .broken why => why.message?.getD ""

end Quadruple.Llvm
