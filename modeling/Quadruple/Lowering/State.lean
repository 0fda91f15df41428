import Quadruple.Diagnostic
import Quadruple.Flow.Graph
import Quadruple.Symbols.Table
import Quadruple.Text.Escape

/-!
# Lowering: state, faults and small steps

Lowering turns a flow graph into the typed intermediate form. It walks the blocks of each function
in order and keeps, for every temporary, what it is bound to. The symbol table and the report
outlive a program: one lowering after another can use them, also after a fault.
-/

namespace Quadruple

open Numeral (decimalText)
open Symbols (Entry EntryId Table)

namespace Lowering

structure Binding where
  val : Ir.Value
  /-- The type of the value itself. -/
  ty : Ir.Ty
  /-- The type of what is stored, when the value is an address. -/
  elem : Ir.Ty := .none
  isArray : Bool := false
  /-- The name of the function, when the value designates one. -/
  callee : Option String := none
deriving DecidableEq, Repr, Inhabited

structure State where
  settings : Settings
  table : Table
  report : Report
  file : String
  /-- The names of the functions that the program defines. -/
  defined : List String := []
  /-- The contents of the string literals so far. -/
  literals : List (List UInt8) := []
  foreign : List Ir.Foreign := []
  line : Int := 0
  /-- The function that is being lowered and its return type. -/
  func : String := ""
  ret : Ir.Ty := .none
  /-- The bindings of the temporaries, the latest first. -/
  bindings : List (Temp × Binding) := []
  /-- The instructions of the current block, the last first. -/
  revInstrs : List Ir.Instr := []
  /-- How many conversions and fillers the function has. -/
  conversions : Nat := 0
  fillers : Nat := 0
deriving Inhabited

inductive Fault where
  | undefinedTemp (t : Temp) (func : String)
  | notAddress (t : Temp) (func : String)
  | notCallable (t : Temp) (func : String)
  | unknownRef (storage : Storage) (name func : String)
  | unknownUnary (op : String)
  | unknownBinary (op : String)
  | badFloat (text : String)
  | misplaced (q : Quad)
  /-- A function has no block to start at. -/
  | noEntry (func : String)
deriving DecidableEq, Repr

def Fault.message : Fault → String
  | .undefinedTemp t func => "use of undefined temporary " ++ t.text ++ " in '" ++ func ++ "'"
  | .notAddress t func => "temporary " ++ t.text ++ " in '" ++ func ++ "' is not an address"
  | .notCallable t func =>
    "call through non-function temporary " ++ t.text ++ " in '" ++ func ++ "'"
  | .unknownRef storage name func =>
    "reference to unknown " ++ storage.keyword ++ " '" ++ name ++ "' in '" ++ func ++ "'"
  | .unknownUnary op => "unknown unary operator '" ++ op ++ "'"
  | .unknownBinary op => "unknown binary operator '" ++ op ++ "'"
  | .badFloat text => "bad floating-point constant '" ++ text ++ "'"
  | .misplaced q => "quad '" ++ q.text ++ "' cannot appear inside a basic block"
  | .noEntry func => "function '" ++ func ++ "' has no block"

inductive Notice where
  | operandTypes (op : String) (expected got : Ir.Ty)
  | constantRange (text : String)
  | argumentCount (name : String) (given : Nat) (expected : Int)
  | implicitFunction (name : String)
  | unreachableBlock (label func : String)
deriving DecidableEq, Repr

def typeName (t : Ir.Ty) : String := if t = .double then "double" else "int"

def Notice.message : Notice → String
  | .operandTypes op expected got =>
    "operator '" ++ op ++ "' expects " ++ typeName expected ++ " operands, got " ++ typeName got
  | .constantRange text => "integer constant '" ++ text ++ "' is out of range"
  | .argumentCount name given expected =>
    "function '" ++ name ++ "' called with " ++ decimalText given ++
      (if given = 1 then " argument" else " arguments") ++ ", expects " ++ decimalText expected
  | .implicitFunction name => "implicit declaration of function '" ++ name ++ "'"
  | .unreachableBlock label func =>
    "unreachable code in block " ++ label ++ " of '" ++ func ++ "'"

end Lowering

abbrev LowerM := EStateM Lowering.Fault Lowering.State

namespace Lowering

def State.new (settings : Settings) (table : Table) (report : Report) (file : String) : State :=
  { settings, table, report, file }

def State.pos (s : State) : Pos := ⟨s.file, s.line⟩

def error (n : Notice) : LowerM Unit :=
  modify fun s => { s with report := s.report.error s.pos n.message }

def warn (kind : Warning) (pos : Pos) (n : Notice) : LowerM Unit :=
  modify fun s => { s with report := s.report.warn kind pos n.message }

def machineTy (t : Tag) : Ir.Ty :=
  if t.meets (Tag.address.union (Tag.array.union Tag.string)) then .ptr
  else if t.isDouble then .double
  else .word

def addInstr (i : Ir.Instr) : LowerM Unit :=
  modify fun s => { s with revInstrs := i :: s.revInstrs }

def bind (t : Temp) (b : Binding) : LowerM Unit :=
  modify fun s => { s with bindings := (t, b) :: s.bindings }

def binding (t : Temp) : LowerM Binding := do
  let s ← get
  match s.bindings.lookup t with
  | some b => return b
  | none => throw (.undefinedTemp t s.func)

def address (t : Temp) : LowerM Binding := do
  let b ← binding t
  if b.ty ≠ .ptr || b.callee.isSome then throw (.notAddress t (← get).func)
  return b

def tempValue (t : Temp) : Ir.Value := .temp "t" t.number

def defineTemp (t : Temp) (ty : Ir.Ty) (i : Ir.Instr) : LowerM Unit := do
  bind t { val := tempValue t, ty }
  addInstr { i with ty, result := some (tempValue t) }

def newConversion : LowerM Ir.Value :=
  modifyGet fun s =>
    (.temp "x" (s.conversions + 1 : Nat), { s with conversions := s.conversions + 1 })

/-! ## Entries -/

def getEntry (id : EntryId) : LowerM Entry := return (← get).table.entry id

def setEntry (id : EntryId) (f : Entry → Entry) : LowerM Unit :=
  modify fun s => { s with table := s.table.modifyEntry id f }

def installGlobal (name : String) : LowerM EntryId :=
  modifyGet fun s =>
    let (id, table) := s.table.installAt name 0
    (id, { s with table })

def globalEntry (name : String) : LowerM EntryId := do
  match (← get).table.lookupGlobal? name with
  | some id => return id
  | none => installGlobal name

def install (name : String) : LowerM EntryId :=
  modifyGet fun s =>
    let (id, table) := s.table.install name
    (id, { s with table })

/-- Runs a step in a scope of its own, which is left also after a fault. -/
def inScope {α : Type} (step : LowerM α) : LowerM α := fun s =>
  match step { s with table := s.table.enter } with
  | .ok a s => .ok a { s with table := s.table.leave }
  | .error e s => .error e { s with table := s.table.leave }

end Lowering

end Quadruple
