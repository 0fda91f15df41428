import Quadruple.Code.Printer
import Quadruple.Diagnostic
import Quadruple.Symbols.Table

/-!
# The emitter

The emitter turns expressions and statements into quadruples, one operation per construct of the
source. A jump whose target is not known yet goes to a blank; blanks that will get the same label
are linked into a chain, and when the label is known an equation is emitted for each of them.

An operation that breaks a rule of the emitter itself ends with a fault. What it emitted and changed
before stays, so operations are functions from a state to a state and either a result or a fault.
What is wrong with the source is a diagnostic, and the work goes on.
-/

namespace Quadruple

open Numeral (decimalText)
open Symbols (Entry EntryId Table)

namespace Emit

/-- A list of blanks that get the same label, by its first and last link. -/
inductive Chain where
  | empty
  | span (first last : Nat)
deriving DecidableEq, Repr, Inhabited

structure Link where
  blank : Nat
  next : Option Nat
deriving DecidableEq, Repr, Inhabited

/-- What is known of an expression: the temporary that holds it, its type and, when it was
evaluated for control, the blanks to which its true and false exits jump. -/
structure Value where
  place : Temp
  tag : Tag
  onTrue : Chain := .empty
  onFalse : Chain := .empty
deriving DecidableEq, Repr, Inhabited

inductive ArgList where
  | empty
  | span (row size : Nat)
deriving DecidableEq, Repr, Inhabited

def rowRooms : List Nat :=
  [1, 2, 4, 8, 16, 32, 64, 143, 287, 607, 1023, 1535, 2303, 3071, 4095, 6144, 8192, 11264, 14336]

/-- The room of the row that takes over from one with room for `n` values. -/
def nextRoom (n : Nat) : Nat := (rowRooms.find? (n < ·)).getD (2 * n)

/-- Values with room for more behind them. Lists that grow from one list share its row as long as
there is room, and then the last of them to grow decides what stands behind their common part. -/
structure ArgRow where
  room : Nat
  values : List Value
deriving DecidableEq, Repr, Inhabited

/-- Puts a value at a place of a row, which may be the first free one. -/
def ArgRow.put (r : ArgRow) (place : Nat) (v : Value) : ArgRow :=
  { r with values := r.values.take place ++ v :: r.values.drop (place + 1) }

structure LoopScope where
  onContinue : Chain := .empty
  onBreak : Chain := .empty
deriving DecidableEq, Repr, Inhabited

/-- The jumps to a label of the source that were emitted before its declaration. -/
structure PendingLabel where
  name : String
  blanks : List Nat
  declared : Bool
deriving DecidableEq, Repr, Inhabited

structure State where
  settings : Settings
  table : Table
  report : Report
  file : String
  line : Int
  code : Array Quad
  /-- How many temporaries, labels and blanks there are. -/
  temps : Nat
  labels : Nat
  blanks : Nat
  /-- Whether the last label still marks the current point. -/
  marked : Bool
  links : Array Link
  rows : Array ArgRow
  /-- The labels that blanks have got, the latest first. -/
  patched : List (Nat × Int)
  /-- The open loops, the innermost first. -/
  loops : List LoopScope
  pending : List PendingLabel
  /-- The labels of the source that the function has declared. -/
  declared : List (String × Nat)
  func : Option EntryId
  formals : List EntryId
  locals : List EntryId
  /-- Whether the storage of the function has been emitted. -/
  headed : Bool
deriving Inhabited

def State.new (settings : Settings) (table : Table) (report : Report) : State :=
  { settings, table, report, file := "", line := 0, code := #[], temps := 0, labels := 0,
    blanks := 0, marked := false, links := #[], rows := #[], patched := [], loops := [], pending := [],
    declared := [], func := none, formals := [], locals := [], headed := false }

inductive Fault where
  | patchedTwice (blank : Nat) (first second : Int)
  | declarationOutside (name : String)
  /-- The head of a function that is not known. -/
  | noFunction
  | openLoops (func : String) (depth : Nat)
  | unknownUnary (op : String)
  | unknownArith (op : String)
  | unknownBitwise (op : String)
  | unknownRelation (op : String)
  | noLoop
  | loopUnderflow
  | loopsTooDeep (limit : Int) (func : String)
  | tooManyLabels (limit : Int) (func : String)
  | tooManyGotos (limit : Int) (label : String)
  | returnOutside
deriving DecidableEq, Repr

def Fault.message : Fault → String
  | .patchedTwice b l m =>
    "blank label " ++ blankName b ++ " backpatched twice (" ++ labelName l ++ ", then " ++
      labelName m ++ ")"
  | .declarationOutside name => "declaration of '" ++ name ++ "' outside a function"
  | .noFunction => ""
  | .openLoops func depth =>
    "function '" ++ func ++ "' ends inside " ++ decimalText depth ++ " open loop scopes"
  | .unknownUnary op => "unknown unary operator '" ++ op ++ "'"
  | .unknownArith op => "unknown arithmetic operator '" ++ op ++ "'"
  | .unknownBitwise op => "unknown bitwise operator '" ++ op ++ "'"
  | .unknownRelation op => "unknown relational operator '" ++ op ++ "'"
  | .noLoop => "loop scope stack is empty"
  | .loopUnderflow => "loop scope stack underflow"
  | .loopsTooDeep limit func =>
    "loops nested deeper than " ++ decimalText limit ++ " in function '" ++ func ++ "'"
  | .tooManyLabels limit func =>
    "more than " ++ decimalText limit ++ " forward goto labels in function '" ++ func ++ "'"
  | .tooManyGotos limit label =>
    "more than " ++ decimalText limit ++ " gotos to label '" ++ label ++ "'"
  | .returnOutside => "return outside of a function"

inductive Notice where
  | redeclared (name : String)
  | redeclaredAsProcedure (name : String)
  | redefinedProcedure (name : String)
  | procedureType (name : String)
  | undeclaredLabel (name : String)
  | redeclaredLabel (name : String)
  | undeclared (name : String)
  | doubleRemainder
  | breakOutside
  | continueOutside
  | converted
  | implicitFunction (name : String)
deriving DecidableEq, Repr

def Notice.message : Notice → String
  | .redeclared name => "identifier '" ++ name ++ "' previously declared"
  | .redeclaredAsProcedure name => "'" ++ name ++ "' redeclared as a procedure"
  | .redefinedProcedure name => "procedure '" ++ name ++ "' previously defined"
  | .procedureType name => "procedure '" ++ name ++ "' type does not match"
  | .undeclaredLabel name => "label '" ++ name ++ "' referenced in goto, but never declared"
  | .redeclaredLabel name => "label '" ++ name ++ "' previously declared"
  | .undeclared name => "undeclared identifier '" ++ name ++ "'"
  | .doubleRemainder => "cannot % floating-point values"
  | .breakOutside => "break statement not inside of a loop"
  | .continueOutside => "continue statement not inside of a loop"
  | .converted => "int operand converted to double"
  | .implicitFunction name => "implicit declaration of function '" ++ name ++ "'"

end Emit

abbrev EmitM := EStateM Emit.Fault Emit.State

namespace Emit

def State.pos (s : State) : Pos := ⟨s.file, s.line⟩

def State.funcName (s : State) : String :=
  match s.func with
  | some id => (s.table.entry id).name
  | none => ""

def error (n : Notice) : EmitM Unit :=
  modify fun s => { s with report := s.report.error s.pos n.message }

def warn (kind : Warning) (n : Notice) : EmitM Unit :=
  modify fun s => { s with report := s.report.warn kind s.pos n.message }

/-- Whether the point behind an instruction is still the one that a label before it marks. -/
def keepsMark : Quad → Bool
  | .label _ | .patch _ _ | .stmtBegin _ => true
  | _ => false

def emit (q : Quad) : EmitM Unit :=
  modify fun s => { s with code := s.code.push q, marked := s.marked && keepsMark q }

def unmark : EmitM Unit := modify fun s => { s with marked := false }

def newTemp : EmitM Temp :=
  modifyGet fun s => (⟨(s.temps + 1 : Nat)⟩, { s with temps := s.temps + 1 })

def newBlank : EmitM Nat :=
  modifyGet fun s => (s.blanks + 1, { s with blanks := s.blanks + 1 })

/-! ## Entries -/

def getEntry (id : EntryId) : EmitM Entry := return (← get).table.entry id

def setEntry (id : EntryId) (f : Entry → Entry) : EmitM Unit :=
  modify fun s => { s with table := s.table.modifyEntry id f }

def installAt (name : String) (level : Int) : EmitM EntryId :=
  modifyGet fun s =>
    let (id, table) := s.table.installAt name level
    (id, { s with table })

def install (name : String) : EmitM EntryId :=
  modifyGet fun s =>
    let (id, table) := s.table.install name
    (id, { s with table })

def enterScope : EmitM Unit := modify fun s => { s with table := s.table.enter }

def leaveScope : EmitM Unit := modify fun s => { s with table := s.table.leave }

/-! ## Blanks and chains -/

/-- Emits the equation that gives a blank its label. A blank gets one label only. -/
def patch (blank : Nat) (label : Int) : EmitM Unit := do
  match (← get).patched.lookup blank with
  | some first => throw (.patchedTwice blank first label)
  | none =>
    modify fun s => { s with patched := (blank, label) :: s.patched }
    emit (.patch blank label)

def single (blank : Nat) : EmitM Chain :=
  modifyGet fun s => (.span s.links.size s.links.size,
    { s with links := s.links.push ⟨blank, none⟩ })

def merge (a b : Chain) : EmitM Chain :=
  match a, b with
  | .empty, b => return b
  | a, .empty => return a
  | .span first last, .span second end_ =>
    modifyGet fun s => (.span first end_,
      { s with links := s.links.modify last ({ · with next := some second }) })

def blanksFrom (links : Array Link) : Nat → Option Nat → List Nat
  | 0, _ => []
  | _, none => []
  | fuel + 1, some i => match links[i]? with
    | some l => l.blank :: blanksFrom links fuel l.next
    | none => []

def Chain.first? : Chain → Option Nat
  | .empty => none
  | .span first _ => some first

/-- The blanks of a chain in order. A chain without a cycle has no more links than there are. -/
def State.blanksOf (s : State) (c : Chain) : List Nat :=
  blanksFrom s.links s.links.size c.first?

/-- Emits an equation for each blank from a link on. The walk ends at the end of the chain, or
with a fault at the first blank that has a label, hence after as many steps as there are links
when the links run in a circle. -/
def resolveFrom (label : Int) : Nat → Option Nat → EmitM Unit
  | 0, _ => return
  | _, none => return
  | fuel + 1, some i => do
    match (← get).links[i]? with
    | some l => do
      patch l.blank label
      resolveFrom label fuel l.next
    | none => return

def resolve (c : Chain) (label : Int) : EmitM Unit := do
  resolveFrom label ((← get).links.size + 1) c.first?

/-! ## Lists of arguments -/

def State.argsOf (s : State) : ArgList → List Value
  | .empty => []
  | .span row size => match s.rows[row]? with
    | some r => r.values.take size
    | none => []

def newRow (room : Nat) (values : List Value) : EmitM ArgList :=
  modifyGet fun s => (.span s.rows.size values.length,
    { s with rows := s.rows.push ⟨room, values⟩ })

/-! ## Markers -/

/-- Marks the current point with a label and returns its number. Markers with nothing but
equations and line marks between them share one label. -/
def mark : EmitM Nat := do
  let s ← get
  if s.marked then return s.labels
  else
    set { s with labels := s.labels + 1 }
    emit (.label (s.labels + 1 : Nat))
    modify fun s => { s with marked := true }
    return s.labels + 1

/-- Emits a jump to a new blank and returns the chain of that blank. -/
def jumpAhead : EmitM Chain := do
  let b ← newBlank
  emit (.jump (.blank b))
  single b

def beginStmt (line : Int) : EmitM Unit := do
  modify fun s => { s with line }
  emit (.stmtBegin line)

/-- The labels that are the target of a jump and not declared yet, in order of the first jump. -/
def State.unresolved (s : State) : List String :=
  (s.pending.filter fun p => !p.declared).map (·.name)

def State.resolution? (s : State) (blank : Nat) : Option Int := s.patched.lookup blank

end Emit

end Quadruple
