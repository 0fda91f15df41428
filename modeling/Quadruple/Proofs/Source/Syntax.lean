import Quadruple.Emit.Decl
import Quadruple.Emit.Stmt
import Quadruple.Proofs.Flow.Walk

/-!
# A source language and its emission

Programs of a small language with structured statements, jumps to labels, short-circuit
conditions, scalars and arrays, and how each of its constructs drives the emitter: a marker at
each point that a jump may go to, a jump ahead where control leaves a part, and the closing
operation once the parts are there.

Emission also keeps a record. A statement is returned with each action, test and return in it
replaced by what will be met when control passes the code that was emitted for it, so that the
record is the statement itself, read as a program over these events.
-/

namespace Quadruple.Source

open Emit (Value ArgList)
open Symbols (EntryId)

/-! ## Expressions -/

inductive Ty where
  | int
  | double
deriving DecidableEq, Repr

def Ty.tag : Ty → Tag
  | .int => .int
  | .double => .double

structure Op (cls : OpClass) where
  text : String
  mem : text ∈ cls.lexemes
deriving DecidableEq, Repr

inductive UnaryOp where
  | negate
  | complement
deriving DecidableEq, Repr

def UnaryOp.text : UnaryOp → String
  | .negate => "-"
  | .complement => "~"

inductive Expr where
  | const (text : String)
  | string (text : String)
  /-- A variable: its value, or the whole of an array. -/
  | read (name : String)
  /-- An element of an array. -/
  | readAt (name : String) (index : Expr)
  | unary (op : UnaryOp) (x : Expr)
  | arith (op : Op .arith) (x y : Expr)
  | bitwise (op : Op .bitwise) (x y : Expr)
  | cast (ty : Ty) (x : Expr)
  | call (name : String) (args : List Expr)

mutual

def Expr.emit : Expr → EmitM Value
  | .const text => Emit.constant text
  | .string text => Emit.stringLiteral text
  | .read name => do Emit.unaryOp "@" (← Emit.variableRef name)
  | .readAt name index => do
    let x ← Emit.variableRef name
    let i ← index.emit
    Emit.unaryOp "@" (← Emit.element x i)
  | .unary op x => do Emit.unaryOp op.text (← x.emit)
  | .arith op x y => do
    let x ← x.emit
    let y ← y.emit
    Emit.arithOp op.text x y
  | .bitwise op x y => do
    let x ← x.emit
    let y ← y.emit
    Emit.bitwiseOp op.text x y
  | .cast ty x => do Emit.cast (← x.emit) ty.tag
  | .call name args => do Emit.call name (← emitArgs .empty args)

def emitArgs (l : ArgList) : List Expr → EmitM ArgList
  | [] => return l
  | x :: xs => do emitArgs (← Emit.appendArg l (← x.emit)) xs

end

/-! ## Actions and conditions -/

inductive Place where
  | var (name : String)
  | element (name : String) (index : Expr)

def Place.emit : Place → EmitM Value
  | .var name => Emit.variableRef name
  | .element name index => do
    let x ← Emit.variableRef name
    let i ← index.emit
    Emit.element x i

inductive AssignOp where
  | plain
  | arith (op : Op .arith)
  | bitwise (op : Op .bitwise)

def AssignOp.text : AssignOp → String
  | .plain => ""
  | .arith op => op.text
  | .bitwise op => op.text

inductive Action where
  | assign (op : AssignOp) (x : Place) (y : Expr)
  | eval (x : Expr)

def Action.emit : Action → EmitM Unit
  | .assign op x y => do
    let x ← x.emit
    let y ← y.emit
    discard (Emit.assign op.text x y)
  | .eval x => discard x.emit

inductive Test where
  | compare (op : Op .compare) (x y : Expr)
  | nonzero (x : Expr)

def Test.emit : Test → EmitM Value
  | .compare op x y => do
    let x ← x.emit
    let y ← y.emit
    Emit.relation op.text x y
  | .nonzero x => do Emit.condition (← x.emit)

inductive Cond (β : Type) where
  | test (t : β)
  | both (c d : Cond β)
  | either (c d : Cond β)
  | not (c : Cond β)

/-- Runs an operation and tells what is met in the code that it emits. -/
def recorded {α : Type} (x : EmitM α) : EmitM (α × List Event) := do
  let before := (← get).code.size
  let a ← x
  return (a, ((← get).code.toList.drop before).flatMap Quad.events)

def Cond.emit : Cond Test → EmitM (Value × Cond (List Event))
  | .test t => do
    let (v, es) ← recorded t.emit
    return (v, .test es)
  | .both c d => do
    let (x, c) ← c.emit
    let m ← Emit.mark
    let (y, d) ← d.emit
    return (← Emit.both x m y, .both c d)
  | .either c d => do
    let (x, c) ← c.emit
    let m ← Emit.mark
    let (y, d) ← d.emit
    return (← Emit.either x m y, .either c d)
  | .not c => do
    let (x, c) ← c.emit
    return (← Emit.negated x, .not c)

/-! ## Statements -/

inductive Stmt (α β γ : Type) where
  | act (a : α)
  /-- The number of the source line that follows. -/
  | line (n : Int)
  | seq (s t : Stmt α β γ)
  | ifThen (c : Cond β) (s : Stmt α β γ)
  | ifElse (c : Cond β) (s t : Stmt α β γ)
  | while (c : Cond β) (s : Stmt α β γ)
  | doWhile (s : Stmt α β γ) (c : Cond β)
  | for (init : α) (c : Cond β) (step : α) (s : Stmt α β γ)
  | break
  | continue
  | goto (name : String)
  | label (name : String)
  | ret (v : γ)

/-- A statement of the source. An action is a list of actions in order, possibly none. -/
abbrev Code := Stmt (List Action) Test (Option Expr)

abbrev Trace := Stmt (List Event) (List Event) (List Event)

def emitActions (as : List Action) : EmitM (List Event) := do
  let (_, es) ← recorded (as.forM Action.emit)
  return es

def emitReturn : Option Expr → EmitM Unit
  | none => Emit.returnStmt none
  | some x => do Emit.returnStmt (some (← x.emit))

@[simp]
def Stmt.emit : Code → EmitM Trace
  | .act as => return .act (← emitActions as)
  | .line n => do
    Emit.beginStmt n
    return .line n
  | .seq s t => do
    let s ← s.emit
    let t ← t.emit
    return .seq s t
  | .ifThen c s => do
    let (v, c) ← c.emit
    let m1 ← Emit.mark
    let s ← s.emit
    let m2 ← Emit.mark
    Emit.ifStmt v m1 m2
    return .ifThen c s
  | .ifElse c s t => do
    let (v, c) ← c.emit
    let m1 ← Emit.mark
    let s ← s.emit
    let n ← Emit.jumpAhead
    let m2 ← Emit.mark
    let t ← t.emit
    let m3 ← Emit.mark
    Emit.ifElseStmt v m1 n m2 m3
    return .ifElse c s t
  | .while c s => do
    Emit.openLoop
    let m1 ← Emit.mark
    let (v, c) ← c.emit
    let m2 ← Emit.mark
    let s ← s.emit
    let n ← Emit.jumpAhead
    let m3 ← Emit.mark
    Emit.whileStmt m1 v m2 n m3
    return .while c s
  | .doWhile s c => do
    Emit.openLoop
    let m1 ← Emit.mark
    let s ← s.emit
    let m2 ← Emit.mark
    let (v, c) ← c.emit
    let m3 ← Emit.mark
    Emit.doStmt m1 m2 v m3
    return .doWhile s c
  | .for init c step s => do
    Emit.openLoop
    let init ← emitActions init
    let m1 ← Emit.mark
    let (v, c) ← c.emit
    let m2 ← Emit.mark
    let step ← emitActions step
    let n1 ← Emit.jumpAhead
    let m3 ← Emit.mark
    let s ← s.emit
    let n2 ← Emit.jumpAhead
    let m4 ← Emit.mark
    Emit.forStmt m1 v m2 n1 m3 n2 m4
    return .for init c step s
  | .break => do
    Emit.breakStmt
    return .break
  | .continue => do
    Emit.continueStmt
    return .continue
  | .goto name => do
    Emit.gotoStmt name
    return .goto name
  | .label name => do
    Emit.labelStmt name
    return .label name
  | .ret v => do
    let (_, es) ← recorded (emitReturn v)
    return .ret es

/-! ## What a statement mentions -/

section Mentions

variable {α β γ : Type}

@[simp]
def Cond.shape : Cond β → Cond Unit
  | .test _ => .test ()
  | .both c d => .both c.shape d.shape
  | .either c d => .either c.shape d.shape
  | .not c => .not c.shape

@[simp]
def Stmt.shape : Stmt α β γ → Stmt Unit Unit Unit
  | .act _ => .act ()
  | .line n => .line n
  | .seq s t => .seq s.shape t.shape
  | .ifThen c s => .ifThen c.shape s.shape
  | .ifElse c s t => .ifElse c.shape s.shape t.shape
  | .while c s => .while c.shape s.shape
  | .doWhile s c => .doWhile s.shape c.shape
  | .for _ c _ s => .for () c.shape () s.shape
  | .break => .break
  | .continue => .continue
  | .goto name => .goto name
  | .label name => .label name
  | .ret _ => .ret ()

@[simp]
def Stmt.labels : Stmt α β γ → List String
  | .label name => [name]
  | .seq s t | .ifElse _ s t => s.labels ++ t.labels
  | .ifThen _ s | .while _ s | .doWhile s _ | .for _ _ _ s => s.labels
  | _ => []

/-- The jumps of a statement to labels that are not declared when it comes to the jump, in
order. -/
@[simp]
def Stmt.forwards (declared : List String) : Stmt α β γ → List String
  | .goto name => if name ∈ declared then [] else [name]
  | .seq s t | .ifElse _ s t => s.forwards declared ++ t.forwards (declared ++ s.labels)
  | .ifThen _ s | .while _ s | .doWhile s _ | .for _ _ _ s => s.forwards declared
  | _ => []

@[simp]
def Stmt.depth : Stmt α β γ → Nat
  | .while _ s | .doWhile s _ | .for _ _ _ s => s.depth + 1
  | .seq s t | .ifElse _ s t => max s.depth t.depth
  | .ifThen _ s => s.depth
  | _ => 0

@[simp]
def Stmt.Enclosed (inLoop : Prop) : Stmt α β γ → Prop
  | .break | .continue => inLoop
  | .seq s t | .ifElse _ s t => s.Enclosed inLoop ∧ t.Enclosed inLoop
  | .ifThen _ s => s.Enclosed inLoop
  | .while _ s | .doWhile s _ | .for _ _ _ s => s.Enclosed True
  | _ => True

end Mentions

/-! ## Programs -/

structure Var where
  name : String
  ty : Ty
  count : Int
deriving DecidableEq, Repr

structure Func where
  name : String
  ty : Ty
  formals : List (String × Ty)
  locals : List Var
  body : Code

inductive Item where
  | var (v : Var)
  | func (f : Func)

abbrev Program := List Item

def Func.emit (f : Func) : EmitM Trace := do
  let id ← Emit.openFunction f.ty.tag f.name
  f.formals.forM fun p => discard (Emit.declareFormal p.1 p.2.tag)
  f.locals.forM fun v => discard (Emit.declareLocal v.name v.ty.tag v.count)
  Emit.beginFunction (some id)
  let body ← f.body.emit
  Emit.endFunction
  return body

def Program.emit : Program → EmitM (List Trace)
  | [] => return []
  | .var v :: p => do
    discard (Emit.declareGlobal v.name v.ty.tag v.count)
    Program.emit p
  | .func f :: p => do
    let body ← f.emit
    return body :: (← Program.emit p)

end Quadruple.Source
