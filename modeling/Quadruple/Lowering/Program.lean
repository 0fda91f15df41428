import Quadruple.Lowering.Instr

/-!
# Lowering of blocks, functions and programs

The names of a program are declared before any code is lowered, so a call may stand before the
function that it calls. Formals and locals get slots on the stack at the start of the function.
-/

namespace Quadruple.Lowering

open Symbols (Entry EntryId)

def takeBlock (label : String) : LowerM Ir.Block :=
  modifyGet fun s => (⟨label, s.revInstrs.reverse⟩, { s with revInstrs := [] })

def fillBlock : LowerM Unit := do
  let s ← get
  if s.revInstrs.isEmpty then
    set { s with fillers := s.fillers + 1 }
    addInstr
      { op := .copy, ty := .word, result := some (.temp "noop" (s.fillers + 1 : Nat)),
        args := [.const 0] }

def State.isTerminated (s : State) : Bool :=
  match s.revInstrs with
  | i :: _ => i.op.isTerminator
  | [] => false

/-- Ends a block that has no transfer: it goes on to the block that follows, or returns when there
is none. -/
def closeBlock (f : Flow.Func) (b : Flow.Block) : LowerM Unit := do
  let s ← get
  if !s.isTerminated then
    match b.down.bind (f.blocks[·]?) with
    | some next => addInstr { op := .jmp, args := [.label next.label] }
    | none => addInstr (defaultReturn s.ret)

def lowerBlock (f : Flow.Func) (b : Flow.Block) : LowerM Ir.Block := do
  if b.isEndOnly then addInstr (defaultReturn (← get).ret)
  else
    b.quads.forM lowerQuad
    fillBlock
    closeBlock f b
  takeBlock b.label

def elementCount (width : Int) (elem : Tag) : Int := max (width.tdiv elem.size) 1

def allocVariable (storage : Storage) (d : Decl) (place : Nat) : LowerM Ir.Value := do
  let elem := d.tag.base
  let slot : Ir.Value := .temp d.name (-1)
  addInstr
    { op := .alloc, ty := .ptr, result := some slot, args := [.const (max d.width elem.size)],
      align := elem.size }
  let id ← install d.name
  setEntry id fun e =>
    { e with
      kind := .var, storage, tag := d.tag, defined := true, count := elementCount d.width elem
      offset := place, handle := some slot, elem := machineTy elem }
  return slot

def lowerFormal (d : Decl) (place : Nat) : LowerM Ir.Param := do
  let ty := machineTy d.tag
  let val : Ir.Value := .temp "arg" place
  let slot ← allocVariable .param d place
  addInstr { op := .store, ty, args := [val, slot] }
  return ⟨d.name, ty, val⟩

def warnUnreachable (f : Flow.Func) : LowerM Unit :=
  f.unreachable.forM fun b => do
    if b.hasCode then
      warn .unreachableCode ⟨(← get).file, b.firstLine⟩ (.unreachableBlock b.label f.name)

def lowerFunc (f : Flow.Func) : LowerM Ir.Func := do
  let ret := machineTy f.tag.base
  modify fun s =>
    { s with
      func := f.name, ret, bindings := [], revInstrs := [], conversions := 0, fillers := 0
      line := 0 }
  inScope do
    if f.blocks.isEmpty then throw (.noEntry f.name)
    let params ← f.formals.zipIdx.mapM fun (d, i) => lowerFormal d i
    f.locals.zipIdx.forM fun (d, i) => do let _ ← allocVariable .stack d i
    let blocks ← f.blocks.mapM (lowerBlock f)
    warnUnreachable f
    return ⟨f.name, params, ret, blocks⟩

def lowerGlobal (d : Decl) : LowerM Ir.Data := do
  let id ← globalEntry d.name
  let elem := d.tag.base
  setEntry id fun e =>
    { e with
      kind := .var, storage := .global, tag := d.tag, defined := true
      count := elementCount d.width elem, handle := some (.global d.name)
      elem := machineTy elem }
  return ⟨d.name, 16, true, false, [{ ty := .byte, count := d.width }]⟩

def declareFunc (f : Flow.Func) : LowerM Unit := do
  let id ← globalEntry f.name
  setEntry id fun e =>
    { e with
      kind := .func, storage := .global, tag := f.tag.base, defined := true, implicit := false
      handle := some (.global f.name), elem := machineTy f.tag.base
      fixed := f.formals.length, variadic := false }
  modify fun s => { s with defined := s.defined ++ [f.name] }

/-- The functions that every program can call without declaring them. -/
def builtins : List Ir.Foreign :=
  [⟨"printf", .word, true, 1⟩, ⟨"exit", .none, false, 0⟩, ⟨"getchar", .word, false, 0⟩]

/-- Declares a builtin unless the program defines a function of that name. -/
def declareBuiltin (b : Ir.Foreign) : LowerM Unit := do
  if !(← get).defined.contains b.name then
    let id ← globalEntry b.name
    setEntry id fun e =>
      { e with
        kind := .func, storage := .global, tag := .int, defined := true, implicit := false
        handle := some (.global b.name), elem := b.ret, variadic := b.variadic
        fixed := b.fixed }

def literalData (i : Nat) (bytes : List UInt8) : Ir.Data :=
  ⟨"str." ++ Numeral.decimalText i, 1, false, true,
    (bytes ++ [0]).map fun (b : UInt8) => { ty := .byte, value := .const b.toNat }⟩

/-- Lowers a program. The graph is not changed, and what an earlier program left in the state,
the table and the report apart, plays no part. -/
def lower (g : Flow.Graph) : LowerM Ir.Program := do
  modify fun s => { s with defined := [], literals := [], foreign := [] }
  let globals ← g.globals.mapM lowerGlobal
  g.funcs.forM declareFunc
  builtins.forM declareBuiltin
  let funcs ← g.funcs.mapM lowerFunc
  let s ← get
  return ⟨s.settings.wordSize, globals, s.literals.zipIdx.map fun (b, i) => literalData i b,
    s.foreign, funcs⟩

end Quadruple.Lowering
