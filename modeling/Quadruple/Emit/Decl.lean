import Quadruple.Emit.State

/-!
# Declarations and functions
-/

namespace Quadruple.Emit

open Numeral (wrap64)
open Symbols (Entry EntryId)

def asVariable (storage : Storage) (tag : Tag) (count : Int) (e : Entry) : Entry :=
  let count := if count < 1 then 1 else count
  { e with
    kind := .var, storage, count, defined := true
    tag := if 1 < count then tag.base.union .array else tag.base }

def declareGlobal (name : String) (tag : Tag) (count : Int) : EmitM EntryId := do
  if ((← get).table.lookupGlobal? name).isSome then error (.redeclared name)
  let id ← installAt name 0
  setEntry id (asVariable .global tag count)
  emit (.globalDecl ⟨name, (← getEntry id).tag, wrap64 (count * tag.size)⟩)
  return id

def declareInFunc (name : String) : EmitM EntryId := do
  let s ← get
  if s.func.isNone then throw (.declarationOutside name)
  if (s.table.lookupCurrent? name).isSome then error (.redeclared name)
  install name

def declareFormal (name : String) (tag : Tag) : EmitM EntryId := do
  let id ← declareInFunc name
  let place := (← get).formals.length
  setEntry id fun e => { asVariable .param tag 1 e with offset := place }
  modify fun s => { s with formals := s.formals ++ [id] }
  return id

def declareLocal (name : String) (tag : Tag) (count : Int) : EmitM EntryId := do
  let id ← declareInFunc name
  let place := (← get).locals.length
  setEntry id fun e => { asVariable .stack tag count e with offset := place }
  modify fun s => { s with locals := s.locals ++ [id] }
  return id

/-- The entry that a function of this name and type takes over, reporting what stands against
it. -/
def functionEntry (name : String) (tag : Tag) : EmitM EntryId := do
  let s ← get
  match s.table.lookupGlobal? name with
  | none => installAt name 0
  | some id =>
    let e := s.table.entry id
    if e.kind ≠ .func then
      error (.redeclaredAsProcedure name)
      installAt name 0
    else
      if e.defined then error (.redefinedProcedure name)
      else if e.tag ≠ tag then error (.procedureType name)
      return id

def openFunction (tag : Tag) (name : String) : EmitM EntryId := do
  enterScope
  modify fun s =>
    { s with declared := [], pending := [], formals := [], locals := [], headed := false }
  let id ← functionEntry name tag.base
  setEntry id fun e =>
    { e with
      kind := .func, storage := .global, tag := tag.base, defined := true, implicit := false }
  modify fun s => { s with func := some id }
  return id

def emitFormal (id : EntryId) : EmitM Unit := do
  let e ← getEntry id
  emit (.formalDecl ⟨e.name, e.tag, e.tag.size⟩)

def emitLocal (id : EntryId) : EmitM Unit := do
  let e ← getEntry id
  emit (.localDecl ⟨e.name, e.tag, wrap64 (e.count * e.tag.size)⟩)

/-- Emits the head of a function with the storage of its formals and locals. -/
def beginFunction : Option EntryId → EmitM Unit
  | none => throw .noFunction
  | some id => do
    let e ← getEntry id
    emit (.funcBegin e.name e.tag)
    (← get).formals.forM emitFormal
    (← get).locals.forM emitLocal
    modify fun s => { s with headed := true }

/-- Closes the function, reporting jumps to labels that were never declared. -/
def endFunction : EmitM Unit := do
  emit .funcEnd
  let s ← get
  if !s.loops.isEmpty then throw (.openLoops s.funcName s.loops.length)
  leaveScope
  s.unresolved.forM fun name => error (.undeclaredLabel name)
  modify fun s => { s with pending := [], declared := [], func := none, headed := false }

end Quadruple.Emit
