import Quadruple.Emit.Expr

/-!
# Statements

Each operation closes a statement whose parts have been emitted: it gives the pending jumps of
these parts their labels. Markers (`m`) are labels of points, `n` are chains of jumps ahead.
-/

namespace Quadruple.Emit

/-! ## Loops -/

def innermost : EmitM LoopScope := do
  match (← get).loops with
  | scope :: _ => return scope
  | [] => throw .noLoop

def openLoop : EmitM Unit := do
  let s ← get
  if s.settings.maxLoopDepth ≤ s.loops.length then
    throw (.loopsTooDeep s.settings.maxLoopDepth s.funcName)
  enterScope
  modify fun s => { s with loops := {} :: s.loops }

def endLoop : EmitM Unit := do
  match (← get).loops with
  | [] => throw .loopUnderflow
  | _ :: outer =>
    modify fun s => { s with loops := outer }
    leaveScope

/-- Closes the innermost loop: `continue` goes to `onContinue`, `break` to `onBreak`. -/
def closeLoop (onContinue onBreak : Int) : EmitM Unit := do
  let scope ← innermost
  resolve scope.onContinue onContinue
  resolve scope.onBreak onBreak
  endLoop

def setInnermost (f : LoopScope → LoopScope) : EmitM Unit :=
  modify fun s => match s.loops with
    | scope :: outer => { s with loops := f scope :: outer }
    | [] => s

def breakStmt : EmitM Unit := do
  match (← get).loops with
  | [] => error .breakOutside
  | scope :: _ =>
    let c ← merge scope.onBreak (← jumpAhead)
    setInnermost ({ · with onBreak := c })

def continueStmt : EmitM Unit := do
  match (← get).loops with
  | [] => error .continueOutside
  | scope :: _ =>
    let c ← merge scope.onContinue (← jumpAhead)
    setInnermost ({ · with onContinue := c })

/-! ## Branches -/

def ifStmt (v : Value) (m1 m2 : Int) : EmitM Unit := do
  resolve v.onTrue m1
  resolve v.onFalse m2

def ifElseStmt (v : Value) (m1 : Int) (n : Chain) (m2 m3 : Int) : EmitM Unit := do
  resolve v.onTrue m1
  resolve v.onFalse m2
  resolve n m3

def whileStmt (m1 : Int) (v : Value) (m2 : Int) (n : Chain) (m3 : Int) : EmitM Unit := do
  resolve v.onTrue m2
  resolve v.onFalse m3
  resolve n m1
  closeLoop m1 m3

def doStmt (m1 m2 : Int) (v : Value) (m3 : Int) : EmitM Unit := do
  resolve v.onTrue m1
  resolve v.onFalse m3
  closeLoop m2 m3

/-- `for (init; m1 v; m2 step n1) m3 stmt n2 m4`. A condition that is left out is the condition
on the constant 1. -/
def forStmt (m1 : Int) (v : Value) (m2 : Int) (n1 : Chain) (m3 : Int) (n2 : Chain) (m4 : Int) :
    EmitM Unit := do
  resolve v.onTrue m3
  resolve v.onFalse m4
  resolve n1 m1
  resolve n2 m2
  closeLoop m2 m4

/-! ## Labels of the source -/

/-- The jumps to a label that has none yet. The number of such labels is limited. -/
def pendingFor (name : String) : EmitM PendingLabel := do
  let s ← get
  match s.pending.find? (·.name == name) with
  | some p => return p
  | none =>
    if s.settings.maxGotoLabels ≤ s.pending.length then
      throw (.tooManyLabels s.settings.maxGotoLabels s.funcName)
    let p : PendingLabel := ⟨name, [], false⟩
    set { s with pending := s.pending ++ [p] }
    return p

def setPending (name : String) (f : PendingLabel → PendingLabel) : EmitM Unit :=
  modify fun s => { s with pending := s.pending.map fun p => if p.name == name then f p else p }

/-- Jumps to a label: directly when it is declared, else through a blank that its declaration
will resolve. -/
def gotoStmt (name : String) : EmitM Unit := do
  match (← get).declared.lookup name with
  | some l => emit (.jump (.label l))
  | none =>
    let b ← newBlank
    emit (.jump (.blank b))
    let p ← pendingFor name
    let limit := (← get).settings.maxBlanksPerLabel
    if limit ≤ p.blanks.length then throw (.tooManyGotos limit name)
    setPending name fun p => { p with blanks := p.blanks ++ [b] }

/-- Declares a label at the current point. A second declaration changes nothing. -/
def labelStmt (name : String) : EmitM Unit := do
  if ((← get).declared.lookup name).isSome then error (.redeclaredLabel name)
  else
    let l ← mark
    unmark
    modify fun s => { s with declared := (name, l) :: s.declared }
    match (← get).pending.find? (·.name == name) with
    | some p =>
      p.blanks.forM fun b => patch b l
      setPending name ({ · with declared := true })
    | none => return

/-- Returns from the function, with a value of the function's type or without one. -/
def returnStmt (v : Option Value) : EmitM Unit := do
  match (← get).func with
  | none => throw .returnOutside
  | some id =>
    let tag := (← getEntry id).tag.base
    match v with
    | none => emit (.ret none tag)
    | some v =>
      let v ← if tag.isDouble == v.tag.isDouble then pure v else cast v tag
      emit (.ret (some v.place) tag)

end Quadruple.Emit
