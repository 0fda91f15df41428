import Quadruple.Flow.Graph

/-!
# From a stream to a flow graph

The stream is read once, after its equations have been collected. A label starts a block, a
transfer ends one, and the end of a function stands in a block of its own. A conditional jump must
be followed at once by a jump; the two are fused into one branch. When a function ends, every
target is replaced by the label that it stands for, and that label must be in the function.
-/

namespace Quadruple.Flow

open Numeral (decimalText)

/-- Why a stream has no flow graph. Places in the stream count from 1. -/
inductive BuildFault where
  | duplicateEquation (blank label : Int)
  | conflictingEquations (blank first second : Int)
  | globalInside (place : Nat) (name func : String)
  | nestedFunction (place : Nat) (name func : String)
  | endOutside (place : Nat)
  | outside (place : Nat) (quad : Quad)
  | jumpMissing (place : Nat)
  | unpatchedBlank (func : String) (blank : Int)
  | undefinedLabel (func : String) (label : Int)
  | unended (func : String)
deriving DecidableEq, Repr

def BuildFault.message : BuildFault → String
  | .duplicateEquation b l => "duplicate equation " ++ (Quad.patch b l).text
  | .conflictingEquations b l m =>
    "conflicting equations for " ++ blankName b ++ ": " ++ labelName l ++ " and " ++ labelName m
  | .globalInside place name func =>
    quadAt place ++ "global allocation of '" ++ name ++ "' inside function '" ++ func ++ "'"
  | .nestedFunction place name func =>
    quadAt place ++ "function '" ++ name ++ "' begins before '" ++ func ++ "' ends"
  | .endOutside place => quadAt place ++ "fend outside of a function"
  | .outside place quad => quadAt place ++ quad.text ++ " outside of a function"
  | .jumpMissing place => quadAt place ++ "conditional jump is not followed by a jump"
  | .unpatchedBlank func blank =>
    "function '" ++ func ++ "': blank label " ++ blankName blank ++ " is never backpatched"
  | .undefinedLabel func label =>
    "function '" ++ func ++ "': jump to undefined label " ++ labelName label
  | .unended func => "function '" ++ func ++ "' has no fend"
where
  quadAt (place : Nat) : String := "quad " ++ decimalText place ++ ": "

abbrev Equations := List (Int × Int)

/-- Collects the equations of a stream behind those in `eqs`. A blank has one equation. -/
def collectEquations (eqs : Equations) : List Quad → Except BuildFault Equations
  | [] => .ok eqs
  | .patch b l :: qs =>
    match eqs.lookup b with
    | none => collectEquations (eqs ++ [(b, l)]) qs
    | some m =>
      if m = l then .error (.duplicateEquation b l) else .error (.conflictingEquations b m l)
  | _ :: qs => collectEquations eqs qs

inductive BlockName where
  | entry
  | label (n : Int)
  /-- The `n`-th block of its function that no label starts, the entry apart. -/
  | numbered (n : Nat)
deriving DecidableEq, Repr

def BlockName.text : BlockName → String
  | .entry => "entry"
  | .label n => labelName n
  | .numbered n => "bb" ++ decimalText n

structure DraftBlock where
  name : BlockName
  /-- The instructions, last first. -/
  rev : List Quad
deriving DecidableEq, Repr

structure Draft where
  name : String
  tag : Tag
  formals : List Decl
  locals : List Decl
  /-- The blocks, last first. -/
  rev : List DraftBlock
  /-- Whether the last block takes further instructions. -/
  isOpen : Bool
  /-- How many numbered blocks there are. -/
  numbered : Nat
deriving DecidableEq, Repr

namespace Draft

def start (name : String) (tag : Tag) : Draft :=
  ⟨name, tag, [], [], [⟨.entry, []⟩], true, 0⟩

def startBlock (d : Draft) (name : BlockName) : Draft :=
  { d with rev := ⟨name, []⟩ :: d.rev, isOpen := true }

def close (d : Draft) : Draft := { d with isOpen := false }

/-- Puts an instruction into the last block, or into a new one when that is closed. -/
def append (d : Draft) (q : Quad) : Draft :=
  match d.isOpen, d.rev with
  | true, b :: bs => { d with rev := ⟨b.name, q :: b.rev⟩ :: bs }
  | _, bs =>
    { d with
      rev := ⟨.numbered (d.numbered + 1), [q]⟩ :: bs
      isOpen := true
      numbered := d.numbered + 1 }

def hasStarted (d : Draft) : Bool :=
  match d.rev with
  | b :: _ => d.isOpen && !b.rev.isEmpty
  | [] => false

def add (d : Draft) : Quad → Draft
  | .formalDecl f => { d with formals := d.formals ++ [f] }
  | .localDecl l => { d with locals := d.locals ++ [l] }
  | .label n => d.startBlock (.label n)
  | .branch c t f => (d.append (.branch c t f)).close
  | .jump t => (d.append (.jump t)).close
  | .ret v t => (d.append (.ret v t)).close
  | .funcEnd => ((if d.hasStarted then d.close else d).append .funcEnd).close
  | q => d.append q

def blocks (d : Draft) : List DraftBlock := d.rev.reverse

/-- The label that a target stands for and the place of the first of the blocks with it. -/
def resolveIn (func : String) (blocks : List DraftBlock) (eqs : Equations) (t : Target) :
    Except BuildFault (Int × Nat) := do
  let n ← match t with
    | .label n => .ok n
    | .blank b => match eqs.lookup b with
      | some n => .ok n
      | none => .error (.unpatchedBlank func b)
  match blocks.findIdx? (·.name == .label n) with
  | some i => return (n, i)
  | none => .error (.undefinedLabel func n)

/-- The block at place `i` of `count` blocks, its targets resolved and its successors known. -/
def finishBlockWith (resolve : Target → Except BuildFault (Int × Nat)) (count i : Nat)
    (b : DraftBlock) : Except BuildFault Block := do
  let down := if i + 1 < count then some (i + 1) else none
  match b.rev with
  | .branch c t f :: before => do
    let (t, ti) ← resolve t
    let (f, fi) ← resolve f
    return ⟨b.name.text, (.branch c (.label t) (.label f) :: before).reverse, [ti, fi], down⟩
  | .jump t :: before => do
    let (t, ti) ← resolve t
    return ⟨b.name.text, (.jump (.label t) :: before).reverse, [ti], down⟩
  | .ret _ _ :: _ | .funcEnd :: _ => return ⟨b.name.text, b.rev.reverse, [], down⟩
  | quads => return ⟨b.name.text, quads.reverse, down.toList, down⟩

def finish (d : Draft) (eqs : Equations) : Except BuildFault Func := do
  let blocks := d.blocks
  let count := d.rev.length
  let resolve := resolveIn d.name blocks eqs
  let done ← blocks.zipIdx.mapM fun (b, i) => finishBlockWith resolve count i b
  return ⟨d.name, d.tag, d.formals, d.locals, done⟩

end Draft

/-- Reads the stream from place `place` on, behind the finished part `g` and within the function
`cur`. -/
def buildFrom (eqs : Equations) (place : Nat) (g : Graph) (cur : Option Draft) :
    List Quad → Except BuildFault Graph
  | [] => match cur with
    | none => .ok g
    | some d => .error (.unended d.name)
  | .patch _ _ :: qs => buildFrom eqs (place + 1) g cur qs
  | .globalDecl v :: qs => match cur with
    | none => buildFrom eqs (place + 1) { g with globals := g.globals ++ [v] } none qs
    | some d => .error (.globalInside place v.name d.name)
  | .funcBegin name tag :: qs => match cur with
    | none => buildFrom eqs (place + 1) g (some (.start name tag)) qs
    | some d => .error (.nestedFunction place name d.name)
  | .funcEnd :: qs => match cur with
    | none => .error (.endOutside place)
    | some d => do
      let f ← (d.add .funcEnd).finish eqs
      buildFrom eqs (place + 1) { g with funcs := g.funcs ++ [f] } none qs
  | .condJump c t :: qs => match cur with
    | none => .error (.outside place (.condJump c t))
    | some d => match qs with
      | .jump f :: rest => buildFrom eqs (place + 2) g (some (d.add (.branch c t f))) rest
      | _ => .error (.jumpMissing place)
  | q :: qs => match cur with
    | none => .error (.outside place q)
    | some d => buildFrom eqs (place + 1) g (some (d.add q)) qs

def build (code : List Quad) : Except BuildFault Graph := do
  let eqs ← collectEquations [] code
  buildFrom eqs 1 .empty none code

end Quadruple.Flow
