import Quadruple.Code.Printer

/-!
# Flow graphs

A program as functions of basic blocks. Blocks refer to each other by their place in the list of
blocks of their function; execution starts at the first one.
-/

namespace Quadruple.Flow

open Numeral (decimalText)

/-- A straight run of instructions. `down` is the block that follows in program order. -/
structure Block where
  label : String
  quads : List Quad
  succs : List Nat
  down : Option Nat
deriving DecidableEq, Repr, Inhabited

def Block.isEndOnly (b : Block) : Bool :=
  match b.quads with
  | [.funcEnd] => true
  | _ => false

/-- Whether a block holds an instruction besides line marks and the end of its function. -/
def Block.hasCode (b : Block) : Bool :=
  b.quads.any fun
    | .stmtBegin _ | .funcEnd => false
    | _ => true

/-- The first source line that a block mentions, 0 when it mentions none. -/
def Block.firstLine (b : Block) : Int :=
  (b.quads.findSome? fun
    | .stmtBegin line => some line
    | _ => none).getD 0

structure Func where
  name : String
  tag : Tag
  formals : List Decl
  locals : List Decl
  blocks : List Block
deriving DecidableEq, Repr, Inhabited

structure Graph where
  globals : List Decl
  funcs : List Func
deriving DecidableEq, Repr, Inhabited

namespace Graph

def empty : Graph := ⟨[], []⟩

def append (g h : Graph) : Graph := ⟨g.globals ++ h.globals, g.funcs ++ h.funcs⟩

end Graph

namespace Func

def blockIndex? (f : Func) (label : String) : Option Nat :=
  f.blocks.findIdx? (·.label == label)

/-- Marks every block that is reached from `work`, given the marks `seen` so far. -/
def markReached (blocks : List Block) (seen : Array Bool) (work : List Nat) : Array Bool :=
  match work with
  | [] => seen
  | i :: rest =>
    if h : i < seen.size then
      if hs : seen[i] = true then markReached blocks seen rest
      else
        let next := match blocks[i]? with
          | some b => b.succs
          | none => []
        markReached blocks (seen.set i true) (next ++ rest)
    else markReached blocks seen rest
termination_by (seen.count false, work.length)
decreasing_by
  · exact Prod.Lex.right _ (by simp)
  · apply Prod.Lex.left
    have hf : seen[i] = false := by simpa using hs
    have hpos : 0 < seen.count false :=
      Array.count_pos_iff.2 (hf ▸ Array.getElem_mem h)
    rw [Array.count_set h, if_pos (by rw [hf]; rfl), if_neg (by decide)]
    omega
  · exact Prod.Lex.right _ (by simp)

def reached (f : Func) : Array Bool :=
  markReached f.blocks (Array.replicate f.blocks.length false) [0]

/-- The blocks that no path from the first block reaches, in program order. -/
def unreachable (f : Func) : List Block :=
  let seen := f.reached
  (f.blocks.zipIdx.filter fun (_, i) => !seen.getD i false).map (·.1)

def listing (f : Func) : String :=
  let line (b : Block) : String :=
    let succs := b.succs.map fun i => match f.blocks[i]? with
      | some s => s.label
      | none => ""
    b.label ++ ": " ++ decimalText b.quads.length ++ " quads -> [" ++ " ".intercalate succs ++ "]\n"
  "func " ++ f.name ++ " " ++ f.tag.describe ++ "\n" ++ String.join (f.blocks.map line)

end Func

end Quadruple.Flow
