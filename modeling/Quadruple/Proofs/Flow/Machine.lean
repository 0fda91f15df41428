import Quadruple.Proofs.Flow.Layout

/-!
# Running a flow graph

A machine for functions that compute with integers. Temporaries hold words of 32 bits or
addresses, and an address is a cell of a variable. A step runs one instruction, a round one block.
An index that leaves its variable ends the run, and so does an instruction that the machine has no
meaning for.
-/

namespace Quadruple

abbrev Word := BitVec 32

def Word.ofBool (b : Bool) : Word := if b then 1 else 0

def unaryValue? : String → Word → Option Word
  | "-", x => some (-x)
  | "~", x => some (~~~x)
  | _, _ => none

/-- The value of a binary operator. Comparisons are signed and give 1 or 0. -/
def OpClass.value? : OpClass → String → Word → Word → Option Word
  | .arith, "+", x, y => some (x + y)
  | .arith, "-", x, y => some (x - y)
  | .arith, "*", x, y => some (x * y)
  | .bitwise, "&", x, y => some (x &&& y)
  | .bitwise, "|", x, y => some (x ||| y)
  | .bitwise, "^", x, y => some (x ^^^ y)
  | .compare, "==", x, y => some (.ofBool (x == y))
  | .compare, "!=", x, y => some (.ofBool (x != y))
  | .compare, "<", x, y => some (.ofBool (x.slt y))
  | .compare, ">", x, y => some (.ofBool (y.slt x))
  | .compare, "<=", x, y => some (.ofBool (x.sle y))
  | .compare, ">=", x, y => some (.ofBool (y.sle x))
  | _, _, _, _ => none

namespace Flow

inductive Var where
  | global (name : String)
  /-- A formal or local. -/
  | slot (name : String)
deriving DecidableEq, Repr

def Var.ofRef (storage : Storage) (name : String) : Var :=
  if storage = .global then .global name else .slot name

def Func.decl? (globals : List Decl) (f : Func) : Var → Option Decl
  | .global name => globals.find? (·.name == name)
  | .slot name => (f.formals ++ f.locals).find? (·.name == name)

variable {count : Var → Int} {op : String}

namespace Machine

inductive Value where
  | word (w : Word)
  /-- The address of a cell. -/
  | cell (x : Var) (i : Int)
deriving DecidableEq, Repr

abbrev Cells := Var → Int → Word

def Cells.set (m : Cells) (x : Var) (i : Int) (w : Word) : Cells := fun y j =>
  if y = x ∧ j = i then w else m y j

structure State where
  temps : Temp → Option Value
  cells : Cells

inductive Trouble where
  /-- An index leaves its variable. -/
  | outside
  /-- The instruction has no meaning here. -/
  | stuck
deriving DecidableEq, Repr

namespace State

def setTemp (s : State) (t : Temp) (v : Value) : State :=
  { s with temps := fun u => if u = t then some v else s.temps u }

def setCell (s : State) (x : Var) (i : Int) (w : Word) : State :=
  { s with cells := s.cells.set x i w }

def word (s : State) (t : Temp) : Except Trouble Word :=
  match s.temps t with
  | some (.word w) => .ok w
  | _ => .error .stuck

def cell (s : State) (t : Temp) : Except Trouble (Var × Int) :=
  match s.temps t with
  | some (.cell x i) => .ok (x, i)
  | _ => .error .stuck

end State

/-- Runs an instruction that does not end a block. `count` gives the number of cells of every
variable. -/
def exec (count : Var → Int) (s : State) : Quad → Except Trouble State
  | .stmtBegin _ => .ok s
  | .const dst text _ => .ok (s.setTemp dst (.word (.ofInt 32 (Numeral.readLiteral text).value)))
  | .ref dst storage name _ => .ok (s.setTemp dst (.cell (.ofRef storage name) 0))
  | .load dst addr _ => do
    let (x, i) ← s.cell addr
    return s.setTemp dst (.word (s.cells x i))
  | .store dst addr val _ => do
    let (x, i) ← s.cell addr
    let w ← s.word val
    return (s.setCell x i w).setTemp dst (.word w)
  | .index dst base idx _ => do
    let (x, i) ← s.cell base
    let j := i + (← s.word idx).toInt
    if 0 ≤ j ∧ j < count x then return s.setTemp dst (.cell x j) else throw .outside
  | .unary dst op x _ => do
    match unaryValue? op (← s.word x) with
    | some w => return s.setTemp dst (.word w)
    | none => throw .stuck
  | .binary cls dst op x y _ => do
    match cls.value? op (← s.word x) (← s.word y) with
    | some w => return s.setTemp dst (.word w)
    | none => throw .stuck
  | _ => .error .stuck

variable {s : State}

section

variable {dst addr base val x y : Temp} {tag : Tag} {v : Var} {i : Int} {a b w : Word}

theorem exec_load (h : s.cell addr = .ok (v, i)) :
    exec count s (.load dst addr tag) = .ok (s.setTemp dst (.word (s.cells v i))) := by
  rw [exec, h]
  rfl

theorem exec_store (h : s.cell addr = .ok (v, i)) (hw : s.word val = .ok w) :
    exec count s (.store dst addr val tag) = .ok ((s.setCell v i w).setTemp dst (.word w)) := by
  rw [exec, h, hw]
  rfl

theorem exec_index (h : s.cell base = .ok (v, i)) (hx : s.word x = .ok w) :
    exec count s (.index dst base x tag) =
      if 0 ≤ i + w.toInt ∧ i + w.toInt < count v then .ok (s.setTemp dst (.cell v (i + w.toInt)))
      else .error .outside := by
  rw [exec, h, hx]
  rfl

theorem exec_unary (hx : s.word x = .ok a) (hw : unaryValue? op a = some w) :
    exec count s (.unary dst op x tag) = .ok (s.setTemp dst (.word w)) := by
  rw [exec, hx]
  simp only [bind, Except.bind, hw]
  rfl

theorem exec_binary {cls : OpClass} (hx : s.word x = .ok a) (hy : s.word y = .ok b)
    (hw : cls.value? op a b = some w) :
    exec count s (.binary cls dst op x y tag) = .ok (s.setTemp dst (.word w)) := by
  rw [exec, hx, hy]
  simp only [bind, Except.bind, hw]
  rfl

end

inductive Status where
  | before (i : Nat) (s : State)
  | returned (w : Word) (s : State)

/-- Leaves a block by its last instruction. A return without a value gives zero. -/
def leave (b : Block) (s : State) : Quad → Except Trouble Status
  | .branch c _ _ => do
    let w ← s.word c
    match b.succs with
    | [i, j] => return .before (if w ≠ 0 then i else j) s
    | _ => throw .stuck
  | .jump _ =>
    match b.succs with
    | [i] => .ok (.before i s)
    | _ => .error .stuck
  | .ret (some t) _ => return .returned (← s.word t) s
  | .ret none _ | .funcEnd => .ok (.returned 0 s)
  | _ => .error .stuck

/-- Runs the rest of a block. One that no instruction ends goes on with its successor. -/
def execBlock (count : Var → Int) (b : Block) (s : State) : List Quad → Except Trouble Status
  | [] =>
    match b.succs with
    | [i] => .ok (.before i s)
    | _ => .error .stuck
  | q :: qs =>
    if q.endsBlock then leave b s q
    else do execBlock count b (← exec count s q) qs

def run (count : Var → Int) (f : Func) : Nat → Status → Except Trouble Status
  | _, .returned w s => .ok (.returned w s)
  | 0, .before i s => .ok (.before i s)
  | n + 1, .before i s =>
    match f.blocks[i]? with
    | none => .error .stuck
    | some b => do run count f n (← execBlock count b s b.quads)

variable {f : Func} {n : Nat}

@[simp] theorem run_returned {count : Var → Int} {w : Word} {s : State} :
    run count f n (.returned w s) = .ok (.returned w s) := by
  cases n <;> rfl

theorem run_succ {i : Nat} {b : Block} (hb : f.blocks[i]? = some b) :
    run count f (n + 1) (.before i s) = (execBlock count b s b.quads).bind (run count f n) := by
  rw [run, hb]
  rfl

theorem run_add {m : Nat} {a : Status} :
    run count f (n + m) a = (run count f n a).bind (run count f m) := by
  induction n generalizing a with
  | zero =>
    rw [zero_add]
    cases a <;> rfl
  | succ n ih =>
    rw [Nat.succ_add]
    cases a with
    | returned w s => exact run_returned.trans run_returned.symm
    | before i s =>
      cases hb : f.blocks[i]? with
      | none => simp only [run, hb, Except.bind]
      | some b =>
        rw [run_succ hb, run_succ hb]
        cases execBlock count b s b.quads with
        | error e => rfl
        | ok a' => exact ih

theorem run_ne_error {a : Status} {w : Word}
    (h : run count f n a = .ok (.returned w s)) (m : Nat) (e : Trouble) :
    run count f m a ≠ .error e := by
  intro hm
  have hsum : run count f (n + m) a = run count f (m + n) a := by rw [add_comm]
  rw [run_add, run_add, h, hm] at hsum
  cases run_returned.symm.trans hsum

def enter (cells : Cells) (formals : List Decl) (args : List Word) : Cells :=
  (formals.zip args).foldl (fun m p => m.set (.slot p.1.name) 0 p.2) cells

def start (f : Func) (args : List Word) (cells : Cells) : Status :=
  .before 0 ⟨fun _ => none, enter cells f.formals args⟩

end Machine

end Flow

end Quadruple
