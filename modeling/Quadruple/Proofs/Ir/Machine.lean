import Quadruple.Ir.Basic
import Quadruple.Proofs.Flow.Machine

/-!
# Running the intermediate form

A machine for the functions that compute with words and addresses. An address is a piece of
storage with a byte offset, and storage is a row of bytes of a fixed length for every place that
reserves it: a global definition or a slot. Words lie in it with the lowest byte first. Reading or
writing beyond the end of a piece has no meaning.
-/

namespace Quadruple.Ir.Machine

inductive Datum where
  | word (w : Word)
  /-- A number as wide as an address. -/
  | number (n : Int)
  | addr (base : Value) (offset : Int)
deriving DecidableEq, Repr

def Datum.word? : Datum → Option Word
  | .word w => some w
  | .number n => some (.ofInt 32 n)
  | .addr _ _ => none

def Datum.number? : Datum → Option Int
  | .word w => some w.toInt
  | .number n => some n
  | .addr _ _ => none

def Datum.addr? : Datum → Option (Value × Int)
  | .addr base offset => some (base, offset)
  | _ => none

abbrev Memory := Value → Int → BitVec 8

def Memory.word (m : Memory) (base : Value) (k : Int) : Word :=
  m base (k + 3) ++ m base (k + 2) ++ m base (k + 1) ++ m base k

def Memory.setWord (m : Memory) (base : Value) (k : Int) (w : Word) : Memory := fun b j =>
  if b = base ∧ k ≤ j ∧ j < k + 4 then w.extractLsb' (8 * (j - k).toNat) 8 else m b j

namespace Memory

variable (m : Memory) (base : Value) (k : Int) (w : Word)

theorem word_setWord : (m.setWord base k w).word base k = w := by
  have h : ∀ i : Nat, i < 4 → m.setWord base k w base (k + i) = w.extractLsb' (8 * i) 8 := by
    intro i hi
    rw [setWord, if_pos ⟨rfl, by omega, by omega⟩]
    congr 2
    omega
  have h0 : m.setWord base k w base k = w.extractLsb' 0 8 := by simpa using h 0 (by decide)
  rw [word, h0, show k + 3 = k + (3 : Nat) from rfl, show k + 2 = k + (2 : Nat) from rfl,
    show k + 1 = k + (1 : Nat) from rfl, h 3 (by decide), h 2 (by decide), h 1 (by decide)]
  refine BitVec.eq_of_getLsbD_eq fun i hi => ?_
  simp only [BitVec.getLsbD_append, BitVec.getLsbD_extractLsb']
  grind

theorem word_setWord_of_disjoint {base' : Value} {j : Int}
    (h : base' = base → j + 4 ≤ k ∨ k + 4 ≤ j) :
    (m.setWord base k w).word base' j = m.word base' j := by
  have hbyte : ∀ i, j ≤ i → i < j + 4 → m.setWord base k w base' i = m base' i := by
    intro i hi hi'
    refine if_neg fun hc => ?_
    rcases h hc.1 with h | h <;> omega
  simp only [word]
  rw [hbyte _ (by omega) (by omega), hbyte _ (by omega) (by omega), hbyte _ (by omega) (by omega),
    hbyte _ (by omega) (by omega)]

end Memory

structure State where
  regs : Value → Option Datum
  /-- The number of bytes of every piece of storage. -/
  size : Value → Int
  mem : Memory

namespace State

def setReg (s : State) (r : Value) (d : Datum) : State :=
  { s with regs := fun v => if v = r then some d else s.regs v }

def setWord (s : State) (base : Value) (k : Int) (w : Word) : State :=
  { s with mem := s.mem.setWord base k w }

def reserve (s : State) (r : Value) (n : Int) : State :=
  { s.setReg r (.addr r 0) with size := fun v => if v = r then n else s.size v }

def operand (s : State) : Value → Option Datum
  | .const n => some (.number n)
  | .global name => some (.addr (.global name) 0)
  | .temp name id => s.regs (.temp name id)
  | _ => none

def word? (s : State) (v : Value) : Option Word := (s.operand v).bind Datum.word?

def number? (s : State) (v : Value) : Option Int := (s.operand v).bind Datum.number?

def addr? (s : State) (v : Value) : Option (Value × Int) := (s.operand v).bind Datum.addr?

/-- The place of a word in storage, when the whole word is inside it. -/
def wordAddr? (s : State) (v : Value) : Option (Value × Int) :=
  (s.addr? v).filter fun p => decide (0 ≤ p.2 ∧ p.2 + 4 ≤ s.size p.1)

end State

def wordOp? : Op → Option (Word → Word → Word)
  | .add => some (· + ·)
  | .sub => some (· - ·)
  | .mul => some (· * ·)
  | .and => some (· &&& ·)
  | .or => some (· ||| ·)
  | .xor => some (· ^^^ ·)
  | .ceq => some fun x y => .ofBool (x == y)
  | .cne => some fun x y => .ofBool (x != y)
  | .clt => some fun x y => .ofBool (x.slt y)
  | .cgt => some fun x y => .ofBool (y.slt x)
  | .cle => some fun x y => .ofBool (x.sle y)
  | .cge => some fun x y => .ofBool (y.sle x)
  | _ => none

def compute (s : State) (op : Op) (ty : Ty) (args : List Value) : Option Datum :=
  match op, ty, args with
  | .load, .word, [a] => (s.wordAddr? a).map fun p => .word (s.mem.word p.1 p.2)
  | .copy, .word, [x] => (s.word? x).map .word
  | .neg, .word, [x] => (s.word? x).map fun w => .word (-w)
  | .extsw, .ptr, [x] => (s.word? x).map fun w => .number w.toInt
  | .mul, .ptr, [x, y] => do return .number ((← s.number? x) * (← s.number? y))
  | .add, .ptr, [a, x] => do
    let p ← s.addr? a
    return .addr p.1 (p.2 + (← s.number? x))
  | op, .word, [x, y] => do
    let f ← wordOp? op
    return .word (f (← s.word? x) (← s.word? y))
  | _, _, _ => none

def exec (s : State) (i : Instr) : Option State :=
  match i.op, i.result, i.args with
  | .alloc, some r, [.const n] => some (s.reserve r n)
  | .store, none, [x, a] => do
    if i.ty = .word then
      let p ← s.wordAddr? a
      return s.setWord p.1 p.2 (← s.word? x)
    else none
  | op, some r, args => (compute s op i.ty args).map (s.setReg r)
  | _, none, _ => none

def execAll (s : State) (is : List Instr) : Option State := is.foldlM exec s

@[simp] theorem execAll_nil (s : State) : execAll s [] = some s := rfl

@[simp] theorem execAll_cons (s : State) (i : Instr) (is : List Instr) :
    execAll s (i :: is) = (exec s i).bind fun s' => execAll s' is := rfl

theorem execAll_append (s : State) (is js : List Instr) :
    execAll s (is ++ js) = (execAll s is).bind fun s' => execAll s' js :=
  List.foldlM_append ..

inductive Exit where
  | goto (label : String) (s : State)
  | returned (w : Word) (s : State)

def leave (s : State) (i : Instr) : Option Exit :=
  match i.op, i.args with
  | .jmp, [.label l] => some (.goto l s)
  | .jnz, [c, .label l, .label m] => (s.word? c).map fun w => .goto (if w ≠ 0 then l else m) s
  | .ret, [x] => (s.word? x).map fun w => .returned w s
  | _, _ => none

def execBlock (s : State) : List Instr → Option Exit
  | [] => none
  | i :: is =>
    if i.op.isTerminator then leave s i
    else do execBlock (← exec s i) is

variable {s : State}

theorem execBlock_of_terminator {i : Instr} {is : List Instr} (h : i.op.isTerminator = true) :
    execBlock s (i :: is) = leave s i := if_pos h

theorem execBlock_append {is js : List Instr} (h : ∀ i ∈ is, i.op.isTerminator = false) :
    execBlock s (is ++ js) = (execAll s is).bind fun s' => execBlock s' js := by
  induction is generalizing s with
  | nil => rfl
  | cons i is ih =>
    rw [List.cons_append, execBlock, h i List.mem_cons_self, execAll_cons]
    cases hs : exec s i with
    | none => rfl
    | some s' => exact ih fun j hj => h j (List.mem_cons_of_mem _ hj)

inductive Status where
  | before (i : Nat) (s : State)
  | returned (w : Word) (s : State)

/-- Where a run stands behind an exit. A label means the first block that has it. -/
def Exit.follow (f : Func) : Exit → Option Status
  | .goto l s => (f.blocks.findIdx? (·.label == l)).map (.before · s)
  | .returned w s => some (.returned w s)

def run (f : Func) : Nat → Status → Option Status
  | _, .returned w s => some (.returned w s)
  | 0, .before i s => some (.before i s)
  | n + 1, .before i s => do
    let b ← f.blocks[i]?
    let exit ← execBlock s b.instrs
    run f n (← exit.follow f)

@[simp] theorem run_returned {f : Func} {n : Nat} {w : Word} :
    run f n (.returned w s) = some (.returned w s) := by
  cases n <;> rfl

theorem run_succ {f : Func} {i n : Nat} {b : Block} (hb : f.blocks[i]? = some b) :
    run f (n + 1) (.before i s) =
      (execBlock s b.instrs).bind fun exit => (exit.follow f).bind (run f n) := by
  rw [run, hb]
  rfl

/-- The number of bytes that a program reserves for its global storage. -/
def globalSize (p : Program) : Value → Int
  | .global name => match p.globals.find? (·.name == name) with
    | some d => (d.items.map (·.size p.wordSize)).sum
    | none => 0
  | _ => 0

/-- A function of a program before its first block, its arguments in the registers of its
parameters. -/
def start (p : Program) (f : Func) (args : List Word) (m : Memory) : Status :=
  .before 0 ⟨fun v => (((f.params.map (·.val)).zip args).lookup v).map .word, globalSize p, m⟩

end Quadruple.Ir.Machine
