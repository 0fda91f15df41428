import Quadruple.Proofs.Ir.Closed

/-!
# Formed programs

An instruction is formed when it has the operands that its operation takes: so many of them, none
left out, labels only as targets, and a result only where there is one. A program is formed when its
instructions are and all its blocks end, and when its data are zero bytes or the bytes of literals
of bounded length.
-/

namespace Quadruple.Ir

def Ty.IsData (t : Ty) : Prop := t = .word ∨ t = .double ∨ t = .ptr

def Value.IsOperand : Value → Prop
  | .label _ | .missing => False
  | _ => True

def Op.isUnary : Op → Bool
  | .load | .copy | .neg | .extsw | .ftosi | .swtof => true
  | _ => false

def Op.isBinary : Op → Bool
  | .add | .sub | .mul | .div | .rem | .and | .or | .xor | .shl | .sar => true
  | _ => false

/-- An instruction has the operands that its operation takes, and a result only if there is one. -/
inductive Instr.Formed (i : Instr) : Prop
  | alloc {n : Int} : i.op = .alloc → i.args = [.const n] → i.Formed
  | unary {x : Value} : i.op.isUnary = true → i.ty.IsData → i.args = [x] → x.IsOperand → i.Formed
  | store {x a : Value} : i.op = .store → i.ty.IsData → i.result = none → i.args = [x, a] →
      x.IsOperand → a.IsOperand → i.Formed
  | binary {x y : Value} : i.op.isBinary = true → i.ty.IsData → i.args = [x, y] → x.IsOperand →
      y.IsOperand → i.Formed
  | compare {x y : Value} : i.op.isComparison = true → i.operandTy.IsData → i.args = [x, y] →
      x.IsOperand → y.IsOperand → i.Formed
  | jump {l : String} : i.op = .jmp → i.result = none → i.args = [.label l] → i.Formed
  | branch {x : Value} {l m : String} : i.op = .jnz → i.result = none →
      i.args = [x, .label l, .label m] → x.IsOperand → i.Formed
  | leave : i.op = .ret → i.result = none → i.args = [] → i.Formed
  | ret {x : Value} : i.op = .ret → i.result = none → i.args = [x] → x.IsOperand → i.Formed
  | call {callee : Value} {xs : List Value} : i.op = .call → i.args = callee :: xs →
      (∀ x ∈ xs, x.IsOperand) → (∀ t ∈ i.argTys, t.IsData) → i.Formed

theorem Instr.Formed.op_ne_unnamed {i : Instr} (hi : i.Formed) (code : Int) :
    i.op ≠ .unnamed code := by
  intro hcode
  cases hi with
  | alloc hop | unary hop | store hop | binary hop | compare hop | jump hop | branch hop
  | leave hop | ret hop | call hop =>
    rw [hcode] at hop
    cases hop

theorem Instr.Formed.args_of_call {i : Instr} (hi : i.Formed) (hcall : i.op = .call) :
    ∃ callee xs, i.args = callee :: xs := by
  cases hi with
  | call _ hargs => exact ⟨_, _, hargs⟩
  | alloc hop | unary hop | store hop | binary hop | compare hop | jump hop | branch hop
  | leave hop | ret hop =>
    rw [hcall] at hop
    cases hop

structure Func.Formed (f : Func) : Prop where
  ret : f.ret.IsData
  params : ∀ q ∈ f.params, ∃ name id, q.val = .temp name id
  instrs : ∀ i ∈ f.instrs, i.Formed
  ends : ∀ b ∈ f.blocks, ∃ i ∈ b.instrs, i.op.isTerminator = true

def byteItem (b : UInt8) : Item := { ty := .byte, value := .const b.toNat }

structure Program.Formed (limit : Nat) (p : Program) : Prop where
  funcs : ∀ f ∈ p.funcs, f.Formed
  foreign : ∀ e ∈ p.foreign, 0 ≤ e.fixed
  globals : ∀ d ∈ p.globals, ∃ n, d.items = [{ ty := .byte, count := n }]
  strings : ∀ d ∈ p.strings, ∃ bytes : List UInt8,
    d.items = bytes.map byteItem ∧ bytes.length ≤ limit

end Quadruple.Ir
