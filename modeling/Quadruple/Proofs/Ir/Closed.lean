import Mathlib
import Quadruple.Ir.Basic

/-!
# Closed programs

A program is closed when every name in it has something that it names: each temporary has been
defined before it is used, each label names a block of its function, each callee is a function of
the program or one of its foreign functions, and the foreign functions are just those that are
called and not defined.
-/

namespace Quadruple.Ir

open List

def Func.instrs (f : Func) : List Instr := f.blocks.flatMap (·.instrs)

def Instr.Calls (i : Instr) (name : String) : Prop :=
  i.op = .call ∧ i.args.head? = some (.global name)

structure Func.Closed (p : Program) (f : Func) : Prop where
  /-- A temporary is a parameter or the result of an earlier instruction. -/
  temps : ∀ before i after, f.instrs = before ++ i :: after → ∀ name id, .temp name id ∈ i.args →
    (∃ q ∈ f.params, q.val = .temp name id) ∨ ∃ j ∈ before, j.result = some (.temp name id)
  labels : ∀ i ∈ f.instrs, ∀ name, .label name ∈ i.args → ∃ b ∈ f.blocks, b.label = name
  calls : ∀ i ∈ f.instrs, i.op = .call → ∃ name, i.Calls name ∧
    ((∃ h ∈ p.funcs, h.name = name) ∨ ∃ e ∈ p.foreign, e.name = name)

structure Program.Closed (p : Program) : Prop where
  funcs : ∀ f ∈ p.funcs, f.Closed p
  distinct : (p.foreign.map (·.name)).Nodup
  /-- The foreign functions are those that are called and not defined. -/
  foreign : ∀ name, name ∈ p.foreign.map (·.name) ↔
    (∃ f ∈ p.funcs, ∃ i ∈ f.instrs, i.Calls name) ∧ ∀ f ∈ p.funcs, f.name ≠ name

/-! ## Instructions in order -/

def known (params : List Value) (is : List Instr) : List Value := params ++ is.filterMap (·.result)

/-- Whether a value may be an operand where the temporaries among `vs` are known. -/
def Usable (vs : List Value) : Value → Prop
  | .temp name id => .temp name id ∈ vs
  | .label _ => False
  | _ => True

theorem known_append (params : List Value) (is js : List Instr) :
    known params (is ++ js) = known (known params is) js := by
  simp [known]

theorem Usable.mono {vs ws : List Value} (h : vs ⊆ ws) {v : Value} (hv : Usable vs v) :
    Usable ws v := by
  cases v with
  | temp name id => exact h hv
  | label => exact hv.elim
  | _ => trivial

/-- Whether a value may be an operand in a function with the blocks `labels`. -/
def Admits (vs : List Value) (labels : List String) (v : Value) : Prop :=
  Usable vs v ∨ ∃ l ∈ labels, v = .label l

/-- Every operand is known before its instruction, or it is a label. -/
def Ordered (params : List Value) (labels : List String) (is : List Instr) : Prop :=
  ∀ before i after, is = before ++ i :: after →
    ∀ v ∈ i.args, Admits (known params before) labels v

theorem ordered_nil (params : List Value) (labels : List String) : Ordered params labels [] := by
  intro before i after h
  simp at h

variable {labels : List String} {params : List Value} {i : Instr}

theorem Ordered.concat {is : List Instr} (h : Ordered params labels is)
    (hi : ∀ v ∈ i.args, Admits (known params is) labels v) : Ordered params labels (is ++ [i]) := by
  intro before j after hsplit
  rcases eq_nil_or_concat after with rfl | ⟨after, x, rfl⟩
  · obtain ⟨rfl, hij⟩ := append_inj' hsplit rfl
    obtain rfl := singleton_inj.1 hij
    exact hi
  · have hcut : is ++ [i] = (before ++ j :: after) ++ [x] := by simpa using hsplit
    exact h before j after (append_inj' hcut rfl).1

theorem ordered_singleton (hi : ∀ v ∈ i.args, Admits params labels v) : Ordered params labels [i] :=
  (ordered_nil params labels).concat (by simpa [known] using hi)

theorem Ordered.append {is js : List Instr} (h : Ordered params labels is)
    (hjs : Ordered (known params is) labels js) : Ordered params labels (is ++ js) := by
  induction js generalizing is with
  | nil => simpa using h
  | cons j js ih =>
    rw [← singleton_append, ← append_assoc]
    refine ih (h.concat (by simpa [known] using hjs [] j js rfl)) fun before i after hsplit => ?_
    have hi := hjs (j :: before) i after (by rw [hsplit]; rfl)
    rwa [← singleton_append, known_append, ← known_append params] at hi

end Quadruple.Ir
