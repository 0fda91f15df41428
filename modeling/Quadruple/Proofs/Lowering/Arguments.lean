import Quadruple.Proofs.Code.Tag
import Quadruple.Proofs.Flow.Built
import Quadruple.Proofs.Lowering.Trail

/-!
# The slots of arguments

Main statement: `arguments_fit_iff`. A function of a lowered program starts with two instructions
for each formal, one that reserves its slot and one that puts the argument there. What is stored
fits what is reserved unless words have eight bytes, the formal is an address, an array or a text
that is no double, and it was declared with less than eight bytes. `narrowArray` is such a formal.
-/

namespace Quadruple

open List

namespace Lowering

open Quadruple.Flow (Func)

variable {d : Decl} {word : Int} {c : Trail} {f : Func}

/-- An argument that is a number fits its slot, and so does an address where words have four
bytes. -/
theorem argument_fits_iff (hword : word = 4 ∨ word = 8) :
    (machineTy d.tag).size word ≤ max d.width d.tag.base.size ↔
      (word = 8 → machineTy d.tag = .ptr → d.tag.isDouble = true ∨ 8 ≤ d.width) := by
  rw [Tag.size, Tag.isDouble_base]
  unfold machineTy
  split
  · cases d.tag.isDouble <;> simp [Ir.Ty.size] <;> omega
  · cases d.tag.isDouble <;> simp [Ir.Ty.size]

theorem getElem?_formalInstrs {ds : List (Decl × Nat)} {k : Nat} {p : Decl × Nat}
    (h : ds[k]? = some p) : (ds.flatMap formalInstrs)[2 * k]? = some (slotInstr p.1) ∧
      (ds.flatMap formalInstrs)[2 * k + 1]? = some (argInstr p) := by
  induction ds generalizing k with
  | nil => cases h
  | cons x ds ih =>
    cases k with
    | zero =>
      cases h
      exact ⟨rfl, rfl⟩
    | succ k => exact ih h

theorem Trail.Leads.formals {s s1 : State} (h : c.Leads f s s1)
    (hbuilt : f.Built) : ∃ b rest, c.func.blocks[0]? = some b ∧
      b.instrs = f.formals.zipIdx.flatMap formalInstrs ++ rest := by
  obtain ⟨b, hb, -⟩ := hbuilt.entry
  obtain ⟨seg, hseg, hcovers, -⟩ := h.segment hb
  have hinstrs := hcovers.instrs
  rw [if_pos rfl, opening, append_assoc] at hinstrs
  exact ⟨seg.block, _, by simp [h.of.func, hseg], hinstrs⟩

/-- The lowered function `f'` saves its arguments: two instructions of its first block reserve the
slot of a formal and store into it, and what is stored fits unless it is an address that the slot
was not declared for. -/
def SavesArguments (word : Int) (f : Func) (f' : Ir.Func) : Prop :=
  ∃ b, f'.blocks[0]? = some b ∧ ∀ k d, f.formals[k]? = some d → ∃ n ty,
    b.instrs[2 * k]? = some
      { op := .alloc, ty := .ptr, result := some (.temp d.name (-1)), args := [.const n],
        align := d.tag.base.size } ∧
    b.instrs[2 * k + 1]? = some { op := .store, ty, args := [.temp "arg" k, .temp d.name (-1)] } ∧
    (ty.size word ≤ n ↔
      (word = 8 → machineTy d.tag = .ptr → d.tag.isDouble = true ∨ 8 ≤ d.width))

theorem Trail.Leads.savesArguments {s s1 : State} (h : c.Leads f s s1)
    (hbuilt : f.Built) (hword : word = 4 ∨ word = 8) : SavesArguments word f c.func := by
  obtain ⟨b, rest, hb, hinstrs⟩ := h.formals hbuilt
  refine ⟨b, hb, fun k d hd => ?_⟩
  have hk : f.formals.zipIdx[k]? = some (d, k) := by simp [hd]
  obtain ⟨hslot, harg⟩ := getElem?_formalInstrs hk
  refine ⟨_, _, ?_, ?_, argument_fits_iff hword⟩
  · rw [hinstrs, getElem?_append_left (List.getElem?_eq_some_iff.1 hslot).1]
    exact hslot
  · rw [hinstrs, getElem?_append_left (List.getElem?_eq_some_iff.1 harg).1]
    exact harg

/-- When the arguments of the functions of a program fit their slots. -/
theorem arguments_fit_iff {code : List Quad} {g : Flow.Graph} (hg : Flow.build code = .ok g)
    {s s1 : State} {p : Ir.Program} (h : lower g s = .ok p s1)
    (hword : p.wordSize = 4 ∨ p.wordSize = 8) :
    List.Forall₂ (SavesArguments p.wordSize) g.funcs p.funcs := by
  obtain ⟨cs, htrails, rfl⟩ := exists_trails h
  rw [List.forall₂_map_right_iff]
  obtain ⟨hall, -⟩ := htrails.invariant (I := fun _ => True) (fun _ _ _ _ _ _ _ => trivial) trivial
  refine ((List.forall₂_and_left (p := (· ∈ g.funcs)) _ _).2 ⟨fun _ h => h, hall⟩).imp ?_
  rintro f c ⟨hf, t, t', hleads, -⟩
  exact hleads.savesArguments (Flow.built_of_build hg f hf) hword

/-- An array of integers that was declared with the four bytes of one. -/
def narrowArray : List Quad :=
  [.funcBegin "f" .int, .formalDecl ⟨"a", .union .array .int, 4⟩, .funcEnd]

def narrowArrayGraph : Flow.Graph :=
  ⟨[], [⟨"f", .int, [⟨"a", .union .array .int, 4⟩], [], [⟨"entry", [.funcEnd], [], none⟩]⟩]⟩

theorem narrowArray_fits_iff : Flow.build narrowArray = .ok narrowArrayGraph ∧
    ∃ p s', lower narrowArrayGraph (.new {} .empty ⟨none, []⟩ "f") = .ok p s' ∧
      p.wordSize = 8 ∧ List.Forall₂ (SavesArguments 8) narrowArrayGraph.funcs p.funcs := by
  have hbuild : Flow.build narrowArray = .ok narrowArrayGraph := by decide +kernel
  have hok : (result? (lower narrowArrayGraph) (.new {} .empty ⟨none, []⟩ "f")).map
      (·.wordSize) = some 8 := by cbv
  obtain ⟨p, s', hl, hword⟩ := exists_ok_of_result? hok
  exact ⟨hbuild, p, s', hl, hword, hword ▸ arguments_fit_iff hbuild hl (.inr hword)⟩

/-- The address of the array takes eight bytes, and its slot has four. -/
theorem narrowArray_overflows : Flow.build narrowArray = .ok narrowArrayGraph ∧
    (result? (lower narrowArrayGraph) (.new {} .empty ⟨none, []⟩ "f")).map
      (fun p => (p.wordSize, p.funcs.map fun f => f.blocks.map fun b => b.instrs.map fun i =>
        (i.op, i.ty, i.args))) =
      some (8, [[[(.alloc, .ptr, [.const 4]), (.store, .ptr, [.temp "arg" 0, .temp "a" (-1)]),
        (.ret, .none, [.const 0])]]]) ∧ ¬ Ir.Ty.ptr.size 8 ≤ 4 :=
  ⟨by decide +kernel, by cbv, by decide⟩

end Lowering

end Quadruple
