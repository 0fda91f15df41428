import Quadruple.Lowering.Program
import Quadruple.Proofs.Ensures
import Quadruple.Proofs.Symbols.Table

/-!
# Steps of lowering

What the small steps of lowering ensure, each as an equivalence, so that a claim about a composed
step turns into one about the bindings and the instructions that it makes.
-/

namespace Quadruple.Lowering

open Symbols (Entry EntryId)

variable {s : State} {t : Temp} {Q : Unit → State → Prop} {i : Ir.Instr}

@[simp]
theorem ensures_addInstr :
    Ensures (addInstr i) s Q ↔ Q () { s with revInstrs := i :: s.revInstrs } := ensures_modify

@[simp]
theorem ensures_bindTemp {b : Binding} :
    Ensures (bind t b) s Q ↔ Q () { s with bindings := (t, b) :: s.bindings } := ensures_modify

@[simp]
theorem ensures_error {n : Notice} :
    Ensures (error n) s Q ↔ Q () { s with report := s.report.error s.pos n.message } :=
  ensures_modify

@[simp]
theorem ensures_setEntry {id : EntryId} {f : Entry → Entry} :
    Ensures (setEntry id f) s Q ↔ Q () { s with table := s.table.modifyEntry id f } :=
  ensures_modify

@[simp]
theorem ensures_newConversion {Q : Ir.Value → State → Prop} :
    Ensures newConversion s Q ↔ Q (.temp "x" (s.conversions + 1 : Nat))
      { s with conversions := s.conversions + 1 } := ensures_modifyGet

@[simp]
theorem ensures_binding {Q : Binding → State → Prop} :
    Ensures (binding t) s Q ↔ ∀ b, s.bindings.lookup t = some b → Q b s := by
  simp only [binding, ensures_bind, ensures_get]
  cases h : s.bindings.lookup t <;> simp

@[simp]
theorem ensures_address {Q : Binding → State → Prop} :
    Ensures (address t) s Q ↔
      ∀ b, s.bindings.lookup t = some b → b.ty = .ptr → b.callee = none → Q b s := by
  simp only [address, ensures_bind, ensures_binding]
  refine forall₂_congr fun b _ => ?_
  by_cases hty : b.ty = .ptr <;> cases hc : b.callee <;> simp [hty]

@[simp]
theorem ensures_defineTemp {ty : Ir.Ty} :
    Ensures (defineTemp t ty i) s Q ↔ Q () { s with
      bindings := (t, { val := tempValue t, ty }) :: s.bindings
      revInstrs := { i with ty, result := some (tempValue t) } :: s.revInstrs } := by
  simp [defineTemp]

end Quadruple.Lowering
