import Quadruple.Proofs.Flow.Place
import Quadruple.Proofs.Source.Program

/-!
# Structured control flow

Main statement: `walk_iff_runs_of_structured`.
-/

namespace Quadruple.Source

open Emit (State)

/-! ## Structured statements -/

section Structured

variable {α β γ : Type} {s : Stmt α β γ} {inLoop : Prop}

theorem Stmt.Structured.enclosed (h : s.Structured inLoop) : s.Enclosed inLoop := by
  induction s generalizing inLoop with
  | seq s t ihs iht | ifElse c s t ihs iht => exact ⟨ihs h.1, iht h.2⟩
  | ifThen c s ih | «while» c s ih | doWhile s c ih | «for» init c step s ih => exact ih h
  | «break» | «continue» => exact h
  | _ => trivial

theorem Stmt.Structured.labels (h : s.Structured inLoop) : s.labels = [] := by
  induction s generalizing inLoop with
  | seq s t ihs iht | ifElse c s t ihs iht => simp [Stmt.labels, ihs h.1, iht h.2]
  | ifThen c s ih | «while» c s ih | doWhile s c ih | «for» init c step s ih => exact ih h
  | label name => exact h.elim
  | _ => rfl

theorem Stmt.Structured.forwards (h : s.Structured inLoop) (declared : List String) :
    s.forwards declared = [] := by
  induction s generalizing inLoop declared with
  | seq s t ihs iht | ifElse c s t ihs iht => simp [Stmt.forwards, ihs h.1, iht h.2]
  | ifThen c s ih | «while» c s ih | doWhile s c ih | «for» init c step s ih => exact ih h declared
  | goto name => exact h.elim
  | _ => rfl

theorem Stmt.structured_shape : s.shape.Structured inLoop ↔ s.Structured inLoop := by
  induction s generalizing inLoop with
  | seq s t ihs iht | ifElse c s t ihs iht => exact and_congr ihs iht
  | ifThen c s ih | «while» c s ih | doWhile s c ih | «for» init c step s ih => exact ih
  | _ => exact Iff.rfl

end Structured

theorem Func.admitted_of_structured {settings : Settings} {f : Func}
    (h : f.body.Structured False) (hd : (f.body.depth : Int) ≤ settings.maxLoopDepth) :
    f.Admitted settings where
  permits := by
    constructor
    · simpa [atHead] using h.enclosed
    · simpa [atHead] using hd
    · intro name hm
      simp [atHead, h.forwards] at hm
    · simp [atHead, h.labels]
  declared := by simp [h.forwards]

/-! ## Walks -/

theorem Compiles.walk {t : Trace} {f : Flow.Func} (h : Compiles t f) {os : List Bool}
    {es : List Event} {e : Ending} (hr : t.Runs os es e) : Flow.Walk f 0 os es e := by
  obtain ⟨eqs, r, himpl, hbuilds, hres⟩ := h
  obtain ⟨x, os', hx, he⟩ := hr
  have harrive := Stmt.Placed.run hx (himpl.placed eqs hres)
  have hstops : Stops eqs r.body r.body os es e := by
    cases x with
    | fall =>
      cases he
      exact ⟨[], os', es, [], by simp, harrive, .done⟩
    | halt e' =>
      cases he
      exact harrive
    | «break» => cases he
    | «continue» => cases he
  obtain ⟨r', os1, es1, es2, rfl, hreach, hhalts⟩ := hstops
  exact Flow.walk_of_reach hbuilds hreach hhalts

theorem Compiles.walk_iff {t : Trace} {f : Flow.Func} (h : Compiles t f)
    (hs : t.Structured False) (os : List Bool) (es : List Event) (e : Ending) :
    Flow.Walk f 0 os es e ↔ t.Runs os es e := by
  refine ⟨fun hw => ?_, h.walk⟩
  obtain ⟨es', e', hr⟩ := exec_total hs os
  obtain ⟨rfl, rfl⟩ := hw.unique (h.walk hr)
  exact hr

/-- Every program of nested loops and branches, within the depth that is allowed, has a flow graph.
Whatever its tests give, each function has a run, and the walk through its graph goes along that run
and along no other. -/
theorem walk_iff_runs_of_structured (settings : Settings) (table : Symbols.Table) (report : Report)
    (p : Program) (hp : ∀ f ∈ p.funcs, f.body.Structured False ∧
      (f.body.depth : Int) ≤ settings.maxLoopDepth) :
    ∃ ts s g, p.emit (State.new settings table report) = .ok ts s ∧
      Flow.build s.code.toList = .ok g ∧
      List.Forall₂ (fun t f => t.shape = f.body.shape) ts p.funcs ∧
      List.Forall₂ (fun t f => ∀ os, (∃ es e, Stmt.Runs t os es e) ∧
        ∀ es e, Flow.Walk f 0 os es e ↔ Stmt.Runs t os es e) ts g.funcs := by
  have hadm : ∀ f ∈ p.funcs, f.Admitted settings := fun f hf =>
    Func.admitted_of_structured (hp f hf).1 (hp f hf).2
  obtain ⟨ts, s, hrun, -, hshape, g, hg, hcompiles⟩ := Program.exists_graph hadm table report
  refine ⟨ts, s, g, hrun, hg, hshape, ?_⟩
  have hstructured : ∀ t ∈ ts, t.Structured False := by
    have hbodies : List.Forall₂ (fun f t => f.body.Structured False ∧ t.shape = f.body.shape)
        p.funcs ts :=
      (List.forall₂_and_left _ _).2 ⟨fun f hf => (hp f hf).1, hshape.flip⟩
    refine ((List.forall₂_and_left (R := fun _ _ => True) ts p.funcs).1 (hbodies.flip.imp ?_)).1
    rintro t f ⟨hf, hs⟩
    exact ⟨Stmt.structured_shape.1 (hs ▸ Stmt.structured_shape.2 hf), trivial⟩
  refine ((List.forall₂_and_left _ _).2 ⟨hstructured, hcompiles⟩).imp fun t f ⟨ht, hf⟩ os => ?_
  exact ⟨exec_total ht os, hf.walk_iff ht os⟩

/-- A `for` with a `continue` and a `break` inside an inner `do`, and an early return. -/
def nestedLoops : Program :=
  [.func
    { name := "f", ty := .int, formals := [], locals := [⟨"i", .int, 1⟩]
      body := .for [.assign .plain (.var "i") (.const "0")] (.test (.nonzero (.read "i")))
        [.assign (.arith ⟨"+", by decide⟩) (.var "i") (.const "1")]
        (.seq (.ifThen (.test (.nonzero (.read "i"))) .continue)
          (.seq (.doWhile (.ifElse (.test (.nonzero (.read "i"))) .break .continue)
              (.test (.nonzero (.const "1"))))
            (.while (.test (.nonzero (.read "i"))) (.ret none)))) }]

theorem nestedLoops_walk_iff_runs :
    (∀ f ∈ nestedLoops.funcs, f.body.Structured False ∧ (f.body.depth : Int) ≤ 50) ∧
    ∃ ts s g, nestedLoops.emit (State.new {} .empty ⟨none, []⟩) = .ok ts s ∧
      Flow.build s.code.toList = .ok g ∧
      List.Forall₂ (fun t f => t.shape = f.body.shape) ts nestedLoops.funcs ∧
      List.Forall₂ (fun t f => ∀ os, (∃ es e, Stmt.Runs t os es e) ∧
        ∀ es e, Flow.Walk f 0 os es e ↔ Stmt.Runs t os es e) ts g.funcs := by
  have hp : ∀ f ∈ nestedLoops.funcs, f.body.Structured False ∧ (f.body.depth : Int) ≤ 50 := by
    simp [nestedLoops, Program.funcs, Stmt.Structured, Stmt.depth]
  exact ⟨hp, walk_iff_runs_of_structured {} .empty ⟨none, []⟩ nestedLoops hp⟩

end Quadruple.Source
