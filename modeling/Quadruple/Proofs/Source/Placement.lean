import Quadruple.Proofs.Source.Semantics

/-!
# Statements in a body

`Placed` says how the code of a statement lies in the body of a function: between the points where
it is entered and left there are the points that its parts start from, and control comes from one
to the other as the statement wants it. A point is the rest of the body from there on.

Main statement: `Stmt.Placed.run`.
-/

namespace Quadruple.Source

open Quadruple.Flow (Equations Reach Halts Leads)

section Placement

variable (eqs : Equations) (body : List Quad)

def Carries (r : List Quad) (es : List Event) (r' : List Quad) : Prop :=
  ∀ os, Reach eqs body r os es r' os

abbrev Goes (r r' : List Quad) : Prop := Carries eqs body r [] r'

def Stops (r : List Quad) (os : List Bool) (es : List Event) (e : Ending) : Prop :=
  ∃ r' os' es1 es2, es = es1 ++ es2 ∧ Reach eqs body r os es1 r' os' ∧ Halts r' os' es2 e

/-- The condition starts at `r` and leads to `t` when it holds and to `f` when it does not. -/
def Cond.Placed : Cond (List Event) → List Quad → List Quad → List Quad → Prop
  | .test es, r, t, f =>
    (∀ o os, Reach eqs body r (o :: os) es (if o then t else f) os) ∧
      Stops eqs body r [] es .waiting
  | .both c d, r, t, f => ∃ m, c.Placed r m f ∧ d.Placed m t f
  | .either c d, r, t, f => ∃ m, c.Placed r t m ∧ d.Placed m t f
  | .not c, r, t, f => c.Placed r f t

/-- The statement starts at `r` and is left at `fin`, by a `break` at `brk` and by a `continue` at
`cont`. -/
def Stmt.Placed : Trace → List Quad → List Quad → List Quad → List Quad → Prop
  | .act es, r, fin, _, _ => Carries eqs body r es fin
  | .line _, r, fin, _, _ => Goes eqs body r fin
  | .seq s t, r, fin, brk, cont => ∃ m, s.Placed r m brk cont ∧ t.Placed m fin brk cont
  | .ifThen c s, r, fin, brk, cont => ∃ m, c.Placed eqs body r m fin ∧ s.Placed m fin brk cont
  | .ifElse c s t, r, fin, brk, cont =>
    ∃ m1 m2, c.Placed eqs body r m1 m2 ∧ s.Placed m1 fin brk cont ∧ t.Placed m2 fin brk cont
  | .while c s, r, fin, _, _ =>
    ∃ top m, Goes eqs body r top ∧ c.Placed eqs body top m fin ∧ s.Placed m top fin top
  | .doWhile s c, r, fin, _, _ =>
    ∃ top m, Goes eqs body r top ∧ s.Placed top m fin m ∧ c.Placed eqs body m top fin
  | .for init c step s, r, fin, _, _ =>
    ∃ top m next, Carries eqs body r init top ∧ c.Placed eqs body top m fin ∧
      s.Placed m next fin next ∧ Carries eqs body next step top
  | .break, r, _, brk, _ => Goes eqs body r brk
  | .continue, r, _, _, cont => Goes eqs body r cont
  | .goto _, _, _, _, _ | .label _, _, _, _, _ => True
  | .ret es, r, _, _, _ => ∀ os, Stops eqs body r os es .done

/-- Where control is when a statement that was entered at `r` is left. -/
def Exit.Arrives (r : List Quad) (os : List Bool) (es : List Event) (os' : List Bool)
    (fin brk cont : List Quad) : Exit → Prop
  | .fall => Reach eqs body r os es fin os'
  | .break => Reach eqs body r os es brk os'
  | .continue => Reach eqs body r os es cont os'
  | .halt e => Stops eqs body r os es e

end Placement

variable {eqs : Equations} {body r1 r2 r3 r r' f t brk cont fin top : List Quad}
  {es es' : List Event} {os os' : List Bool} {c : Cond (List Event)} {s : Trace} {x : Exit}

theorem Carries.trans (h : Carries eqs body r1 es r2) (h' : Carries eqs body r2 es' r3) :
    Carries eqs body r1 (es ++ es') r3 := fun os => (h os).trans (h' os)

theorem Carries.goes (h : Carries eqs body r1 es r2) (h' : Goes eqs body r2 r3) :
    Carries eqs body r1 es r3 := by
  simpa using h.trans h'

theorem Goes.refl (r : List Quad) : Goes eqs body r r := fun _ => .refl

theorem Stops.of_reach {e : Ending} (h : Reach eqs body r os es r' os')
    (h' : Stops eqs body r' os' es' e) : Stops eqs body r os (es ++ es') e := by
  obtain ⟨r'', os'', es1, es2, rfl, hr, hh⟩ := h'
  exact ⟨r'', os'', es ++ es1, es2, by simp, h.trans hr, hh⟩

theorem Reach.goes (h : Reach eqs body r1 os es r2 os') (h' : Goes eqs body r2 r3) :
    Reach eqs body r1 os es r3 os' := by
  simpa using h.trans (h' os')

/-! ## Moving the points -/

theorem Cond.Placed.of_goes (h : c.Placed eqs body r' t f) (hr : Goes eqs body r r') :
    c.Placed eqs body r t f := by
  induction c generalizing r r' t f with
  | test es =>
    refine ⟨fun o os => ?_, ?_⟩
    · exact (hr (o :: os)).trans (h.1 o os)
    · exact Stops.of_reach (hr []) h.2
  | both c d ihc _ | either c d ihc _ =>
    obtain ⟨m, hc, hd⟩ := h
    exact ⟨m, ihc hc hr, hd⟩
  | not c ih => exact ih h hr

theorem Cond.Placed.goes {t' f' : List Quad} (h : c.Placed eqs body r t f) (ht : Goes eqs body t t')
    (hf : Goes eqs body f f') : c.Placed eqs body r t' f' := by
  induction c generalizing r t t' f f' with
  | test es =>
    refine ⟨fun o os => Reach.goes (h.1 o os) ?_, h.2⟩
    cases o
    · exact hf
    · exact ht
  | both c d ihc ihd =>
    obtain ⟨m, hc, hd⟩ := h
    exact ⟨m, ihc hc (.refl m) hf, ihd hd ht hf⟩
  | either c d ihc ihd =>
    obtain ⟨m, hc, hd⟩ := h
    exact ⟨m, ihc hc ht (.refl m), ihd hd ht hf⟩
  | not c ih => exact ih h hf ht

theorem Stmt.Placed.of_goes (h : s.Placed eqs body r' fin brk cont) (hr : Goes eqs body r r') :
    s.Placed eqs body r fin brk cont := by
  induction s generalizing r r' fin brk cont with
  | act es | line n | «break» | «continue» => exact hr.trans h
  | seq s t ihs _ =>
    obtain ⟨m, hs, ht⟩ := h
    exact ⟨m, ihs hs hr, ht⟩
  | ifThen c s _ =>
    obtain ⟨m, hc, hs⟩ := h
    exact ⟨m, hc.of_goes hr, hs⟩
  | ifElse c s t _ _ =>
    obtain ⟨m1, m2, hc, hs⟩ := h
    exact ⟨m1, m2, hc.of_goes hr, hs⟩
  | «while» c s _ | doWhile s c _ =>
    obtain ⟨top, m, htop, hloop⟩ := h
    exact ⟨top, m, hr.trans htop, hloop⟩
  | «for» init c step s _ =>
    obtain ⟨top, m, next, hinit, hloop⟩ := h
    exact ⟨top, m, next, hr.trans hinit, hloop⟩
  | goto name => trivial
  | label name => trivial
  | ret es => exact fun os => Stops.of_reach (hr os) (h os)

theorem Stmt.Placed.goes {fin' brk' cont' : List Quad} (h : s.Placed eqs body r fin brk cont)
    (hfin : Goes eqs body fin fin') (hbrk : Goes eqs body brk brk')
    (hcont : Goes eqs body cont cont') : s.Placed eqs body r fin' brk' cont' := by
  induction s generalizing r fin fin' brk brk' cont cont' with
  | act es | line n => exact Carries.goes h hfin
  | seq s t ihs iht =>
    obtain ⟨m, hs, ht⟩ := h
    exact ⟨m, ihs hs (.refl m) hbrk hcont, iht ht hfin hbrk hcont⟩
  | ifThen c s ih =>
    obtain ⟨m, hc, hs⟩ := h
    exact ⟨m, hc.goes (.refl m) hfin, ih hs hfin hbrk hcont⟩
  | ifElse c s t ihs iht =>
    obtain ⟨m1, m2, hc, hs, ht⟩ := h
    exact ⟨m1, m2, hc, ihs hs hfin hbrk hcont, iht ht hfin hbrk hcont⟩
  | «while» c s ih =>
    obtain ⟨top, m, htop, hc, hs⟩ := h
    exact ⟨top, m, htop, hc.goes (.refl m) hfin, ih hs (.refl top) hfin (.refl top)⟩
  | doWhile s c ih =>
    obtain ⟨top, m, htop, hs, hc⟩ := h
    exact ⟨top, m, htop, ih hs (.refl m) hfin (.refl m), hc.goes (.refl top) hfin⟩
  | «for» init c step s ih =>
    obtain ⟨top, m, next, hinit, hc, hs, hstep⟩ := h
    refine ⟨top, m, next, hinit, hc.goes (.refl m) hfin, ?_, hstep⟩
    exact ih hs (.refl next) hfin (.refl next)
  | «break» => exact Carries.goes h hbrk
  | «continue» => exact Carries.goes h hcont
  | goto name => trivial
  | label name => trivial
  | ret es => exact h

/-! ## Runs -/

theorem Cond.Placed.run {v : Option Bool} (h : c.Placed eqs body r t f)
    (he : c.eval os = (es, v, os')) :
    match v with
    | some v => Reach eqs body r os es (if v then t else f) os'
    | none => Stops eqs body r os es .waiting := by
  induction c generalizing r t f os es v os' with
  | test es0 =>
    cases os with
    | nil =>
      cases he
      exact h.2
    | cons o os =>
      obtain ⟨rfl, rfl, rfl⟩ : es0 = es ∧ some o = v ∧ os = os' := by simpa [Cond.eval] using he
      exact h.1 o os
  | both c d ihc ihd | either c d ihc ihd =>
    obtain ⟨m, hc, hd⟩ := h
    rcases hce : c.eval os with ⟨es1, v1, os1⟩
    rcases hde : d.eval os1 with ⟨es2, v2, os2⟩
    have hrun := ihc hc hce
    have hrun' := ihd hd hde
    -- the second condition is met behind one outcome of the first
    rcases v1 with _ | _ | _ <;> simp only [Cond.eval, hce, hde, Prod.mk.injEq] at he <;>
    · obtain ⟨rfl, rfl, rfl⟩ := he
      first
      | exact hrun
      | cases v2 with
        | none => exact Stops.of_reach hrun hrun'
        | some v => exact Flow.Reach.trans hrun hrun'
  | not c ih =>
    rcases hce : c.eval os with ⟨es1, v1, os1⟩
    have hrun := ih h hce
    simp only [Cond.eval, hce, Prod.mk.injEq] at he
    obtain ⟨rfl, rfl, rfl⟩ := he
    rcases v1 with _ | _ | _ <;> exact hrun

theorem Exit.Arrives.of_reach {os1 : List Bool} (h : Reach eqs body r os es r' os1)
    (h' : x.Arrives eqs body r' os1 es' os' fin brk cont) :
    x.Arrives eqs body r os (es ++ es') os' fin brk cont := by
  cases x with
  | fall | «break» | «continue» => exact h.trans h'
  | halt e => exact Stops.of_reach h h'

theorem Exit.Arrives.again (h : x.Arrives eqs body r os es os' top brk top)
    (hx : x.again = true) : Reach eqs body r os es top os' := by
  cases x with
  | fall => exact h
  | «continue» => exact h
  | «break» => cases hx
  | halt e => cases hx

theorem Exit.Arrives.leave (h : x.Arrives eqs body r os es os' top fin top)
    (hx : x.again = false) : x.leave.Arrives eqs body r os es os' fin brk cont := by
  cases x with
  | fall => cases hx
  | «continue» => cases hx
  | «break» => exact h
  | halt e => exact h

/-- Where a statement is placed, a run over the body does what the statement means. -/
theorem Stmt.Placed.run (he : Exec s os es x os') (h : s.Placed eqs body r fin brk cont) :
    x.Arrives eqs body r os es os' fin brk cont := by
  induction he generalizing r fin brk cont with
  | act => exact h _
  | line => exact h _
  | ret => exact h _
  | «break» => exact h _
  | «continue» => exact h _
  | seq _ _ ihs iht =>
    obtain ⟨m, hs, ht⟩ := h
    exact (iht ht).of_reach (ihs hs)
  | @seqExit s t os os' es x _ hx ihs =>
    obtain ⟨m, hs, -⟩ := h
    have harr := ihs hs
    cases x with
    | fall => exact (hx rfl).elim
    | _ => exact harr
  | ifThen hc _ ih =>
    obtain ⟨m, hcp, hs⟩ := h
    exact (ih hs).of_reach (hcp.run hc)
  | ifSkip hc | ifWait hc =>
    obtain ⟨m, hcp, -⟩ := h
    exact hcp.run hc
  | @ifElse c s t v os os1 os' es es' x hc _ ih =>
    obtain ⟨m1, m2, hcp, hs, ht⟩ := h
    have harr : x.Arrives eqs body (if v then m1 else m2) os1 es' os' fin brk cont := by
      cases v
      · exact ih ht
      · exact ih hs
    exact harr.of_reach (hcp.run hc)
  | ifElseWait hc =>
    obtain ⟨m1, m2, hcp, -⟩ := h
    exact hcp.run hc
  | whileAgain hc _ hx _ ihs ihw =>
    obtain ⟨top, m, htop, hcp, hs⟩ := h
    have hround := ((ihs hs).again hx)
    have hreach := (htop _).trans ((hcp.run hc).trans hround)
    exact Exit.Arrives.of_reach hreach (ihw ⟨top, m, .refl top, hcp, hs⟩)
  | whileLeave hc _ hx ihs =>
    obtain ⟨top, m, htop, hcp, hs⟩ := h
    exact Exit.Arrives.of_reach ((htop _).trans (hcp.run hc)) ((ihs hs).leave hx)
  | whileEnd hc =>
    obtain ⟨top, m, htop, hcp, -⟩ := h
    exact (htop _).trans (hcp.run hc)
  | whileWait hc =>
    obtain ⟨top, m, htop, hcp, -⟩ := h
    exact Stops.of_reach (htop _) (hcp.run hc)
  | doAgain _ hx hc _ ihs ihw =>
    obtain ⟨top, m, htop, hs, hcp⟩ := h
    have hreach := ((htop _).trans ((ihs hs).again hx)).trans (hcp.run hc)
    exact Exit.Arrives.of_reach hreach (ihw ⟨top, m, .refl top, hs, hcp⟩)
  | doLeave _ hx ihs =>
    obtain ⟨top, m, htop, hs, hcp⟩ := h
    exact Exit.Arrives.of_reach (htop _) ((ihs hs).leave hx)
  | doEnd _ hx hc ihs =>
    obtain ⟨top, m, htop, hs, hcp⟩ := h
    exact ((htop _).trans ((ihs hs).again hx)).trans (hcp.run hc)
  | doWait _ hx hc ihs =>
    obtain ⟨top, m, htop, hs, hcp⟩ := h
    exact Stops.of_reach ((htop _).trans ((ihs hs).again hx)) (hcp.run hc)
  | forAgain hc _ hx _ ihs ihw =>
    obtain ⟨top, m, next, hinit, hcp, hs, hstep⟩ := h
    have hreach := ((hinit _).trans (hcp.run hc)).trans ((ihs hs).again hx)
    exact Exit.Arrives.of_reach hreach (ihw ⟨top, m, next, hstep, hcp, hs, hstep⟩)
  | forLeave hc _ hx ihs =>
    obtain ⟨top, m, next, hinit, hcp, hs, hstep⟩ := h
    exact Exit.Arrives.of_reach ((hinit _).trans (hcp.run hc)) ((ihs hs).leave hx)
  | forEnd hc =>
    obtain ⟨top, m, next, hinit, hcp, hs, hstep⟩ := h
    exact (hinit _).trans (hcp.run hc)
  | forWait hc =>
    obtain ⟨top, m, next, hinit, hcp, hs, hstep⟩ := h
    exact Stops.of_reach (hinit _) (hcp.run hc)

end Quadruple.Source
