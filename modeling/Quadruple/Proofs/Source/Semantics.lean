import Quadruple.Proofs.Source.Syntax

/-!
# What a structured statement means

`Exec s os es x os'` is the usual meaning of a statement whose actions, tests and returns are given
by what is met in them: with the outcomes `os` of the tests to come it meets `es` and is left by
the exit `x`, with the outcomes `os'` to spare. A `continue` goes to the step of a `for`, to the
condition of a `do` and of a `while`; a `break` leaves the innermost loop only.

Main statement: `exec_total`. Every structured statement has such a run for every list of outcomes,
since each round of a loop takes an outcome.
-/

namespace Quadruple.Source

/-- What evaluating a condition meets, its value unless the outcomes run out, and the outcomes
left. -/
def Cond.eval : Cond (List Event) → List Bool → List Event × Option Bool × List Bool
  | .test es, [] => (es, none, [])
  | .test es, o :: os => (es, some o, os)
  | .both c d, os => match c.eval os with
    | (es, some true, os') => (es ++ (d.eval os').1, (d.eval os').2)
    | r => r
  | .either c d, os => match c.eval os with
    | (es, some false, os') => (es ++ (d.eval os').1, (d.eval os').2)
    | r => r
  | .not c, os => ((c.eval os).1, (c.eval os).2.1.map (!·), (c.eval os).2.2)

inductive Exit where
  | fall
  | break
  | continue
  /-- The function has returned, or the outcomes have run out. -/
  | halt (e : Ending)
deriving DecidableEq, Repr

def Exit.again : Exit → Bool
  | .fall | .continue => true
  | .break | .halt _ => false

/-- How a loop is left when its body is left so and the loop does not go on. -/
def Exit.leave : Exit → Exit
  | .halt e => .halt e
  | _ => .fall

inductive Exec : Trace → List Bool → List Event → Exit → List Bool → Prop
  | act {es : List Event} {os : List Bool} : Exec (.act es) os es .fall os
  | line {n : Int} {os : List Bool} : Exec (.line n) os [] .fall os
  | ret {es : List Event} {os : List Bool} : Exec (.ret es) os es (.halt .done) os
  | break {os : List Bool} : Exec .break os [] .break os
  | continue {os : List Bool} : Exec .continue os [] .continue os
  | seq {s t : Trace} {os os1 os' : List Bool} {es es' : List Event} {x : Exit} :
      Exec s os es .fall os1 → Exec t os1 es' x os' → Exec (.seq s t) os (es ++ es') x os'
  | seqExit {s t : Trace} {os os' : List Bool} {es : List Event} {x : Exit} :
      Exec s os es x os' → x ≠ .fall → Exec (.seq s t) os es x os'
  | ifThen {c : Cond (List Event)} {s : Trace} {os os1 os' : List Bool} {es es' : List Event}
      {x : Exit} :
      c.eval os = (es, some true, os1) → Exec s os1 es' x os' →
      Exec (.ifThen c s) os (es ++ es') x os'
  | ifSkip {c : Cond (List Event)} {s : Trace} {os os' : List Bool} {es : List Event} :
      c.eval os = (es, some false, os') → Exec (.ifThen c s) os es .fall os'
  | ifWait {c : Cond (List Event)} {s : Trace} {os os' : List Bool} {es : List Event} :
      c.eval os = (es, none, os') → Exec (.ifThen c s) os es (.halt .waiting) os'
  | ifElse {c : Cond (List Event)} {s t : Trace} {v : Bool} {os os1 os' : List Bool}
      {es es' : List Event} {x : Exit} :
      c.eval os = (es, some v, os1) → Exec (if v then s else t) os1 es' x os' →
      Exec (.ifElse c s t) os (es ++ es') x os'
  | ifElseWait {c : Cond (List Event)} {s t : Trace} {os os' : List Bool} {es : List Event} :
      c.eval os = (es, none, os') → Exec (.ifElse c s t) os es (.halt .waiting) os'
  | whileAgain {c : Cond (List Event)} {s : Trace} {os os1 os2 os' : List Bool}
      {es es1 es2 : List Event} {x y : Exit} :
      c.eval os = (es, some true, os1) → Exec s os1 es1 x os2 → x.again = true →
      Exec (.while c s) os2 es2 y os' → Exec (.while c s) os (es ++ es1 ++ es2) y os'
  | whileLeave {c : Cond (List Event)} {s : Trace} {os os1 os' : List Bool}
      {es es1 : List Event} {x : Exit} :
      c.eval os = (es, some true, os1) → Exec s os1 es1 x os' → x.again = false →
      Exec (.while c s) os (es ++ es1) x.leave os'
  | whileEnd {c : Cond (List Event)} {s : Trace} {os os' : List Bool} {es : List Event} :
      c.eval os = (es, some false, os') → Exec (.while c s) os es .fall os'
  | whileWait {c : Cond (List Event)} {s : Trace} {os os' : List Bool} {es : List Event} :
      c.eval os = (es, none, os') → Exec (.while c s) os es (.halt .waiting) os'
  | doAgain {c : Cond (List Event)} {s : Trace} {os os1 os2 os' : List Bool}
      {es es1 es2 : List Event} {x y : Exit} :
      Exec s os es x os1 → x.again = true → c.eval os1 = (es1, some true, os2) →
      Exec (.doWhile s c) os2 es2 y os' → Exec (.doWhile s c) os (es ++ es1 ++ es2) y os'
  | doLeave {c : Cond (List Event)} {s : Trace} {os os' : List Bool} {es : List Event} {x : Exit} :
      Exec s os es x os' → x.again = false → Exec (.doWhile s c) os es x.leave os'
  | doEnd {c : Cond (List Event)} {s : Trace} {os os1 os' : List Bool} {es es1 : List Event}
      {x : Exit} :
      Exec s os es x os1 → x.again = true → c.eval os1 = (es1, some false, os') →
      Exec (.doWhile s c) os (es ++ es1) .fall os'
  | doWait {c : Cond (List Event)} {s : Trace} {os os1 os' : List Bool} {es es1 : List Event}
      {x : Exit} :
      Exec s os es x os1 → x.again = true → c.eval os1 = (es1, none, os') →
      Exec (.doWhile s c) os (es ++ es1) (.halt .waiting) os'
  -- behind the first round a `for` is a `for` that starts with its step
  | forAgain {init step : List Event} {c : Cond (List Event)} {s : Trace}
      {os os1 os2 os' : List Bool} {es es1 es2 : List Event} {x y : Exit} :
      c.eval os = (es, some true, os1) → Exec s os1 es1 x os2 → x.again = true →
      Exec (.for step c step s) os2 es2 y os' →
      Exec (.for init c step s) os (init ++ es ++ es1 ++ es2) y os'
  | forLeave {init step : List Event} {c : Cond (List Event)} {s : Trace}
      {os os1 os' : List Bool} {es es1 : List Event} {x : Exit} :
      c.eval os = (es, some true, os1) → Exec s os1 es1 x os' → x.again = false →
      Exec (.for init c step s) os (init ++ es ++ es1) x.leave os'
  | forEnd {init step : List Event} {c : Cond (List Event)} {s : Trace} {os os' : List Bool}
      {es : List Event} :
      c.eval os = (es, some false, os') → Exec (.for init c step s) os (init ++ es) .fall os'
  | forWait {init step : List Event} {c : Cond (List Event)} {s : Trace} {os os' : List Bool}
      {es : List Event} :
      c.eval os = (es, none, os') →
      Exec (.for init c step s) os (init ++ es) (.halt .waiting) os'

/-- The end of a function whose body is left so. A `break` or `continue` leads nowhere there. -/
def Exit.ending? : Exit → Option Ending
  | .fall => some .done
  | .halt e => some e
  | .break | .continue => none

/-- What the body of a function meets with the outcomes `os`, and how it ends. -/
def Stmt.Runs (s : Trace) (os : List Bool) (es : List Event) (e : Ending) : Prop :=
  ∃ x os', Exec s os es x os' ∧ x.ending? = some e

/-! ## Every statement has a run -/

/-- Whether a statement has no jumps to labels, and `break` and `continue` inside loops only. -/
def Stmt.Structured {α β γ : Type} (inLoop : Prop) : Stmt α β γ → Prop
  | .act _ | .line _ | .ret _ => True
  | .seq s t | .ifElse _ s t => s.Structured inLoop ∧ t.Structured inLoop
  | .ifThen _ s => s.Structured inLoop
  | .while _ s | .doWhile s _ | .for _ _ _ s => s.Structured True
  | .break | .continue => inLoop
  | .goto _ | .label _ => False

theorem Cond.eval_length {c : Cond (List Event)} {os os' : List Bool} {es : List Event}
    {v : Option Bool} (h : c.eval os = (es, v, os')) :
    os'.length ≤ os.length ∧ (v ≠ none → os'.length < os.length) := by
  induction c generalizing os es v os' with
  | test es0 =>
    cases os with
    | nil =>
      cases h
      simp
    | cons o os =>
      cases h
      simp
  | both c d ihc ihd | either c d ihc ihd =>
    rcases hc : c.eval os with ⟨es1, v1, os1⟩
    rcases hd : d.eval os1 with ⟨es2, v2, os2⟩
    have hc' := ihc hc
    have hd' := ihd hd
    rcases v1 with _ | _ | _ <;> simp only [Cond.eval, hc, hd, Prod.mk.injEq] at h <;>
    · obtain ⟨-, rfl, rfl⟩ := h
      grind
  | not c ih =>
    rcases hc : c.eval os with ⟨es1, v1, os1⟩
    obtain ⟨-, rfl, rfl⟩ : es1 = es ∧ v1.map (!·) = v ∧ os1 = os' := by
      simpa [Cond.eval, hc] using h
    refine ⟨(ih hc).1, fun hv => (ih hc).2 ?_⟩
    rintro rfl
    exact hv rfl

/-- `break` and `continue` leave a structured statement inside a loop only. -/
def Exit.Allowed (inLoop : Prop) : Exit → Prop
  | .fall | .halt _ => True
  | .break | .continue => inLoop

theorem Exit.allowed_leave (inLoop : Prop) (x : Exit) : x.leave.Allowed inLoop := by
  cases x <;> trivial

def HasRun (inLoop : Prop) (s : Trace) (os : List Bool) : Prop :=
  ∃ es x os', Exec s os es x os' ∧ os'.length ≤ os.length ∧ x.Allowed inLoop

variable {s : Trace}

section Loops

variable (hs : ∀ os, HasRun True s os) (inLoop : Prop) (c : Cond (List Event)) (os : List Bool)

include hs

theorem hasRun_while : HasRun inLoop (.while c s) os := by
  -- the rounds are counted by the outcomes that are left
  induction hn : os.length using Nat.strongRecOn generalizing os with
  | ind n ih =>
    subst hn
    rcases hc : c.eval os with ⟨es, _ | _ | _, os1⟩
    · exact ⟨_, _, _, .whileWait hc, (Cond.eval_length hc).1, trivial⟩
    · exact ⟨_, _, _, .whileEnd hc, (Cond.eval_length hc).1, trivial⟩
    · have hlt : os1.length < os.length := (Cond.eval_length hc).2 (by simp)
      obtain ⟨es1, x, os2, hx, hle, -⟩ := hs os1
      cases ha : x.again with
      | false => exact ⟨_, _, _, .whileLeave hc hx ha, by omega, x.allowed_leave inLoop⟩
      | true =>
        obtain ⟨es2, y, os3, hy, hle', hal⟩ := ih os2.length (by omega) os2 rfl
        exact ⟨_, _, _, .whileAgain hc hx ha hy, by omega, hal⟩

theorem hasRun_doWhile : HasRun inLoop (.doWhile s c) os := by
  induction hn : os.length using Nat.strongRecOn generalizing os with
  | ind n ih =>
    subst hn
    obtain ⟨es, x, os1, hx, hle, -⟩ := hs os
    cases ha : x.again with
    | false => exact ⟨_, _, _, .doLeave hx ha, hle, x.allowed_leave inLoop⟩
    | true =>
      rcases hc : c.eval os1 with ⟨es1, _ | _ | _, os2⟩
      · have := (Cond.eval_length hc).1
        exact ⟨_, _, _, .doWait hx ha hc, by omega, trivial⟩
      · have := (Cond.eval_length hc).1
        exact ⟨_, _, _, .doEnd hx ha hc, by omega, trivial⟩
      · have hlt : os2.length < os1.length := (Cond.eval_length hc).2 (by simp)
        obtain ⟨es2, y, os3, hy, hle', hal⟩ := ih os2.length (by omega) os2 rfl
        exact ⟨_, _, _, .doAgain hx ha hc hy, by omega, hal⟩

theorem hasRun_for (init step : List Event) : HasRun inLoop (.for init c step s) os := by
  induction hn : os.length using Nat.strongRecOn generalizing os init with
  | ind n ih =>
    subst hn
    rcases hc : c.eval os with ⟨es, _ | _ | _, os1⟩
    · exact ⟨_, _, _, .forWait hc, (Cond.eval_length hc).1, trivial⟩
    · exact ⟨_, _, _, .forEnd hc, (Cond.eval_length hc).1, trivial⟩
    · have hlt : os1.length < os.length := (Cond.eval_length hc).2 (by simp)
      obtain ⟨es1, x, os2, hx, hle, -⟩ := hs os1
      cases ha : x.again with
      | false => exact ⟨_, _, _, .forLeave hc hx ha, by omega, x.allowed_leave inLoop⟩
      | true =>
        obtain ⟨es2, y, os3, hy, hle', hal⟩ := ih os2.length (by omega) os2 step rfl
        exact ⟨_, _, _, .forAgain hc hx ha hy, by omega, hal⟩

end Loops

theorem hasRun_of_structured {inLoop : Prop} (h : s.Structured inLoop)
    (os : List Bool) : HasRun inLoop s os := by
  induction s generalizing inLoop os with
  | act es => exact ⟨_, _, _, .act, le_rfl, trivial⟩
  | line n => exact ⟨_, _, _, .line, le_rfl, trivial⟩
  | ret es => exact ⟨_, _, _, .ret, le_rfl, trivial⟩
  | «break» => exact ⟨_, _, _, .break, le_rfl, h⟩
  | «continue» => exact ⟨_, _, _, .continue, le_refl _, h⟩
  | goto name => exact h.elim
  | label name => exact h.elim
  | seq s t ihs iht =>
    obtain ⟨es, x, os1, hx, hle, hal⟩ := ihs h.1 os
    by_cases hfall : x = .fall
    · subst hfall
      obtain ⟨es', y, os2, hy, hle', hal'⟩ := iht h.2 os1
      exact ⟨_, _, _, .seq hx hy, by omega, hal'⟩
    · exact ⟨_, _, _, .seqExit hx hfall, hle, hal⟩
  | ifThen c s ih =>
    rcases hc : c.eval os with ⟨es, _ | _ | _, os1⟩
    · exact ⟨_, _, _, .ifWait hc, (Cond.eval_length hc).1, trivial⟩
    · exact ⟨_, _, _, .ifSkip hc, (Cond.eval_length hc).1, trivial⟩
    · have hle := (Cond.eval_length hc).1
      obtain ⟨es1, x, os2, hx, hle', hal⟩ := ih h os1
      exact ⟨_, _, _, .ifThen hc hx, by omega, hal⟩
  | ifElse c s t ihs iht =>
    rcases hc : c.eval os with ⟨es, _ | v, os1⟩
    · exact ⟨_, _, _, .ifElseWait hc, (Cond.eval_length hc).1, trivial⟩
    · have hle := (Cond.eval_length hc).1
      have hrun : HasRun inLoop (if v then s else t) os1 := by
        cases v with
        | true => exact ihs h.1 os1
        | false => exact iht h.2 os1
      obtain ⟨es1, x, os2, hx, hle', hal⟩ := hrun
      exact ⟨_, _, _, .ifElse hc hx, by omega, hal⟩
  | «while» c s ih => exact hasRun_while (ih h) inLoop c os
  | doWhile s c ih => exact hasRun_doWhile (ih h) inLoop c os
  | «for» init c step s ih => exact hasRun_for (ih h) inLoop c os init step

theorem exec_total (h : s.Structured False) (os : List Bool) : ∃ es e, s.Runs os es e := by
  obtain ⟨es, x, os', hx, -, hal⟩ := hasRun_of_structured h os
  cases x with
  | fall => exact ⟨es, .done, .fall, os', hx, rfl⟩
  | halt e => exact ⟨es, e, .halt e, os', hx, rfl⟩
  | «break» => exact hal.elim
  | «continue» => exact hal.elim

end Quadruple.Source
