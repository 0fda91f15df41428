import Quadruple.Proofs.Flow.Place

/-!
# Running a stream and walking its graph

Two machines for one function. The first moves over the stream of the function, skips labels,
equations and declarations, and looks for the first label of a number when it jumps. The second
runs the instructions of a block and follows the successors. Both are told how the tests to come
will turn out, both record the jumps they make with the labels that are meant, and both stop at a
return and at the end of the function.

Main statement: `same_course_of_build`.
-/

namespace Quadruple.Flow

open List

/-! ## Machines that meet instructions -/

inductive Move (σ : Type) where
  /-- Meets instructions and goes on. -/
  | on (met : List Quad) (next : σ)
  /-- Stops at an instruction. -/
  | stop (q : Quad)
  | stuck

def Move.to {σ : Type} (met : List Quad) : Option σ → Move σ
  | some s => .on met s
  | none => .stuck

section Machines

variable {σ τ : Type}

def met (step : σ → Move σ) : Nat → σ → List Quad
  | 0, _ => []
  | n + 1, s => match step s with
    | .on qs s' => qs ++ met step n s'
    | .stop q => [q]
    | .stuck => []

def Lively (step : σ → Move σ) : Nat → σ → Prop
  | 0, _ => True
  | n + 1, s => match step s with
    | .on _ s' => Lively step n s'
    | .stop _ => True
    | .stuck => False

/-- Two machines meet the same instructions in the same order, however long they run, and neither
gets stuck. -/
structure SameCourse (step : σ → Move σ) (s : σ) (step' : τ → Move τ) (t : τ) : Prop where
  left : ∀ n, ∃ m, met step n s <+: met step' m t
  right : ∀ m, ∃ n, met step' m t <+: met step n s
  lively : ∀ n, Lively step n s ∧ Lively step' n t

/-- `Moves step k s qs o`: in `k` moves from `s` the machine meets `qs` and comes to `o`, which is
`none` when it stops with the last of them. -/
inductive Moves (step : σ → Move σ) : Nat → σ → List Quad → Option σ → Prop
  | refl {s : σ} : Moves step 0 s [] (some s)
  | stop {s : σ} {q : Quad} : step s = .stop q → Moves step 1 s [q] none
  | on {k : Nat} {s s' : σ} {qs ps : List Quad} {o : Option σ} :
      step s = .on qs s' → Moves step k s' ps o → Moves step (k + 1) s (qs ++ ps) o

variable {step : σ → Move σ} {step' : τ → Move τ} {qs : List Quad} {s : σ} {k n m : Nat}
  {o : Option σ}

theorem Moves.single {s' : σ} (h : step s = .on qs s') : Moves step 1 s qs (some s') := by
  have hmoves := Moves.on h .refl
  rwa [append_nil] at hmoves

theorem Moves.trans {l : Nat} {s' : σ} {ps : List Quad} (h : Moves step k s qs (some s'))
    (h' : Moves step l s' ps o) : Moves step (k + l) s (qs ++ ps) o := by
  generalize ho : some s' = o' at h
  induction h with
  | refl =>
    cases ho
    simpa using h'
  | stop => cases ho
  | on hs _ ih =>
    rw [append_assoc, Nat.succ_add]
    exact .on hs (ih ho)

theorem met_mono (h : m ≤ n) (s : σ) : met step m s <+: met step n s := by
  induction m generalizing n s with
  | zero => exact nil_prefix
  | succ m ih =>
    obtain ⟨n, rfl⟩ : ∃ k, n = k + 1 := ⟨n - 1, by omega⟩
    unfold met
    cases step s with
    | on qs s' => exact (prefix_append_right_inj qs).2 (ih (Nat.le_of_succ_le_succ h) s')
    | stop | stuck => exact prefix_refl _

theorem lively_mono (h : m ≤ n) (hn : Lively step n s) : Lively step m s := by
  induction m generalizing n s with
  | zero => trivial
  | succ m ih =>
    obtain ⟨n, rfl⟩ : ∃ k, n = k + 1 := ⟨n - 1, by omega⟩
    unfold Lively at hn ⊢
    cases hs : step s with
    | on qs s' =>
      rw [hs] at hn
      exact ih (Nat.le_of_succ_le_succ h) hn
    | stop => trivial
    | stuck =>
      rw [hs] at hn
      exact hn

def metFrom (step : σ → Move σ) (n : Nat) : Option σ → List Quad
  | some s => met step n s
  | none => []

theorem Moves.met_add (h : Moves step k s qs o) (n : Nat) :
    met step (k + n) s = qs ++ metFrom step n o := by
  induction h with
  | refl =>
    rw [zero_add]
    rfl
  | stop hs =>
    rw [add_comm, met, hs]
    rfl
  | on hs _ ih => rw [Nat.succ_add, met, hs, append_assoc, ← ih]

theorem Moves.lively_add (h : Moves step k s qs o) (hn : ∀ s' ∈ o, Lively step n s') :
    Lively step (k + n) s := by
  induction h with
  | refl =>
    rw [zero_add]
    exact hn _ rfl
  | stop hs =>
    rw [add_comm, Lively, hs]
    trivial
  | on hs _ ih =>
    rw [Nat.succ_add, Lively, hs]
    exact ih hn

/-- Both machines have stopped, or they have come to states in the relation `R`. -/
inductive Abreast (R : σ → τ → Prop) : Option σ → Option τ → Prop
  | stopped : Abreast R none none
  | going {s : σ} {t : τ} : R s t → Abreast R (some s) (some t)

/-- From `s` and `t` on the two machines meet the same instructions in some moves, the first in at
least one. The second may wait only while the measure of the first gets smaller. -/
def Agrees (step : σ → Move σ) (step' : τ → Move τ) (R : σ → τ → Prop) (size : σ → Nat) (s : σ)
    (t : τ) : Prop :=
  ∃ j k qs o o', 0 < j ∧ Moves step j s qs o ∧ Moves step' k t qs o' ∧ Abreast R o o' ∧
    (k = 0 → ∀ s' ∈ o, size s' < size s)

variable {R : σ → τ → Prop} {size : σ → Nat} {t : τ}

section

variable (h : ∀ s t, R s t → Agrees step step' R size s t)
include h

theorem exists_prefix_right (n : Nat) (hst : R s t) : ∃ m, met step n s <+: met step' m t := by
  induction n using Nat.strongRecOn generalizing s t with
  | ind n ih =>
    obtain ⟨j, k, qs, o, o', hj, hs, ht, ho, -⟩ := h s t hst
    rcases lt_or_ge n j with hlt | hge
    · refine ⟨k, (met_mono hlt.le s).trans ?_⟩
      rw [← add_zero j, hs.met_add, ← add_zero k, ht.met_add]
      cases ho <;> exact prefix_refl _
    · obtain ⟨n, rfl⟩ := Nat.exists_eq_add_of_le hge
      rw [hs.met_add]
      cases ho with
      | stopped =>
        refine ⟨k, ?_⟩
        rw [← add_zero k, ht.met_add]
        exact prefix_refl _
      | going hst' =>
        obtain ⟨m, hm⟩ := ih n (by omega) hst'
        refine ⟨k + m, ?_⟩
        rw [ht.met_add]
        exact (prefix_append_right_inj qs).2 hm

theorem exists_prefix_left (m : Nat) (hst : R s t) : ∃ n, met step' m t <+: met step n s := by
  induction m using Nat.strongRecOn generalizing s t with
  | ind m ihm =>
    -- while the second machine waits the measure of the first gets smaller
    induction hsize : size s using Nat.strongRecOn generalizing s t with
    | ind c ihc =>
      subst hsize
      obtain ⟨j, k, qs, o, o', -, hs, ht, ho, hwait⟩ := h s t hst
      rcases lt_or_ge m k with hlt | hge
      · refine ⟨j, (met_mono hlt.le t).trans ?_⟩
        rw [← add_zero j, hs.met_add, ← add_zero k, ht.met_add]
        cases ho <;> exact prefix_refl _
      · obtain ⟨m, rfl⟩ := Nat.exists_eq_add_of_le hge
        rw [ht.met_add]
        cases ho with
        | stopped =>
          refine ⟨j, ?_⟩
          rw [← add_zero j, hs.met_add]
          exact prefix_refl _
        | @going s' t' hst' =>
          have hrest : ∃ n, met step' m t' <+: met step n s' := by
            rcases Nat.eq_zero_or_pos k with rfl | hk
            · rw [zero_add] at ihc
              exact ihc _ (hwait rfl _ rfl) hst' rfl
            · exact ihm m (by omega) hst'
          obtain ⟨n, hn⟩ := hrest
          refine ⟨j + n, ?_⟩
          rw [hs.met_add]
          exact (prefix_append_right_inj qs).2 hn

theorem lively_left (n : Nat) (hst : R s t) : Lively step n s := by
  induction n using Nat.strongRecOn generalizing s t with
  | ind n ih =>
    obtain ⟨j, k, qs, o, o', hj, hs, -, ho, -⟩ := h s t hst
    refine lively_mono (show n ≤ j + (n - 1) by omega) (hs.lively_add fun s' hs' => ?_)
    cases n with
    | zero => trivial
    | succ n =>
      cases ho with
      | stopped => cases hs'
      | going hst' =>
        cases hs'
        exact ih n (Nat.lt_succ_self n) hst'

theorem lively_right (m : Nat) (hst : R s t) : Lively step' m t := by
  induction m using Nat.strongRecOn generalizing s t with
  | ind m ihm =>
    induction hsize : size s using Nat.strongRecOn generalizing s t with
    | ind c ihc =>
      subst hsize
      obtain ⟨j, k, qs, o, o', -, -, ht, ho, hwait⟩ := h s t hst
      refine lively_mono (show m ≤ k + (m - k) by omega) (ht.lively_add fun t' ht' => ?_)
      cases ho with
      | stopped => cases ht'
      | going hst' =>
        cases ht'
        rcases Nat.eq_zero_or_pos k with rfl | hk
        · exact ihc _ (hwait rfl _ rfl) hst' rfl
        · rcases Nat.eq_zero_or_pos m with rfl | hm
          · rw [Nat.zero_sub]
            trivial
          · exact ihm (m - k) (by omega) hst'

theorem sameCourse_of_agrees (hst : R s t) : SameCourse step s step' t where
  left n := exists_prefix_right h n hst
  right m := exists_prefix_left h m hst
  lively n := ⟨lively_left h n hst, lively_right h n hst⟩

end

end Machines

/-! ## The two machines -/

/-- A place in a stream: what is left of it, and how many tests have been made. -/
structure StreamPos where
  rest : List Quad
  tests : Nat

/-- The label that a target stands for, and what follows the first such label of `whole`. -/
def landing? (eqs : Equations) (whole : List Quad) (t : Target) : Option (Int × List Quad) := do
  let n ← targetLabel? eqs t
  let rest ← afterLabel? n whole
  return (n, rest)

/-- One move over the stream `whole` of a function; test `k` turns out as `os k`. -/
def streamStep (eqs : Equations) (whole : List Quad) (os : Nat → Bool) (s : StreamPos) :
    Move StreamPos :=
  match s.rest with
  | [] => .stuck
  | .label _ :: r | .patch _ _ :: r | .formalDecl _ :: r | .localDecl _ :: r =>
    .on [] { s with rest := r }
  | .jump t :: _ => match landing? eqs whole t with
    | some (n, r) => .on [.jump (.label n)] { s with rest := r }
    | none => .stuck
  | .condJump c t :: r => match landing? eqs whole t with
    | some (n, r') => .on [.condJump c (.label n)] ⟨if os s.tests then r' else r, s.tests + 1⟩
    | none => .stuck
  | .branch c t u :: _ => match landing? eqs whole t, landing? eqs whole u with
    | some (n, r), some (m, r') =>
      if os s.tests then .on [.condJump c (.label n)] ⟨r, s.tests + 1⟩
      else .on [.condJump c (.label n), .jump (.label m)] ⟨r', s.tests + 1⟩
    | _, _ => .stuck
  | .ret v tag :: _ => .stop (.ret v tag)
  | .funcEnd :: _ => .stop .funcEnd
  | q :: r => .on [q] { s with rest := r }

/-- A place in a graph: a block, what is left of it, and how many tests have been made. -/
structure BlockPos where
  block : Nat
  rest : List Quad
  tests : Nat

def Func.follow? (f : Func) (i j tests : Nat) : Option BlockPos := do
  let b ← f.blocks[i]?
  let k ← b.succs[j]?
  let c ← f.blocks[k]?
  return ⟨k, c.quads, tests⟩

/-- One move over the blocks of a function. A branch that is taken goes to the first successor, a
branch that is not taken is passed and then jumps to the second. -/
def blockStep (f : Func) (os : Nat → Bool) (s : BlockPos) : Move BlockPos :=
  match s.rest with
  | [] => .to [] (f.follow? s.block 0 s.tests)
  | .jump t :: _ => .to [.jump t] (f.follow? s.block 0 s.tests)
  | .branch c t u :: _ =>
    if os s.tests then .to [.condJump c t] (f.follow? s.block 0 (s.tests + 1))
    else .to [.condJump c t, .jump u] (f.follow? s.block 1 (s.tests + 1))
  | .ret v tag :: _ => .stop (.ret v tag)
  | .funcEnd :: _ => .stop .funcEnd
  | q :: r => .on [q] { s with rest := r }

def Routine.start (r : Routine) : StreamPos := ⟨r.body ++ [.funcEnd], 0⟩

def Func.start (f : Func) : BlockPos := ⟨0, (f.blocks[0]?.map (·.quads)).getD [], 0⟩

/-! ## The simulation -/

section Simulation

variable {eqs : Equations} {f : Func} {texts : List (List Quad)} (hf : f.Built)
  (htexts : Forall₂ Block.Text f.blocks texts)

theorem follow?_eq {i j k tests : Nat} {b c : Block} (hb : f.blocks[i]? = some b)
    (hk : b.succs[j]? = some k) (hc : f.blocks[k]? = some c) :
    f.follow? i j tests = some ⟨k, c.quads, tests⟩ := by
  simp [Func.follow?, hb, hk, hc]

theorem Falls.moves {i j : Nat} {rem rem' : List Quad} (h : Falls f i rem j rem') (os : Nat → Bool)
    (k : Nat) : ∃ m, Moves (blockStep f os) m ⟨i, rem, k⟩ [] (some ⟨j, rem', k⟩) := by
  cases h with
  | stay => exact ⟨0, .refl⟩
  | next hb hs hc =>
    refine ⟨1, .single ?_⟩
    simp [blockStep, follow?_eq hb (congrArg (·[0]?) hs) hc, Move.to]

/-- The two machines are at the same place and have made the same tests. -/
def SamePlace (eqs : Equations) (f : Func) (texts : List (List Quad)) (s : StreamPos)
    (p : BlockPos) : Prop :=
  s.tests = p.tests ∧ Place eqs f texts s.rest p.block p.rest

theorem landing?_eq {whole r : List Quad} {t : Target} {n : Int} (ht : targetLabel? eqs t = some n)
    (hr : afterLabel? n whole = some r) : landing? eqs whole t = some (n, r) := by
  simp [landing?, ht, hr]

section Leaving

variable {whole : List Quad} (hwhole : StreamText eqs whole texts.flatten) {r : List Quad} {i : Nat}
  {rem : List Quad} (os : Nat → Bool) (k : Nat)

include hf htexts hwhole

theorem Place.branchStep {c : Temp} {n m : Int}
    (h : Place eqs f texts r i (.branch c (.label n) (.label m) :: rem)) :
    ∃ r1 r2 p, afterLabel? n whole = some r1 ∧ afterLabel? m whole = some r2 ∧
      blockStep f os ⟨i, .branch c (.label n) (.label m) :: rem, k⟩ =
        .on (if os k then [.condJump c (.label n)] else
          [.condJump c (.label n), .jump (.label m)]) p ∧
      SamePlace eqs f texts ⟨if os k then r1 else r2, k + 1⟩ p := by
  obtain ⟨b, j, l, cj, cl, r1, r2, hb, hs, hcj, hcl, rfl, hr1, hr2, hplace1, hplace2⟩ :=
    h.branch hf htexts hwhole
  cases hos : os k with
  | true =>
    refine ⟨r1, r2, ⟨j, cj.quads, k + 1⟩, hr1, hr2, ?_, rfl, hplace1⟩
    simp [blockStep, hos, follow?_eq hb (congrArg (·[0]?) hs) hcj, Move.to]
  | false =>
    refine ⟨r1, r2, ⟨l, cl.quads, k + 1⟩, hr1, hr2, ?_, rfl, hplace2⟩
    simp [blockStep, hos, follow?_eq hb (congrArg (·[1]?) hs) hcl, Move.to]

omit hf htexts hwhole

theorem Falls.agrees {j : Nat} {rem' qs : List Quad} {p : StreamPos} {p' : BlockPos}
    (h : Falls f i rem j rem') (hstream : streamStep eqs whole os ⟨r, k⟩ = .on qs p)
    (hstep : blockStep f os ⟨j, rem', k⟩ = .on qs p') (hsame : SamePlace eqs f texts p p') :
    Agrees (streamStep eqs whole os) (blockStep f os) (SamePlace eqs f texts) (·.rest.length)
      ⟨r, k⟩ ⟨i, rem, k⟩ := by
  obtain ⟨l, hmoves⟩ := h.moves os k
  exact ⟨1, l + 1, qs, some p, some p', Nat.one_pos, .single hstream,
    hmoves.trans (.single hstep), .going hsame, by simp⟩

theorem Falls.agrees_stop {j : Nat} {rem' : List Quad} {q : Quad} (h : Falls f i rem j rem')
    (hstream : streamStep eqs whole os ⟨r, k⟩ = .stop q)
    (hstep : blockStep f os ⟨j, rem', k⟩ = .stop q) :
    Agrees (streamStep eqs whole os) (blockStep f os) (SamePlace eqs f texts) (·.rest.length)
      ⟨r, k⟩ ⟨i, rem, k⟩ := by
  obtain ⟨l, hmoves⟩ := h.moves os k
  exact ⟨1, l + 1, [q], none, none, Nat.one_pos, .stop hstream, hmoves.trans (.stop hstep),
    .stopped, by simp⟩

theorem Place.agrees_skip {q : Quad} (h : Place eqs f texts r i rem)
    (hstep : streamStep eqs whole os ⟨q :: r, k⟩ = .on [] ⟨r, k⟩) :
    Agrees (streamStep eqs whole os) (blockStep f os) (SamePlace eqs f texts) (·.rest.length)
      ⟨q :: r, k⟩ ⟨i, rem, k⟩ :=
  ⟨1, 0, [], some ⟨r, k⟩, some ⟨i, rem, k⟩, Nat.one_pos, .single hstep, .refl, .going ⟨rfl, h⟩,
    by simp⟩

include hf htexts hwhole

/-- A test and a jump are one instruction of a block. -/
theorem Place.agrees_test {c : Temp} {t u : Target} {n m : Int} {ys : List Quad}
    (h : Place eqs f texts (.condJump c t :: .jump u :: r) i rem)
    (hts : rem ++ (texts.drop (i + 1)).flatten = .branch c (.label n) (.label m) :: ys)
    (ht : targetLabel? eqs t = some n) (hu : targetLabel? eqs u = some m) :
    Agrees (streamStep eqs whole os) (blockStep f os) (SamePlace eqs f texts) (·.rest.length)
      ⟨.condJump c t :: .jump u :: r, k⟩ ⟨i, rem, k⟩ := by
  obtain ⟨j, rem', hfalls, hplace, -⟩ := h.settle hf htexts hts (by simp)
  obtain ⟨r1, r2, p, hr1, hr2, hstep, hsame⟩ := hplace.branchStep hf htexts hwhole os k
  have htest : streamStep eqs whole os ⟨.condJump c t :: .jump u :: r, k⟩ =
      .on [.condJump c (.label n)] ⟨if os k then r1 else .jump u :: r, k + 1⟩ := by
    simp [streamStep, landing?_eq ht hr1]
  cases hos : os k with
  | true =>
    rw [hos] at hstep hsame htest
    exact hfalls.agrees os k htest hstep hsame
  | false =>
    rw [hos] at hstep hsame htest
    have hjump : streamStep eqs whole os ⟨.jump u :: r, k + 1⟩ =
        .on [.jump (.label m)] ⟨r2, k + 1⟩ := by
      simp [streamStep, landing?_eq hu hr2]
    obtain ⟨l, hmoves⟩ := hfalls.moves os k
    exact ⟨2, l + 1, _, _, _, Nat.two_pos, .on htest (.single hjump),
      hmoves.trans (.single hstep), .going hsame, by simp⟩

/-- One step of the simulation: wherever the machines are at the same place they meet the same
instructions and come to the same place again. -/
theorem Place.agrees (h : Place eqs f texts r i rem) :
    Agrees (streamStep eqs whole os) (blockStep f os) (SamePlace eqs f texts) (·.rest.length)
      ⟨r, k⟩ ⟨i, rem, k⟩ := by
  have htext := h.text
  generalize hts : rem ++ (texts.drop (i + 1)).flatten = ts at htext
  cases htext with
  | done =>
    obtain ⟨j, rem', hfalls, -, -⟩ := h.settle hf htexts hts (by simp)
    exact hfalls.agrees_stop os k rfl rfl
  | patch hr => exact Place.agrees_skip os k ⟨hts.symm ▸ hr, h.block⟩ rfl
  | @decl q r _ hq hr =>
    have hstep : streamStep eqs whole os ⟨q :: r, k⟩ = .on [] ⟨r, k⟩ := by
      cases q with
      | formalDecl | localDecl => rfl
      | _ => cases hq
    exact Place.agrees_skip os k ⟨hts.symm ▸ hr, h.block⟩ hstep
  | test ht hu hr => exact h.agrees_test hf htexts hwhole os k hts ht hu
  | @next q x r _ hfuse hdecl hx hr =>
    cases q with
    | condJump | funcBegin | funcEnd | globalDecl | patch => simp [fuse?] at hfuse
    | formalDecl | localDecl => cases hdecl
    | label n =>
      cases hx
      obtain ⟨j, rem', hfalls, hplace⟩ := h.label hf htexts hts hr
      obtain ⟨m, hmoves⟩ := hfalls.moves os k
      exact ⟨1, m, [], _, _, Nat.one_pos, .single rfl, hmoves, .going ⟨rfl, hplace⟩, by simp⟩
    | jump t =>
      simp only [Quad.resolve?, bind, Option.bind_eq_some_iff] at hx
      obtain ⟨n, hn, hx⟩ := hx
      cases hx
      obtain ⟨j, rem', hfalls, hplace, -⟩ := h.settle hf htexts hts (by simp)
      obtain ⟨b, t', c, r', hb, hs, hc, rfl, hr', hplace'⟩ := hplace.jump hf htexts hwhole
      have hstep : blockStep f os ⟨j, [.jump (.label n)], k⟩ =
          .on [.jump (.label n)] ⟨t', c.quads, k⟩ := by
        simp [blockStep, follow?_eq hb (congrArg (·[0]?) hs) hc, Move.to]
      have hjump : streamStep eqs whole os ⟨.jump t :: r, k⟩ = .on [.jump (.label n)] ⟨r', k⟩ := by
        simp [streamStep, landing?_eq hn hr']
      exact hfalls.agrees os k hjump hstep ⟨rfl, hplace'⟩
    | branch c t u =>
      simp only [Quad.resolve?, bind, Option.bind_eq_some_iff] at hx
      obtain ⟨n, hn, m, hm, hx⟩ := hx
      cases hx
      obtain ⟨j, rem', hfalls, hplace, -⟩ := h.settle hf htexts hts (by simp)
      obtain ⟨r1, r2, p, hr1, hr2, hstep, hsame⟩ := hplace.branchStep hf htexts hwhole os k
      have htest : streamStep eqs whole os ⟨.branch c t u :: r, k⟩ =
          .on (if os k then [.condJump c (.label n)] else
            [.condJump c (.label n), .jump (.label m)]) ⟨if os k then r1 else r2, k + 1⟩ := by
        simp only [streamStep, landing?_eq hn hr1, landing?_eq hm hr2]
        split <;> rfl
      exact hfalls.agrees os k htest hstep hsame
    | ret v tag =>
      cases hx
      obtain ⟨j, rem', hfalls, -, -⟩ := h.settle hf htexts hts (by simp)
      exact hfalls.agrees_stop os k rfl rfl
    | _ =>
      cases hx
      obtain ⟨j, rem', hfalls, hplace⟩ := h.pass hf htexts hts hr rfl (by simp)
      exact hfalls.agrees os k rfl rfl ⟨rfl, hplace⟩

end Leaving

end Simulation

/-- The stream of a function and its graph have the same course, however the tests turn out. -/
theorem same_course_of_build {code : List Quad} {g : Graph} (h : build code = .ok g) :
    List.Forall₂ (fun r f => ∀ os : Nat → Bool,
      SameCourse (streamStep (code.filterMap Quad.equation?) (r.body ++ [.funcEnd]) os) r.start
        (blockStep f os) f.start) (routines code) g.funcs := by
  refine (builds_of_build h).2.imp fun r f hr os => ?_
  have hf := built_of_builds hr
  obtain ⟨texts, htexts, qs, hqs, hres⟩ := (keeps_of_builds hr).text
  have hwhole := streamText_of_fuse? hqs hres
  have hagrees : ∀ s p, SamePlace (code.filterMap Quad.equation?) f texts s p →
      Agrees (streamStep (code.filterMap Quad.equation?) (r.body ++ [.funcEnd]) os) (blockStep f os)
        (SamePlace (code.filterMap Quad.equation?) f texts) (·.rest.length) s p := by
    rintro ⟨r', k⟩ ⟨i, rem, k'⟩ ⟨htests, hplace⟩
    obtain rfl : k = k' := htests
    exact hplace.agrees hf htexts hwhole os k
  obtain ⟨b, hb, hplace⟩ := place_start htexts hf hwhole
  have hstart : f.start = ⟨0, b.quads, 0⟩ := by simp [Func.start, hb]
  rw [hstart]
  exact sameCourse_of_agrees hagrees ⟨rfl, hplace⟩

def rounds : List Quad :=
  [.funcBegin "f" .int, .formalDecl ⟨"n", .int, 4⟩, .label 1, .ref ⟨1⟩ .param "n" 0,
    .load ⟨2⟩ ⟨1⟩ .int, .condJump ⟨2⟩ (.blank 1), .jump (.label 3), .patch 1 2, .label 2,
    .stmtBegin 4, .jump (.label 1), .label 2, .label 3, .ret (some ⟨2⟩) .int, .funcEnd]

def roundsGraph : Graph where
  globals := []
  funcs :=
    [⟨"f", .int, [⟨"n", .int, 4⟩], [], [⟨"entry", [], [1], some 1⟩,
      ⟨"L1", [.ref ⟨1⟩ .param "n" 0, .load ⟨2⟩ ⟨1⟩ .int, .branch ⟨2⟩ (.label 2) (.label 3)], [2, 4],
        some 2⟩,
      ⟨"L2", [.stmtBegin 4, .jump (.label 1)], [1], some 3⟩, ⟨"L2", [], [4], some 4⟩,
      ⟨"L3", [.ret (some ⟨2⟩) .int], [], some 5⟩, ⟨"bb1", [.funcEnd], [], none⟩]⟩]

theorem rounds_same_course : build rounds = .ok roundsGraph ∧
    List.Forall₂ (fun r f => ∀ os : Nat → Bool,
      SameCourse (streamStep [(1, 2)] (r.body ++ [.funcEnd]) os) r.start (blockStep f os) f.start)
      (routines rounds) roundsGraph.funcs := by
  have hbuild : build rounds = .ok roundsGraph := by decide +kernel
  exact ⟨hbuild, same_course_of_build hbuild⟩

end Quadruple.Flow
