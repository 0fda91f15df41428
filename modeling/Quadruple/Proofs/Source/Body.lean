import Quadruple.Proofs.Source.Operations

/-!
# Bodies of functions

Main statements: `Expr.emit_typed`, `Cond.emit_typed` and `Stmt.emit_typed`. The emission of typed
expressions, conditions and statements keeps the invariant of a function: the code is checked and no
error is reported.
-/

namespace Quadruple.Source

open List hiding merge
open Emit
open Symbols (Entry EntryId Table)

variable {α β : Type} {c : Frame} {a b d : Spot} {K : Kinds} {s : State} {x : EmitM α}

/-! ## Expressions -/

theorem Inv.rebase (h : Inv c a K s) : Inv c { a with rows := s.rows } K s :=
  ⟨h.code, h.fresh, h.errors, h.table, h.depth, h.declared, ⟨le_rfl, fun _ _ => rfl⟩, h.func⟩

theorem Inv.restore {K' : Kinds} {s' : State} (h : Inv c a K s)
    (h' : Inv c { a with rows := s.rows } K' s') : Inv c a K' s' :=
  ⟨h'.code, h'.fresh, h'.errors, h'.table, h'.depth, h'.declared,
    ⟨le_trans h.rows.1 h'.rows.1, fun i hi =>
      (h'.rows.2 i (hi.trans_le h.rows.1)).trans (h.rows.2 i hi)⟩, h'.func⟩

mutual

theorem Expr.emit_typed : ∀ (x : Expr) {ty : Ty} {a : Spot} {K : Kinds} {s : State},
    x.HasTy c.names ty → Inv c a K s → Gets c a x.emit K s fun v K' => HasValue K' v ty
  | .const text, ty, a, K, s, hx, h => gets_constant h hx
  | .string text, ty, a, K, s, hx, h => hx.elim
  | .read name, ty, a, K, s, hx, h => (gets_scalar h hx).bind fun v K1 s1 h1 _ hv => gets_read h1 hv
  | .readAt name index, ty, a, K, s, ⟨harray, t, hindex⟩, h =>
    (gets_array h harray).bind fun v K1 s1 h1 _ hv =>
      (index.emit_typed hindex h1).bind fun i K2 s2 h2 hle2 hi =>
        (gets_element h2 (hv.mono hle2) hi).bind fun w K3 s3 h3 _ hw => gets_read h3 hw
  | .unary .negate x, ty, a, K, s, hx, h =>
    (x.emit_typed hx h).bind fun v K1 s1 h1 _ hv => gets_negate h1 hv
  | .unary .complement x, _, a, K, s, ⟨rfl, t, hx⟩, h =>
    (x.emit_typed hx h).bind fun v K1 s1 h1 _ hv => gets_complement h1 hv
  | .arith op x y, _, a, K, s, ⟨t, u, hx, hy, rfl, hrem⟩, h =>
    (x.emit_typed hx h).bind fun v K1 s1 h1 _ hv =>
      (y.emit_typed hy h1).bind fun w K2 s2 h2 hle2 hw => gets_arithOp op h2 (hv.mono hle2) hw hrem
  | .bitwise op x y, _, a, K, s, ⟨rfl, t, u, hx, hy⟩, h =>
    (x.emit_typed hx h).bind fun v K1 s1 h1 _ hv =>
      (y.emit_typed hy h1).bind fun w K2 s2 h2 hle2 hw => gets_bitwiseOp op h2 (hv.mono hle2) hw
  | .cast target x, _, a, K, s, ⟨rfl, t, hx⟩, h =>
    (x.emit_typed hx h).bind fun v K1 s1 h1 _ hv => gets_cast h1 hv _
  | .call name args, _, a, K, s, ⟨sig, hsig, rfl, hn, hargs⟩, h => by
    have hempty : Lists a K s .empty 0 := rfl
    refine ensures_bind.2 ((emitArgs_typed args hargs h hempty).mono ?_)
    rintro l s1 ⟨K1, h1, hle1, hl⟩
    rw [zero_add] at hl
    exact Ensures.mono (gets_call h1 hl hsig hn) fun v s2 ⟨K2, h2, hle2, hv⟩ =>
      ⟨K2, h2, hle1.trans hle2, hv⟩

theorem emitArgs_typed : ∀ (xs : List Expr) {l : ArgList} {n : Nat} {a : Spot} {K : Kinds}
    {s : State}, Expr.AreArgs c.names xs → Inv c a K s → Lists a K s l n →
      Ensures (emitArgs l xs) s fun l' s' =>
        ∃ K', Inv c a K' s' ∧ K.Le K' ∧ Lists a K' s' l' (n + xs.length)
  | [], l, n, a, K, s, _, h, hl => ensures_pure.2 ⟨K, h, .refl K, hl⟩
  | x :: xs, l, n, a, K, s, ⟨hx, hxs⟩, h, hl => by
    have hx' : Gets c { a with rows := s.rows } x.emit K s fun v K' => ∃ k, K' v.place = some k := by
      rcases hx with ⟨t, hx⟩ | ⟨text, rfl⟩ | ⟨name, t, rfl, harray⟩
      · exact (x.emit_typed hx h.rebase).mono fun v K' hv => ⟨_, hv.1⟩
      · exact (gets_stringLiteral h.rebase text).mono fun v K' hv => ⟨_, hv⟩
      · refine Gets.mono ((gets_array h.rebase harray).bind fun v K1 s1 h1 _ hv =>
          gets_whole h1 hv) fun v K' hv => ⟨_, hv⟩
    refine ensures_bind.2 (Ensures.mono hx' ?_)
    rintro v s1 ⟨K1, h1, hle1, k, hk⟩
    have hl1 := hl.keep hle1 h1.rows.2
    refine ensures_bind.2 ((ensures_appendArg (h.restore h1) hl1 hk).mono ?_)
    rintro l' s2 ⟨h2, hl2⟩
    refine (emitArgs_typed xs hxs h2 hl2).mono ?_
    rintro l'' s3 ⟨K3, h3, hle3, hl3⟩
    refine ⟨K3, h3, hle1.trans hle3, ?_⟩
    rwa [length_cons, add_comm xs.length, ← add_assoc]

end

/-! ## Operations without a result -/

/-- From a state where the invariant holds at `a`, the operation goes to one where it holds at
`b`. -/
def Passes (c : Frame) (a b : Spot) (x : EmitM α) : Prop :=
  ∀ K s, Inv c a K s → Ensures x s fun _ s' => ∃ K', Inv c b K' s'

theorem Passes.bind {f : α → EmitM β} (hx : Passes c a b x) (hf : ∀ v, Passes c b d (f v)) :
    Passes c a d (x >>= f) := fun K s h =>
  ensures_bind.2 ((hx K s h).mono fun v s' ⟨K', h'⟩ => hf v K' s' h')

theorem passes_of_gets {Q : α → Kinds → Prop} (h : ∀ K s, Inv c a K s → Gets c a x K s Q) :
    Passes c a a x := fun K s hs =>
  Ensures.mono (h K s hs) fun _ _ ⟨K', h', _⟩ => ⟨K', h'⟩

theorem passes_pure (v : α) : Passes c a a (pure v) := fun K _ h => ensures_pure.2 ⟨K, h⟩

theorem passes_get : Passes c a a get := fun K _ h => ensures_get.2 ⟨K, h⟩

theorem passes_throw (e : Fault) : Passes c a b (throw e : EmitM α) := fun _ _ _ => ensures_throw

theorem passes_modify {f : State → State} (hf : ∀ s, sight (f s) = sight s) :
    Passes c a a (modify f) := fun K s h => ensures_modify.2 ⟨K, h.congr (hf s)⟩

theorem passes_modifyGet {f : State → α × State} (hf : ∀ s, sight (f s).2 = sight s) :
    Passes c a a (modifyGet f) := fun K s h => ensures_modifyGet.2 ⟨K, h.congr (hf s)⟩

theorem passes_emit {q : Quad} (hq : ∀ Γ K, Gives Γ K q none) : Passes c a a (emit q) :=
  passes_of_gets fun _ _ h => gets_emit h (hq _ _)

theorem passes_ite {p : Prop} [Decidable p] {y : EmitM α} (hx : Passes c a b x)
    (hy : Passes c a b y) : Passes c a b (if p then x else y) := by
  split
  · exact hx
  · exact hy

theorem passes_forM {f : β → EmitM PUnit} (hf : ∀ v, Passes c a a (f v)) (vs : List β) :
    Passes c a a (vs.forM f) := by
  induction vs with
  | nil => exact passes_pure _
  | cons v vs ih => exact (hf v).bind fun _ => ih

theorem passes_recorded (hx : Passes c a b x) : Passes c a b (recorded x) :=
  passes_get.bind fun _ => hx.bind fun _ => passes_get.bind fun _ => passes_pure _

/-! ## Marks, jumps and chains -/

theorem passes_newBlank : Passes c a a newBlank := passes_modifyGet fun _ => rfl

theorem passes_single (n : Nat) : Passes c a a (single n) := passes_modifyGet fun _ => rfl

theorem passes_unmark : Passes c a a unmark := passes_modify fun _ => rfl

theorem passes_mark : Passes c a a mark := by
  intro K s h
  simp only [mark, emit, ensures_bind, ensures_get]
  split
  · exact ensures_pure.2 ⟨K, h⟩
  · simp only [ensures_bind, ensures_set, ensures_modify, ensures_pure]
    exact ⟨K, Inv.congr (h.pass (.label (s.labels + 1 : Nat)) true) rfl⟩

theorem passes_jumpAhead : Passes c a a jumpAhead :=
  passes_newBlank.bind fun n => (passes_emit fun _ _ => .jump _).bind fun _ => passes_single n

theorem passes_merge (x y : Chain) : Passes c a a (merge x y) := by
  unfold merge
  split
  · exact passes_pure _
  · exact passes_pure _
  · exact passes_modifyGet fun _ => rfl

theorem passes_patch (n : Nat) (label : Int) : Passes c a a (patch n label) := by
  refine passes_get.bind fun s => ?_
  split
  · exact passes_throw _
  · refine Passes.bind (passes_modify ?_) fun _ => passes_emit fun _ _ => .patch _ _
    exact fun _ => rfl

theorem passes_resolveFrom (label : Int) (fuel : Nat) (link : Option Nat) :
    Passes c a a (resolveFrom label fuel link) := by
  induction fuel generalizing link with
  | zero => exact passes_pure _
  | succ fuel ih =>
    cases link with
    | none => exact passes_pure _
    | some i =>
      refine passes_get.bind fun s => ?_
      split
      · exact (passes_patch _ _).bind fun _ => ih _
      · exact passes_pure _

theorem passes_resolve (x : Chain) (label : Int) : Passes c a a (resolve x label) :=
  passes_get.bind fun _ => passes_resolveFrom _ _ _

theorem passes_both (x : Value) (m : Int) (y : Value) : Passes c a a (both x m y) :=
  passes_unmark.bind fun _ => (passes_resolve _ _).bind fun _ => (passes_merge _ _).bind fun _ =>
    passes_pure _

theorem passes_either (x : Value) (m : Int) (y : Value) : Passes c a a (either x m y) :=
  passes_unmark.bind fun _ => (passes_resolve _ _).bind fun _ => (passes_merge _ _).bind fun _ =>
    passes_pure _

theorem passes_negated (x : Value) : Passes c a a (negated x) :=
  passes_unmark.bind fun _ => passes_pure _

theorem passes_beginStmt (line : Int) : Passes c a a (beginStmt line) := by
  refine Passes.bind (passes_modify ?_) fun _ => passes_emit fun _ _ => .stmtBegin _
  exact fun _ => rfl

/-! ## Loops -/

def Spot.inner (a : Spot) : Spot := { a with depth := a.depth + 1 }

theorem passes_openLoop : Passes c a a.inner openLoop := by
  intro K s h
  simp only [openLoop, enterScope, ensures_bind, ensures_get]
  split
  · exact ensures_throw
  · simp only [ensures_bind, ensures_modify]
    exact ⟨K, h.code, h.fresh, h.errors, h.table.enter, by simp [h.depth, Spot.inner], h.declared,
      h.rows, h.func⟩

theorem passes_endLoop : Passes c a.inner a endLoop := by
  intro K s h
  have hdepth : s.loops.length = a.depth + 1 := h.depth
  simp only [endLoop, leaveScope, ensures_bind, ensures_get]
  split
  · exact ensures_throw
  · next scope outer hloops =>
    simp only [ensures_bind, ensures_modify]
    exact ⟨K, h.code, h.fresh, h.errors, h.table.leave, by simpa [hloops] using hdepth, h.declared,
      h.rows, h.func⟩

theorem passes_innermost : Passes c a a innermost := by
  refine passes_get.bind fun s => ?_
  split
  · exact passes_pure _
  · exact passes_throw _

theorem passes_closeLoop (onContinue onBreak : Int) :
    Passes c a.inner a (closeLoop onContinue onBreak) :=
  passes_innermost.bind fun _ => (passes_resolve _ _).bind fun _ =>
    (passes_resolve _ _).bind fun _ => passes_endLoop

theorem passes_setInnermost (f : LoopScope → LoopScope) : Passes c a a (setInnermost f) := by
  refine passes_modify fun s => ?_
  cases hloops : s.loops <;> simp [sight, hloops]

theorem passes_exit (pick : LoopScope → Chain) (put : Chain → LoopScope → LoopScope)
    {n : Notice} (hin : 0 < a.depth) : Passes c a a (do
      match (← get).loops with
      | [] => error n
      | scope :: _ =>
        let x ← merge (pick scope) (← jumpAhead)
        setInnermost (put x)) := by
  intro K s h
  rw [ensures_bind, ensures_get]
  cases hloops : s.loops with
  | nil =>
    have hdepth := h.depth
    rw [hloops] at hdepth
    exact absurd hin (by simp [← hdepth])
  | cons scope outer =>
    exact (passes_jumpAhead.bind fun _ => (passes_merge _ _).bind fun _ =>
      passes_setInnermost _) K s h

theorem passes_breakStmt (hin : 0 < a.depth) : Passes c a a breakStmt :=
  passes_exit (·.onBreak) (fun x scope => { scope with onBreak := x }) hin

theorem passes_continueStmt (hin : 0 < a.depth) : Passes c a a continueStmt :=
  passes_exit (·.onContinue) (fun x scope => { scope with onContinue := x }) hin

/-! ## Labels and returns -/

theorem passes_pendingFor (name : String) : Passes c a a (pendingFor name) := by
  intro K s h
  simp only [pendingFor, ensures_bind, ensures_get]
  split
  · exact ensures_pure.2 ⟨K, h⟩
  · split
    · exact ensures_throw
    · simp only [ensures_bind, ensures_set, ensures_pure]
      exact ⟨K, h.congr rfl⟩

theorem passes_setPending (name : String) (f : PendingLabel → PendingLabel) :
    Passes c a a (setPending name f) := passes_modify fun _ => rfl

theorem passes_gotoStmt (name : String) : Passes c a a (gotoStmt name) := by
  refine passes_get.bind fun s => ?_
  split
  · exact passes_emit fun _ _ => .jump _
  · refine passes_newBlank.bind fun n => (passes_emit fun _ _ => .jump _).bind fun _ => ?_
    refine (passes_pendingFor name).bind fun _ => passes_get.bind fun _ => ?_
    exact passes_ite (passes_throw _) (passes_setPending _ _)

def Spot.past (a : Spot) (labels : List String) : Spot :=
  { a with declared := a.declared ++ labels }

theorem passes_labelStmt {name : String} (hnew : name ∉ a.declared) :
    Passes c a (a.past [name]) (labelStmt name) := by
  intro K s h
  have hnone : (s.declared.lookup name).isSome = false :=
    Bool.eq_false_iff.2 fun hsome => hnew (h.declared name hsome)
  rw [labelStmt, ensures_bind, ensures_get, hnone]
  -- behind the mark the label is declared, and nothing else changes
  have hdeclare : ∀ l, Passes c a (a.past [name])
      (modify fun s => { s with declared := (name, l) :: s.declared }) := by
    refine fun l K s h => ensures_modify.2 ⟨K, h.code, h.fresh, h.errors, h.table, h.depth,
      fun n hn => ?_, h.rows, h.func⟩
    by_cases hname : n = name
    · simp [Spot.past, hname]
    · rw [lookup_cons, beq_false_of_ne hname] at hn
      exact mem_append_left _ (h.declared n hn)
  refine (passes_mark.bind fun l => passes_unmark.bind fun _ => (hdeclare l).bind fun _ =>
    passes_get.bind fun _ => ?_) K s h
  split
  · exact (passes_forM (fun _ => passes_patch _ _) _).bind fun _ => passes_setPending _ _
  · exact passes_pure _

theorem passes_returnStmt {v : Option Value} (h : Inv c a K s) (hv : ∀ x ∈ v, ∃ t, HasValue K x t) :
    Ensures (returnStmt v) s fun _ s' => ∃ K', Inv c a K' s' := by
  obtain ⟨howner, htag⟩ := c.owner
  have htag' : (s.table.entry c.func).tag.base = c.ret.tag := by
    rw [h.table.entry _ howner, htag, base_tag]
  simp only [returnStmt, ensures_bind, ensures_get, h.func, ensures_getEntry, htag']
  cases v with
  | none => exact ensures_modify.2 ⟨K, h.pass (.ret (by simp)) _⟩
  | some x =>
    obtain ⟨t, hx⟩ := hv x rfl
    have hret : ∀ {w : Value} {t : Ty} {K : Kinds} {s : State}, Inv c a K s → HasValue K w t →
        Ensures (emit (.ret (some w.place) c.ret.tag)) s fun _ s' => ∃ K', Inv c a K' s' :=
      fun h hw => ensures_modify.2 ⟨_, h.pass (.ret (by simpa using ⟨_, hw.1⟩)) _⟩
    dsimp only
    split
    · exact ensures_bind.2 (ensures_pure.2 (hret h hx))
    · refine ensures_bind.2 (Ensures.mono (gets_cast h hx c.ret) ?_)
      rintro w s1 ⟨K1, h1, -, hw⟩
      exact hret h1 hw

theorem passes_emitReturn {v : Option Expr} (hv : ∀ x ∈ v, ∃ t, x.HasTy c.names t) :
    Passes c a a (emitReturn v) := by
  intro K s h
  cases v with
  | none => exact passes_returnStmt (v := none) h (by simp)
  | some x =>
    obtain ⟨t, hx⟩ := hv x rfl
    refine ensures_bind.2 (Ensures.mono (x.emit_typed hx h) ?_)
    rintro w s1 ⟨K1, h1, -, hw⟩
    exact passes_returnStmt (v := some w) h1 (by simpa using ⟨t, hw⟩)

/-! ## Actions and conditions -/

theorem Place.emit_typed {x : Place} {ty : Ty} (hx : x.HasTy c.names ty) (h : Inv c a K s) :
    Gets c a x.emit K s fun v K' => HasPlace K' v ty := by
  cases x with
  | var name => exact gets_scalar h hx
  | element name index =>
    obtain ⟨harray, t, hindex⟩ := hx
    refine (gets_array h harray).bind fun v K1 s1 h1 _ hv => ?_
    refine (index.emit_typed hindex h1).bind fun i K2 s2 h2 hle2 hi => ?_
    exact gets_element h2 (hv.mono hle2) hi

theorem Action.emit_typed {x : Action} (hx : x.Typed c.names) : Passes c a a x.emit := by
  refine passes_of_gets (Q := fun _ _ => True) fun K s h => ?_
  cases x with
  | assign op x y =>
    obtain ⟨t, u, hx, hy, hrem⟩ := hx
    refine (x.emit_typed hx h).bind fun v K1 s1 h1 _ hv => ?_
    refine (y.emit_typed hy h1).bind fun w K2 s2 h2 hle2 hw => ?_
    exact (gets_assign op h2 (hv.mono hle2) hw hrem).bind fun _ K3 s3 h3 _ _ => gets_pure h3 trivial
  | eval x =>
    obtain ⟨t, hx⟩ := hx
    exact (x.emit_typed hx h).bind fun _ K1 s1 h1 _ _ => gets_pure h1 trivial

theorem passes_emitActions {as : List Action} (has : ∀ x ∈ as, x.Typed c.names) :
    Passes c a a (emitActions as) := by
  have hall : Passes c a a (as.forM Action.emit) := by
    induction as with
    | nil => exact passes_pure _
    | cons x as ih =>
      obtain ⟨hx, has⟩ := forall_mem_cons.1 has
      exact (Action.emit_typed hx).bind fun _ => ih has
  exact (passes_recorded hall).bind fun _ => passes_pure _

theorem Test.emit_typed {x : Test} (hx : x.Typed c.names) : Passes c a a x.emit := by
  refine passes_of_gets (Q := fun _ _ => True) fun K s h => ?_
  cases x with
  | compare op x y =>
    obtain ⟨t, u, hx, hy⟩ := hx
    refine (x.emit_typed hx h).bind fun v K1 s1 h1 _ hv => ?_
    exact (y.emit_typed hy h1).bind fun w K2 s2 h2 hle2 hw => gets_relation op h2 (hv.mono hle2) hw
  | nonzero x =>
    obtain ⟨t, hx⟩ := hx
    exact (x.emit_typed hx h).bind fun v K1 s1 h1 _ hv => gets_condition h1 hv

theorem Cond.emit_typed {x : Cond Test} (hx : x.Typed c.names) : Passes c a a x.emit := by
  induction x with
  | test t => exact (passes_recorded (Test.emit_typed hx)).bind fun _ => passes_pure _
  | both x y ihx ihy =>
    exact (ihx hx.1).bind fun _ => passes_mark.bind fun _ => (ihy hx.2).bind fun _ =>
      (passes_both _ _ _).bind fun _ => passes_pure _
  | either x y ihx ihy =>
    exact (ihx hx.1).bind fun _ => passes_mark.bind fun _ => (ihy hx.2).bind fun _ =>
      (passes_either _ _ _).bind fun _ => passes_pure _
  | not x ih => exact (ih hx).bind fun _ => (passes_negated _).bind fun _ => passes_pure _

/-! ## Statements -/

@[simp]
theorem Spot.past_nil (a : Spot) : a.past [] = a := by simp [past]

@[simp]
theorem Spot.past_past (a : Spot) (xs ys : List String) :
    (a.past xs).past ys = a.past (xs ++ ys) := by simp [past]

theorem Passes.stays (h : Passes c a a x) : Passes c a (a.past []) x := by
  rwa [Spot.past_nil]

/-- A typed statement whose labels are new and whose `break`s and `continue`s are in loops. -/
theorem Stmt.emit_typed (x : Code) (hx : x.Typed c.names) (hin : x.Enclosed (0 < a.depth))
    (hl : (a.declared ++ x.labels).Nodup) : Passes c a (a.past x.labels) x.emit := by
  induction x generalizing a with
  | act as => exact Passes.stays ((passes_emitActions hx).bind fun _ => passes_pure _)
  | line n => exact Passes.stays ((passes_beginStmt n).bind fun _ => passes_pure _)
  | seq x y ihx ihy =>
    simp only [Stmt.labels] at hl ⊢
    rw [← append_assoc] at hl
    rw [← Spot.past_past]
    refine (ihx hx.1 hin.1 (nodup_append.1 hl).1).bind fun _ => ?_
    exact (ihy (a := a.past x.labels) hx.2 hin.2 hl).bind fun _ => passes_pure _
  | ifThen p x ih =>
    refine (Cond.emit_typed hx.1).bind fun v => passes_mark.bind fun _ => ?_
    refine (ih hx.2 hin hl).bind fun _ => passes_mark.bind fun _ => ?_
    exact Passes.bind ((passes_resolve _ _).bind fun _ => passes_resolve _ _) fun _ => passes_pure _
  | ifElse p x y ihx ihy =>
    simp only [Stmt.labels] at hl ⊢
    rw [← append_assoc] at hl
    rw [← Spot.past_past]
    refine (Cond.emit_typed hx.1).bind fun v => passes_mark.bind fun _ => ?_
    refine (ihx hx.2.1 hin.1 (nodup_append.1 hl).1).bind fun _ => ?_
    refine passes_jumpAhead.bind fun _ => passes_mark.bind fun _ => ?_
    refine (ihy (a := a.past x.labels) hx.2.2 hin.2 hl).bind fun _ => passes_mark.bind fun _ => ?_
    exact Passes.bind ((passes_resolve _ _).bind fun _ => (passes_resolve _ _).bind fun _ =>
      passes_resolve _ _) fun _ => passes_pure _
  | «while» p x ih =>
    have hbody : Passes c a.inner (a.past x.labels).inner x.emit :=
      ih hx.2 (by simpa [Spot.inner] using hin) hl
    refine passes_openLoop.bind fun _ => passes_mark.bind fun _ => ?_
    refine (Cond.emit_typed hx.1).bind fun v => passes_mark.bind fun _ => ?_
    refine hbody.bind fun _ => passes_jumpAhead.bind fun _ => passes_mark.bind fun _ => ?_
    exact Passes.bind ((passes_resolve _ _).bind fun _ => (passes_resolve _ _).bind fun _ =>
      (passes_resolve _ _).bind fun _ => passes_closeLoop _ _) fun _ => passes_pure _
  | doWhile x p ih =>
    have hbody : Passes c a.inner (a.past x.labels).inner x.emit :=
      ih hx.2 (by simpa [Spot.inner] using hin) hl
    refine passes_openLoop.bind fun _ => passes_mark.bind fun _ => hbody.bind fun _ => ?_
    refine passes_mark.bind fun _ => (Cond.emit_typed hx.1).bind fun v => ?_
    exact passes_mark.bind fun _ => Passes.bind ((passes_resolve _ _).bind fun _ =>
      (passes_resolve _ _).bind fun _ => passes_closeLoop _ _) fun _ => passes_pure _
  | «for» init p step x ih =>
    have hbody : Passes c a.inner (a.past x.labels).inner x.emit :=
      ih hx.2.2.2 (by simpa [Spot.inner] using hin) hl
    refine passes_openLoop.bind fun _ => (passes_emitActions hx.1).bind fun _ => ?_
    refine passes_mark.bind fun _ => (Cond.emit_typed hx.2.1).bind fun v => ?_
    refine passes_mark.bind fun _ => (passes_emitActions hx.2.2.1).bind fun _ => ?_
    refine passes_jumpAhead.bind fun _ => passes_mark.bind fun _ => hbody.bind fun _ => ?_
    refine passes_jumpAhead.bind fun _ => passes_mark.bind fun _ => ?_
    exact Passes.bind ((passes_resolve _ _).bind fun _ => (passes_resolve _ _).bind fun _ =>
      (passes_resolve _ _).bind fun _ => (passes_resolve _ _).bind fun _ => passes_closeLoop _ _)
      fun _ => passes_pure _
  | «break» => exact Passes.stays ((passes_breakStmt hin).bind fun _ => passes_pure _)
  | «continue» => exact Passes.stays ((passes_continueStmt hin).bind fun _ => passes_pure _)
  | goto name => exact Passes.stays ((passes_gotoStmt name).bind fun _ => passes_pure _)
  | label name =>
    have hnew : name ∉ a.declared := fun hm =>
      (nodup_append.1 hl).2.2 name hm name mem_cons_self rfl
    exact (passes_labelStmt hnew).bind fun _ => passes_pure _
  | ret v =>
    exact Passes.stays ((passes_recorded (passes_emitReturn hx)).bind fun _ => passes_pure _)

end Quadruple.Source
