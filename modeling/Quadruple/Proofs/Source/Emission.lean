import Quadruple.Proofs.Emit.Goto

/-!
# Emission of conditions and statements

The code of a condition or statement lies in the body as `Placed` says: whatever follows it in the
finished body, and wherever its open blanks lead.

Main statement: `Cond.emit_ready`.
-/

namespace Quadruple.Source

open List
open Emit
open Quadruple.Flow (Equations Reach Leads)

/-! ## Where open blanks lead -/

def Settles (eqs : Equations) (body : List Quad) : Prop :=
  ∀ b n, Quad.patch b n ∈ body → eqs.lookup b = some n

def Lands (eqs : Equations) (body : List Quad) (b : Nat) (r : List Quad) : Prop :=
  ∃ r1, Leads eqs body (.blank b) r1 ∧ Goes eqs body r1 r

variable {eqs : Equations} {body r : List Quad} {b : Nat} {s : State} {o : Outline}

variable {inv qs seg : List Quad} {n m : Int} {α : Type} {bs ts fs : List Nat}
  {c d : Cond (List Event)}

theorem goes_silent (h : ∀ q ∈ inv, q.isStraight = true ∧ q.events = [])
    (r : List Quad) : Goes eqs body (inv ++ r) r := by
  induction inv with
  | nil => exact .refl r
  | cons q inv ih =>
    obtain ⟨⟨hq, he⟩, hinv⟩ := forall_mem_cons.1 h
    intro os
    have hstep := Reach.straight hq (ih hinv os)
    rwa [he] at hstep

theorem goes_marks (h : ∀ q ∈ inv, keepsMark q = true) (r : List Quad) :
    Goes eqs body (inv ++ r) r := by
  refine goes_silent (fun q hq => ?_) r
  have hk := h q hq
  cases q with
  | label | patch | stmtBegin => exact ⟨rfl, rfl⟩
  | _ => cases hk

theorem carries_plain (h : ∀ q ∈ qs, q.isPlain = true) (r : List Quad) :
    Carries eqs body (qs ++ r) (qs.flatMap Quad.events) r := by
  induction qs with
  | nil => exact Goes.refl r
  | cons q qs ih =>
    obtain ⟨hq, hqs⟩ := forall_mem_cons.1 h
    have hstraight : q.isStraight = true := by
      cases q with
      | condJump | jump | branch | ret | funcEnd => cases hq
      | _ => rfl
    exact fun os => Reach.straight hstraight (ih hqs os)

theorem lands_of_marks (h : Marks body n r) (hr : Settles eqs body)
    (hb : Quad.patch b n ∈ body) : Lands eqs body b r := by
  obtain ⟨pre, inv, hbody, hpre, hinv⟩ := h
  exact ⟨inv ++ r, ⟨n, pre, hr b n hb, hbody, hpre⟩, goes_marks hinv r⟩

theorem Lands.jump (h : Lands eqs body b r) (rest : List Quad) :
    Goes eqs body (.jump (.blank b) :: rest) r := by
  obtain ⟨r1, hl, hg⟩ := h
  exact fun os => .jump hl (hg os)

theorem Lands.goes {r' : List Quad} (h : Lands eqs body b r) (hr : Goes eqs body r r') :
    Lands eqs body b r' := by
  obtain ⟨r1, hl, hg⟩ := h
  exact ⟨r1, hl, hg.trans hr⟩

/-! ## Expressions and actions -/

mutual

theorem Expr.plain : ∀ x : Expr, Plain x.emit
  | .const text => plain_constant text
  | .string text => plain_stringLiteral text
  | .read name => (plain_variableRef name).bind fun _ => plain_unaryOp (by simp) _
  | .readAt name index => (plain_variableRef name).bind fun _ => index.plain.bind fun _ =>
      (plain_element _ _).bind fun _ => plain_unaryOp (by simp) _
  | .unary op x => x.plain.bind fun _ => plain_unaryOp (by cases op <;> simp [UnaryOp.text]) _
  | .arith op x y => x.plain.bind fun _ => y.plain.bind fun _ => plain_arithOp op.mem _ _
  | .bitwise op x y => x.plain.bind fun _ => y.plain.bind fun _ => plain_bitwiseOp op.mem _ _
  | .cast ty x => x.plain.bind fun _ => plain_cast _ _
  | .call name args => (plain_emitArgs args .empty).bind fun _ => plain_call name _

theorem plain_emitArgs : ∀ (xs : List Expr) (l : ArgList), Plain (emitArgs l xs)
  | [], l => plain_pure l
  | x :: xs, l => x.plain.bind fun _ => (plain_appendArg l _).bind fun _ => plain_emitArgs xs _

end

theorem Place.plain (x : Place) : Plain x.emit := by
  cases x with
  | var name => exact plain_variableRef name
  | element name index =>
    exact (plain_variableRef name).bind fun _ => index.plain.bind fun _ => plain_element _ _

theorem plain_discard {x : EmitM α} (hx : Plain x) : Plain (discard x) :=
  hx.bind fun _ => plain_pure _

theorem AssignOp.isAssignOp (op : AssignOp) : isAssignOp op.text := by
  cases op with
  | plain => exact .inl rfl
  | arith op => exact .inr (.inl op.mem)
  | bitwise op => exact .inr (.inr op.mem)

theorem Action.plain (a : Action) : Plain a.emit := by
  cases a with
  | assign op x y =>
    exact x.plain.bind fun _ => y.plain.bind fun _ => plain_discard (plain_assign op.isAssignOp _ _)
  | eval x => exact plain_discard x.plain

/-! ## Records -/

@[simp]
theorem yields_recorded {x : EmitM α} {Q : α × List Event → State → Prop} :
    Yields (recorded x) s Q ↔ Yields x s fun a s' =>
      Q (a, (s'.code.toList.drop s.code.size).flatMap Quad.events) s' := by
  simp [recorded]

theorem drop_code {o' : Outline} {s' : State} (h : Ready o s) (h' : Ready o' s')
    (hbefore : o'.before = o.before) (hbody : o'.body = o.body ++ seg) :
    s'.code.toList.drop s.code.size = seg := by
  have hlen : s.code.size = (o.before ++ o.body).length := by rw [← h.code, Array.length_toList]
  rw [h'.code, hbefore, hbody, ← append_assoc, hlen, drop_left]

theorem emitActions_ready (as : List Action) (h : Ready o s) :
    Yields (emitActions as) s fun es s' => ∃ seg, Ready (o.append seg) s' ∧
      ∀ eqs body r, Carries eqs body (seg ++ r) es r := by
  have hplain : Plain (as.forM Action.emit) := plain_forM Action.plain as
  simp only [emitActions, yields_bind, yields_recorded, yields_pure]
  refine (hplain.ready h).mono ?_
  rintro - s' ⟨qs, hqs, -, h'⟩
  refine ⟨qs, h', fun eqs body r => ?_⟩
  rw [drop_code h h' rfl rfl]
  exact carries_plain hqs r

/-! ## Conditions -/

/-- However the body goes on behind `seg`, and wherever the open blanks lead, the condition is
placed at the start of `seg`. -/
def CondAt (body seg : List Quad) (ts fs : List Nat) (c : Cond (List Event)) : Prop :=
  ∀ eqs whole post t f, whole = body ++ (seg ++ post) → Settles eqs whole →
    (∀ b ∈ ts, Lands eqs whole b t) → (∀ b ∈ fs, Lands eqs whole b f) →
    c.Placed eqs whole (seg ++ post) t f

theorem condAt_test {dst : Temp} {t f : Nat} (hqs : ∀ q ∈ qs, q.isPlain = true) :
    CondAt body (qs ++ exits dst t f) [t] [f]
      (.test ((qs ++ exits dst t f).flatMap Quad.events)) := by
  intro eqs whole post tr fr _ _ ht hf
  obtain ⟨r1, hl1, hg1⟩ := ht t (mem_singleton_self t)
  obtain ⟨r2, hl2, hg2⟩ := hf f (mem_singleton_self f)
  have hevents : (qs ++ exits dst t f).flatMap Quad.events =
      qs.flatMap Quad.events ++ [.test dst] := by
    simp [exits, Quad.events]
  rw [hevents, append_assoc]
  constructor
  · intro o os
    refine (carries_plain hqs _ _).trans ?_
    cases o
    · exact .branch hl2 (hg2 os)
    · exact .branch hl1 (hg1 os)
  · exact ⟨_, [], qs.flatMap Quad.events, [.test dst], rfl, carries_plain hqs _ _, .wait⟩

theorem Test.emit_eq (t : Test) : ∃ x : EmitM Temp, Plain x ∧ t.emit = x >>= branchOn := by
  cases t with
  | compare op x y =>
    refine ⟨do compared op.text (← x.emit) (← y.emit),
      x.plain.bind fun _ => y.plain.bind fun _ => plain_compared _ _ _, ?_⟩
    simp [Test.emit, relation_eq op.mem]
  | nonzero x =>
    refine ⟨x.emit >>= fun v => emitZero >>= compared "!=" v,
      x.plain.bind fun _ => plain_emitZero.bind fun _ => plain_compared _ _ _, ?_⟩
    simp [Test.emit, condition_eq]

theorem Test.emit_ready (t : Test) (h : Ready o s) :
    Yields t.emit s fun v s' => ∃ qs dst b b', (∀ q ∈ qs, q.isPlain = true) ∧
      Ready { o.append (qs ++ exits dst b b') with
        held := (v.onTrue, [b]) :: (v.onFalse, [b']) :: o.held } s' := by
  obtain ⟨x, hx, hemit⟩ := t.emit_eq
  exact hemit ▸ h.branch hx

theorem mem_patches (h : b ∈ bs) (n : Int) : Quad.patch b n ∈ patches bs n := mem_map_of_mem h

theorem lands_patched {whole pre post : List Quad} (hm : Marks pre n [])
    (hwhole : whole = pre ++ post) (hr : Settles eqs whole) (hp : patches bs n ⊆ whole)
    (hb : b ∈ bs) : Lands eqs whole b post := by
  have hm' : Marks whole n post := by
    rw [hwhole]
    simpa using hm.append post
  exact lands_of_marks hm' hr (hp (mem_patches hb n))

theorem CondAt.not (h : CondAt body seg ts fs c) : CondAt body seg fs ts (.not c) :=
  fun eqs whole post t f hw hr ht hf => h eqs whole post f t hw hr hf ht

section

variable {seg1 seg2 seg3 : List Quad} {us vs : List Nat} (hc : CondAt body seg1 ts fs c)
  (hm : Marks (body ++ seg1 ++ seg2) m []) (hd : CondAt (body ++ seg1 ++ seg2) seg3 us vs d)
include hc hm hd

theorem condAt_both :
    CondAt body (seg1 ++ seg2 ++ seg3 ++ patches ts m) us (fs ++ vs) (.both c d) := by
  intro eqs whole post t f hw hr ht hf
  have hf' := forall_mem_append.1 hf
  have hw' : whole = body ++ seg1 ++ seg2 ++ (seg3 ++ (patches ts m ++ post)) := by simp [hw]
  have hpatches : patches ts m ⊆ whole := fun q hq => by simp [hw, hq]
  refine ⟨seg3 ++ (patches ts m ++ post), ?_, ?_⟩
  · have hplaced := hc eqs whole (seg2 ++ (seg3 ++ (patches ts m ++ post))) _ f (by simp [hw]) hr
      (fun b hb => lands_patched hm hw' hr hpatches hb) hf'.1
    simpa using hplaced
  · exact hd eqs whole _ t f hw' hr ht hf'.2

/-- One of two conditions holds unless both negations do. -/
theorem condAt_either :
    CondAt body (seg1 ++ seg2 ++ seg3 ++ patches fs m) (ts ++ us) vs (.either c d) :=
  (condAt_both hc.not hm hd.not).not

end

/-- Emission of a condition succeeds and places it; its exits come to hand. -/
theorem Cond.emit_ready (c : Cond Test) (h : Ready o s) : Yields c.emit s fun r s' => ∃ seg ts fs,
      Ready { o.append seg with held := (r.1.onTrue, ts) :: (r.1.onFalse, fs) :: o.held } s' ∧
        CondAt o.body seg ts fs r.2 ∧ r.2.shape = c.shape := by
  induction c generalizing o s with
  | test t =>
    simp only [Cond.emit, yields_bind, yields_recorded, yields_pure]
    refine (t.emit_ready h).mono ?_
    rintro v s' ⟨qs, dst, b, b', hqs, h'⟩
    refine ⟨_, _, _, h', ?_, rfl⟩
    rw [drop_code h h' rfl rfl]
    exact condAt_test hqs
  | both c d ihc ihd | either c d ihc ihd =>
    simp only [Cond.emit, yields_bind, yields_pure]
    refine (ihc h).mono ?_
    rintro ⟨x, c'⟩ s1 ⟨seg1, ts, fs, h1, hc, hcs⟩
    refine h1.marker.mono ?_
    rintro m s2 ⟨seg2, -, h2, hm⟩
    refine (ihd h2).mono ?_
    rintro ⟨y, d'⟩ s3 ⟨seg3, us, vs, h3, hd, hds⟩
    have h4 := h3.reorder (perm_append_comm_assoc [_, _] [_, _] _)
    have hlabel : Quad.label m ∈ o.body ++ seg1 ++ seg2 ++ seg3 := mem_append_left _ hm.mem
    -- the exits of the first part that lead to the second are resolved, the others merged
    have hboth := h4.both (o := { o with body := o.body ++ seg1 ++ seg2 ++ seg3 }) hlabel
    have heither := h4.either (o := { o with body := o.body ++ seg1 ++ seg2 ++ seg3 }) hlabel
    first
    | refine hboth.mono fun v s4 h5 => ⟨_, us, fs ++ vs, ?_, condAt_both hc hm hd, ?_⟩
    | refine heither.mono fun v s4 h5 => ⟨_, ts ++ us, vs, ?_, condAt_either hc hm hd, ?_⟩
    · simpa [Outline.append] using h5
    · rw [Cond.shape, hcs, hds]
      rfl
  | not c ih =>
    simp only [Cond.emit, yields_bind, yields_pure]
    refine (ih h).mono ?_
    rintro ⟨x, c'⟩ s1 ⟨seg, ts, fs, h1, hc, hcs⟩
    exact h1.negated.mono fun v s2 h2 => ⟨seg, fs, ts, h2, hc.not, by rw [Cond.shape, hcs]; rfl⟩

end Quadruple.Source
