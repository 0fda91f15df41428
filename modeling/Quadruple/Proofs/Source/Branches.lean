import Quadruple.Proofs.Emit.Reachable
import Quadruple.Proofs.Source.Emission

/-!
# Short-circuit conditions in every state

A condition may be emitted wherever the emitter stands: between any operations that were run before
and any that follow, inside a function or not. Its tests may compare whatever values code without
control flow can yield.

`Holding` is the part of the emitter's invariant that conditions need: the chains in hand stand for
distinct blanks without a label. Every operation on conditions keeps it, and leaves the chains that
it is not about.

Main statement: `condition_branches`.
-/

namespace Quadruple.Source

open List
open Emit
open Quadruple.Flow (Equations Reach Leads)

/-! ## Tests and outcomes -/

inductive Leaf where
  | relation (op : Op .compare) (operands : EmitM (Value × Value)) (plain : Plain operands)
  | condition (operand : EmitM Value) (plain : Plain operand)

def Leaf.emit : Leaf → EmitM Value
  | .relation op operands _ => do
    let p ← operands
    Emit.relation op.text p.1 p.2
  | .condition operand _ => do Emit.condition (← operand)

/-- Emits a condition over any tests, with a marker before the second of two parts. -/
def Cond.emitBy {β : Type} (emit : β → EmitM Value) : Cond β → EmitM (Value × Cond (List Event))
  | .test t => do
    let (v, es) ← recorded (emit t)
    return (v, .test es)
  | .both c d => do
    let (x, c) ← c.emitBy emit
    let m ← Emit.mark
    let (y, d) ← d.emitBy emit
    return (← Emit.both x m y, .both c d)
  | .either c d => do
    let (x, c) ← c.emitBy emit
    let m ← Emit.mark
    let (y, d) ← d.emitBy emit
    return (← Emit.either x m y, .either c d)
  | .not c => do
    let (x, c) ← c.emitBy emit
    return (← Emit.negated x, .not c)

def Cond.leaves {β : Type} : Cond β → List β
  | .test t => [t]
  | .both c d | .either c d => c.leaves ++ d.leaves
  | .not c => c.leaves

def Cond.map {β γ : Type} (f : β → γ) : Cond β → Cond γ
  | .test t => .test (f t)
  | .both c d => .both (c.map f) (d.map f)
  | .either c d => .either (c.map f) (d.map f)
  | .not c => .not (c.map f)

def Cond.value {β : Type} : Cond (β × Bool) → Bool
  | .test t => t.2
  | .both c d => c.value && d.value
  | .either c d => c.value || d.value
  | .not c => !c.value

/-- The tests that are made from left to right, if a second part is left out where the first one
decides. -/
def Cond.tested {β : Type} : Cond (β × Bool) → List (β × Bool)
  | .test t => [t]
  | .both c d => c.tested ++ if c.value then d.tested else []
  | .either c d => c.tested ++ if c.value then [] else d.tested
  | .not c => c.tested

theorem Cond.eval_tested (c : Cond (List Event × Bool)) (os : List Bool) :
    (c.map Prod.fst).eval (c.tested.map Prod.snd ++ os) =
      (c.tested.flatMap Prod.fst, some c.value, os) := by
  induction c generalizing os with
  | test t => simp [Cond.map, Cond.eval, Cond.tested, Cond.value]
  | both c d ihc ihd | either c d ihc ihd =>
    cases hc : c.value <;> simp [Cond.map, Cond.eval, Cond.tested, Cond.value, hc, ihc, ihd]
  | not c ih => simp [Cond.map, Cond.eval, Cond.tested, Cond.value, ih]

def EndsInTest (es : List Event) : Prop :=
  ∃ pre dst, es = pre ++ [.test dst] ∧ ∀ d, Event.test d ∉ pre

variable {qs : List Quad} {cs : List Nat}

theorem endsInTest_exits (hqs : ∀ q ∈ qs, q.isPlain = true) (dst : Temp)
    (t f : Nat) : EndsInTest ((qs ++ exits dst t f).flatMap Quad.events) := by
  refine ⟨qs.flatMap Quad.events, dst, by simp [exits, Quad.events], fun d hd => ?_⟩
  obtain ⟨q, hq, hd⟩ := mem_flatMap.1 hd
  have hplain := hqs q hq
  cases q <;> simp [Quad.events, Quad.isPlain] at hd hplain

/-! ## Chains in hand -/

/-- The chains stand for distinct blanks that have been given out and have no label. -/
structure Holding (s : State) (held : List (Chain × List Nat)) : Prop where
  chains : ∀ p ∈ held, Holds s.links p.1 p.2
  distinct : (held.flatMap (·.2)).Nodup
  given : ∀ b ∈ held.flatMap (·.2), b ≤ s.blanks
  unlabelled : (held.flatMap (·.2)).Disjoint (s.patched.map Prod.fst)

variable {bs fs ts : List Nat} {s : State} {held : List (Chain × List Nat)}

namespace Holding

variable {s' : State} {x : Value}

theorem apart (h : Holding s held) : Apart s.links held := ⟨h.chains, h.distinct⟩

theorem of_apart (h : Apart s.links held) (hgiven : ∀ b ∈ held.flatMap (·.2), b ≤ s.blanks)
    (hunlabelled : (held.flatMap (·.2)).Disjoint (s.patched.map Prod.fst)) : Holding s held :=
  ⟨h.chains, h.distinct, hgiven, hunlabelled⟩

theorem congr (h : Holding s held) (hlinks : s'.links = s.links) (hblanks : s'.blanks = s.blanks)
    (hpatched : s'.patched = s.patched) : Holding s' held where
  chains := hlinks ▸ h.chains
  distinct := h.distinct
  given := hblanks ▸ h.given
  unlabelled := hpatched ▸ h.unlabelled

theorem perm (h : Holding s held) {held' : List (Chain × List Nat)} (hp : held.Perm held') :
    Holding s held' := by
  have hblanks := hp.flatMap_right (fun p : Chain × List Nat => p.2)
  refine of_apart (h.apart.perm hp) (fun b hb => h.given b (hblanks.mem_iff.2 hb)) ?_
  exact fun b hb => h.unlabelled (hblanks.mem_iff.2 hb)

theorem straight (h : Holding s held) (hs : Straight s s' qs) : Holding s' held := by
  have hcontrol := hs.control
  simp only [State.control, Control.mk.injEq] at hcontrol
  obtain ⟨-, -, hblanks, hlinks, hpatched, -⟩ := hcontrol
  exact h.congr hlinks hblanks hpatched

theorem test (h : Holding s held) (hs : s.Intact) (dst : Temp) :
    Yields (branchOn dst) s fun v s' => ∃ t f, s'.code.toList = s.code.toList ++ exits dst t f ∧
      Holding s' ((v.onTrue, [t]) :: (v.onFalse, [f]) :: held) := by
  simp only [branchOn, newBlank, emit, single, yields_bind, yields_modifyGet, yields_modify,
    yields_pure]
  have hold : ∀ k, s.blanks < k → k ∉ held.flatMap (·.2) := fun k hk hb => hk.not_ge (h.given k hb)
  have hnew : ∀ k, s.blanks < k → k ∉ s.patched.map Prod.fst := fun k hk hm =>
    hk.not_ge (hs.fresh.patched k hm)
  have hone := h.apart.push (hold (s.blanks + 1) (by omega))
  have htwo := hone.push (b := s.blanks + 1 + 1) (by simpa using hold _ (by omega))
  refine ⟨s.blanks + 1, s.blanks + 1 + 1, by simp [exits], of_apart (htwo.perm (.swap _ _ _)) ?_ ?_⟩
  · simp only [flatMap_cons, singleton_append, forall_mem_cons]
    exact ⟨by omega, le_rfl, fun b hb => by have := h.given b hb; omega⟩
  · simp only [flatMap_cons, singleton_append, disjoint_cons_left]
    exact ⟨hnew _ (by omega), hnew _ (by omega), h.unlabelled⟩

theorem resolve {c : Chain} (h : Holding s ((c, bs) :: held)) (n : Int) :
    Emit.resolve c n s = .ok () (s.patchAll bs n) ∧ Holding (s.patchAll bs n) held := by
  obtain ⟨hchains, hdistinct, hgiven, hunlabelled⟩ := h
  obtain ⟨hbs, hheld⟩ := forall_mem_cons.1 hchains
  rw [flatMap_cons] at hdistinct hgiven hunlabelled
  obtain ⟨hd, hrest, hapart⟩ := nodup_append.1 hdistinct
  obtain ⟨hnew, hother⟩ := disjoint_append_left.1 hunlabelled
  refine ⟨resolve_eq hbs n hd hnew, hheld, hrest, ?_, ?_⟩
  · exact fun b hb => hgiven b (mem_append_right _ hb)
  · intro b hb hb'
    rw [keys_patchAll, mem_append, mem_reverse] at hb'
    exact hb'.elim (fun hb' => hapart b hb' b hb rfl) (hother hb)

theorem merge {a b : Chain} (h : Holding s ((a, bs) :: (b, cs) :: held)) :
    Yields (Emit.merge a b) s fun c s' =>
      s'.code = s.code ∧ Holding s' ((c, bs ++ cs) :: held) := by
  have hblanks : ((a, bs) :: (b, cs) :: held).flatMap (·.2) =
      ((mergedChain a b, bs ++ cs) :: held).flatMap (·.2) := by simp
  exact (yields_iff_of_eq (merge_eq a b s)).2
    ⟨rfl, of_apart h.apart.merge (hblanks ▸ h.given) (hblanks ▸ h.unlabelled)⟩

theorem unmarked (h : Holding s held) : Holding { s with marked := false } held :=
  h.congr rfl rfl rfl

variable {us vs : List Nat} {y : Value}

section

variable (m : Nat)
  (h : Holding s ((x.onTrue, ts) :: (x.onFalse, fs) :: (y.onTrue, us) :: (y.onFalse, vs) :: held))
include m h

theorem both :
     Yields (Emit.both x m y) s fun v s' => s'.code.toList = s.code.toList ++ patches ts m ∧
      Holding s' ((v.onTrue, us) :: (v.onFalse, fs ++ vs) :: held) := by
  simp only [Emit.both, unmark, yields_bind, yields_modify, yields_pure]
  obtain ⟨hrun, h1⟩ := h.unmarked.resolve (m : Nat)
  refine (yields_iff_of_eq hrun).2 ?_
  have hswap := h1.perm (.cons _ (.swap (y.onFalse, vs) _ _))
  refine hswap.merge.mono ?_
  rintro c s2 ⟨hcode, h2⟩
  refine ⟨?_, h2.perm (.swap _ _ _)⟩
  simp [hcode, State.patchAll, patches]

theorem either :
     Yields (Emit.either x m y) s fun v s' => s'.code.toList = s.code.toList ++ patches fs m ∧
      Holding s' ((v.onTrue, ts ++ us) :: (v.onFalse, vs) :: held) := by
  simp only [Emit.either, unmark, yields_bind, yields_modify, yields_pure]
  obtain ⟨hrun, h1⟩ := (h.unmarked.perm (.swap (x.onFalse, fs) _ _)).resolve (m : Nat)
  refine (yields_iff_of_eq hrun).2 ?_
  refine h1.merge.mono ?_
  rintro c s2 ⟨hcode, h2⟩
  refine ⟨?_, h2⟩
  simp [hcode, State.patchAll, patches]

end

theorem negated (h : Holding s ((x.onTrue, ts) :: (x.onFalse, fs) :: held)) :
    Yields (Emit.negated x) s fun v s' => s'.code.toList = s.code.toList ∧
      Holding s' ((v.onTrue, fs) :: (v.onFalse, ts) :: held) := by
  simp only [Emit.negated, unmark, yields_bind, yields_modify, yields_pure]
  exact ⟨trivial, h.unmarked.perm (.swap _ _ _)⟩

end Holding

/-! ## Emission -/

section Emission

variable {α : Type}

theorem Yields.intact {x : EmitM α} {Q : α → State → Prop} {K : List Emit.Item}
    {R : α → List Emit.Item} (h : Yields x s Q) (hx : Does false false true K x R) (hK : ∀ b, .blank b ∉ K)
    (hs : s.Intact) : Yields x s fun a s' => s'.Intact ∧ Q a s' := by
  obtain ⟨a, s', hrun, hq⟩ := h
  exact ⟨a, s', hrun, after_of_ok hrun ▸ hx.intact hK hs, hq⟩

theorem Holding.branch (h : Holding s held) (hs : s.Intact) {x : EmitM Temp} (hx : Plain x) :
    Yields (x >>= branchOn) s fun v s' => s'.Intact ∧ ∃ qs dst t f,
      (∀ q ∈ qs, q.isPlain = true) ∧ s'.code.toList = s.code.toList ++ (qs ++ exits dst t f) ∧
      Holding s' ((v.onTrue, [t]) :: (v.onFalse, [f]) :: held) := by
  refine yields_bind.2 ((hx s).mono ?_)
  rintro dst s1 ⟨qs, hstraight⟩
  have hs1 := hstraight.intact hs
  refine (Yields.intact ((h.straight hstraight).test hs1 dst)
    (does_branchOn (mem_singleton_self _)) (by simp) hs1).mono ?_
  rintro v s2 ⟨hs2, t, f, hcode, h2⟩
  refine ⟨hs2, qs, dst, t, f, hstraight.plain, ?_, h2⟩
  rw [hcode, hstraight.code, append_assoc]

theorem Leaf.emit_holding (t : Leaf) (hs : s.Intact) (h : Holding s held) :
    Yields t.emit s fun v s' => s'.Intact ∧ ∃ qs dst b b', (∀ q ∈ qs, q.isPlain = true) ∧
      s'.code.toList = s.code.toList ++ (qs ++ exits dst b b') ∧
      Holding s' ((v.onTrue, [b]) :: (v.onFalse, [b']) :: held) := by
  cases t with
  | relation op operands plain =>
    have hemit : (Leaf.relation op operands plain).emit =
        (operands >>= fun p => compared op.text p.1 p.2) >>= branchOn := by
      simp [Leaf.emit, relation_eq op.mem]
    exact hemit ▸ h.branch hs (plain.bind fun p => plain_compared _ _ _)
  | condition operand plain =>
    have hemit : (Leaf.condition operand plain).emit =
        (operand >>= fun v => emitZero >>= compared "!=" v) >>= branchOn := by
      simp [Leaf.emit, condition_eq]
    exact hemit ▸ h.branch hs
      (plain.bind fun v => plain_emitZero.bind fun _ => plain_compared _ _ _)

theorem Holding.marker (hs : s.Intact) (h : Holding s held) :
    Yields mark s fun m s' => s'.Intact ∧ ∃ seg, s'.code.toList = s.code.toList ++ seg ∧
      Marks (s.code.toList ++ seg) m [] ∧ Holding s' held := by
  refine Yields.intact ?_ (does_mark (K := [])) (by simp) hs
  obtain ⟨l, code, seg, hrun, hcode, -, hmarks⟩ := mark_eq hs.labelled
  exact (yields_iff_of_eq hrun).2 ⟨seg, hcode, hcode ▸ hmarks, h.congr rfl rfl rfl⟩

theorem Cond.emitBy_holding (c : Cond Leaf) (hs : s.Intact) (h : Holding s held) :
    Yields (c.emitBy Leaf.emit) s fun r s' => s'.Intact ∧ ∃ seg ts fs,
      s'.code.toList = s.code.toList ++ seg ∧
      Holding s' ((r.1.onTrue, ts) :: (r.1.onFalse, fs) :: held) ∧
      CondAt s.code.toList seg ts fs r.2 ∧ r.2.shape = c.shape ∧
      ∀ es ∈ r.2.leaves, EndsInTest es := by
  induction c generalizing s held with
  | test t =>
    simp only [Cond.emitBy, yields_bind, yields_recorded, yields_pure]
    refine (t.emit_holding hs h).mono ?_
    rintro v s' ⟨hs', qs, dst, b, b', hqs, hcode, h'⟩
    rw [hcode, ← Array.length_toList, drop_left]
    exact ⟨hs', _, _, _, rfl, h', condAt_test hqs, rfl,
      forall_mem_singleton.2 (endsInTest_exits hqs dst b b')⟩
  | both c d ihc ihd | either c d ihc ihd =>
    simp only [Cond.emitBy, yields_bind, yields_pure]
    refine (ihc hs h).mono ?_
    rintro ⟨x, c'⟩ s1 ⟨hs1, seg1, ts, fs, hcode1, h1, hc, hcs, htc⟩
    refine (h1.marker hs1).mono ?_
    rintro m s2 ⟨hs2, seg2, hcode2, hm, h2⟩
    refine (ihd hs2 h2).mono ?_
    rintro ⟨y, d'⟩ s3 ⟨hs3, seg3, us, vs, hcode3, h3, hd, hds, htd⟩
    -- The chains of the first part were held all through the emission of the second.
    have h4 := h3.perm (perm_append_comm_assoc [_, _] [_, _] _)
    have hboth := Yields.intact (h4.both m) (does_both x y (mem_singleton_self _)) (by simp) hs3
    have heither := Yields.intact (h4.either m) (does_either x y (mem_singleton_self _)) (by simp)
      hs3
    rw [hcode1] at hm
    rw [hcode2, hcode1] at hd
    first
    | refine hboth.mono fun v s4 h5 => ⟨h5.1, _, us, fs ++ vs, ?_, h5.2.2, condAt_both hc hm hd,
        ?_, forall_mem_append.2 ⟨htc, htd⟩⟩
    | refine heither.mono fun v s4 h5 => ⟨h5.1, _, ts ++ us, vs, ?_, h5.2.2,
        condAt_either hc hm hd, ?_, forall_mem_append.2 ⟨htc, htd⟩⟩
    · simp [h5.2.1, hcode3, hcode2, hcode1]
    · rw [Cond.shape, hcs, hds]
      rfl
  | not c ih =>
    simp only [Cond.emitBy, yields_bind, yields_pure]
    refine (ih hs h).mono ?_
    rintro ⟨x, c'⟩ s1 ⟨hs1, seg, ts, fs, hcode, h1, hc, hcs, htc⟩
    refine (Yields.intact h1.negated (does_negated (K := []) x) (by simp) hs1).mono ?_
    rintro v s2 ⟨hs2, hcode2, h2⟩
    exact ⟨hs2, seg, fs, ts, hcode2.trans hcode, h2, hc.not, by rw [Cond.shape, hcs]; rfl, htc⟩

end Emission

/-! ## Runs over a condition -/

def ResolvedTo (s : State) (bs : List Nat) (l : Int) : Prop := ∀ b ∈ bs, s.resolution? b = some l

theorem resolvedTo_patchAll (s : State) (bs : List Nat) (n : Int) :
    ResolvedTo (s.patchAll bs n) bs n := by
  intro b hb
  have hfound : ((bs.map fun b => (b, n)).reverse.lookup b) = some n := by
    cases hl : (bs.map fun b => (b, n)).reverse.lookup b with
    | none => exact absurd (lookup_eq_none_iff.1 hl (b, n) (by simpa using hb)) (by simp)
    | some m =>
      have hmem := mem_of_lookup hl
      simp only [mem_reverse, mem_map, Prod.mk.injEq] at hmem
      obtain ⟨_, _, _, rfl⟩ := hmem
      rfl
  show ((bs.map fun b => (b, n)).reverse ++ s.patched).lookup b = some n
  rw [lookup_append, hfound]
  rfl

theorem ResolvedTo.patchAll {n : Int} (h : ResolvedTo s bs n) (hd : cs.Disjoint bs)
    (m : Int) : ResolvedTo (s.patchAll cs m) bs n := by
  intro b hb
  have hnone : (cs.map fun b => (b, m)).reverse.lookup b = none :=
    lookup_eq_none.2 fun hm => hd (by simpa using hm) hb
  show ((cs.map fun b => (b, m)).reverse ++ s.patched).lookup b = some n
  rw [lookup_append, hnone]
  exact h b hb

theorem Holding.ifStmt {v : Value} (h : Holding s [(v.onTrue, ts), (v.onFalse, fs)]) (lt lf : Int) :
    Yields (Emit.ifStmt v lt lf) s fun _ s' => ResolvedTo s' ts lt ∧ ResolvedTo s' fs lf := by
  have hdistinct : (ts ++ fs).Nodup := by simpa using h.distinct
  have hapart : fs.Disjoint ts := fun b hb hb' => (nodup_append.1 hdistinct).2.2 b hb' b hb rfl
  obtain ⟨hrun, h1⟩ := h.resolve lt
  obtain ⟨hrun', -⟩ := h1.resolve lf
  refine yields_bind.2 ((yields_iff_of_eq hrun).2 ((yields_iff_of_eq hrun').2 ⟨?_, ?_⟩))
  · exact (resolvedTo_patchAll s ts lt).patchAll hapart lf
  · exact resolvedTo_patchAll _ fs lf

theorem settles_equations (hs : InStep s) :
    Settles (s.code.toList.filterMap Quad.equation?) s.code.toList := by
  intro b n hb
  exact lookup_of_mem hs.nodup_keys (mem_filterMap.2 ⟨_, hb, rfl⟩)

theorem ResolvedTo.lands (hs : InStep s) {l : Int} (h : ResolvedTo s bs l) {r : List Quad}
    (hl : Leads (s.code.toList.filterMap Quad.equation?) s.code.toList (.label l) r) :
    ∀ b ∈ bs, Lands (s.code.toList.filterMap Quad.equation?) s.code.toList b r := by
  intro b hb
  obtain ⟨n, pre, hn, hcode, hpre⟩ := hl
  cases hn
  have hlookup := settles_equations hs b l (hs.patch_mem_iff.2 ⟨b, rfl, h b hb⟩)
  exact ⟨r, ⟨l, pre, hlookup, hcode, hpre⟩, .refl r⟩

/-- A condition of whatever tests, emitted in whatever state. Emission succeeds and so does the
resolution of both chains. Once they are resolved to labels of the code, by whatever operations,
control comes from the start of the condition to the label for its value, and meets the code of the
tests that evaluation from left to right makes. -/
theorem condition_branches {s : State} (hs : Reachable s) (c : Cond Leaf) :
    ∃ v record s', c.emitBy Leaf.emit s = .ok (v, record) s' ∧ record.shape = c.shape ∧
      (∀ es ∈ record.leaves, EndsInTest es) ∧
      (∀ lt lf, Yields (Emit.ifStmt v lt lf) s' fun _ s'' =>
        ResolvedTo s'' (s'.blanksOf v.onTrue) lt ∧ ResolvedTo s'' (s'.blanksOf v.onFalse) lf) ∧
      ∀ later lt lf t f, ResolvedTo (s'.run later) (s'.blanksOf v.onTrue) lt →
        ResolvedTo (s'.run later) (s'.blanksOf v.onFalse) lf →
        let code := (s'.run later).code.toList
        let eqs := code.filterMap Quad.equation?
        Leads eqs code (.label lt) t → Leads eqs code (.label lf) f →
        ∀ (d : Cond (List Event × Bool)) (os : List Bool), d.map Prod.fst = record →
          Reach eqs code (code.drop s.code.size) (d.tested.map Prod.snd ++ os)
            (d.tested.flatMap Prod.fst) (if d.value then t else f) os := by
  have hnone : Holding s [] := ⟨by simp, by simp, by simp, by simp⟩
  obtain ⟨⟨v, record⟩, s', hrun, hsound, seg, ts, fs, hcode, h, hat, hshape, htests⟩ :=
    c.emitBy_holding hs.intact hnone
  obtain ⟨htrue, hfalse⟩ : Holds s'.links v.onTrue ts ∧ Holds s'.links v.onFalse fs := by
    simpa using h.chains
  have hdistinct : (ts ++ fs).Nodup := by simpa using h.distinct
  have hts : s'.blanksOf v.onTrue = ts := htrue.blanksOf_eq (List.nodup_append.1 hdistinct).1
  have hfs : s'.blanksOf v.onFalse = fs := hfalse.blanksOf_eq (List.nodup_append.1 hdistinct).2.1
  refine ⟨v, record, s', hrun, hshape, htests, ?_, ?_⟩
  · rw [hts, hfs]
    exact h.ifStmt
  rw [hts, hfs]
  intro later lt lf t f hlt hlf code eqs ht hf d os hd
  have hstep : InStep (s'.run later) := hsound.inStep.run later
  obtain ⟨post, hpost⟩ := code_prefix_run s' later
  have hwhole : code = s.code.toList ++ (seg ++ post) := by
    rw [← List.append_assoc, ← hcode, hpost]
  have hplaced := hat eqs code post t f hwhole (settles_equations hstep) (hlt.lands hstep ht)
    (hlf.lands hstep hf)
  have hdrop : code.drop s.code.size = seg ++ post := by
    rw [hwhole, ← Array.length_toList, List.drop_left]
  rw [hdrop]
  have heval := d.eval_tested os
  rw [hd] at heval
  exact hplaced.run heval

def sampleCond : Cond Leaf := .either (.not (.both (probe "1") (probe "0"))) (probe "2")
where
  probe (text : String) : Cond Leaf := .test (.condition (constant text) (plain_constant text))

def sampleRest (v : Value) : List Emit.Op := [.mark, .constant "7", .mark, .ifStmt v 3 4]

theorem sampleCond_branches : ∃ v record s' t f,
    sampleCond.emitBy Leaf.emit (State.new {} .empty ⟨none, []⟩) = .ok (v, record) s' ∧
    let code := (s'.run (sampleRest v)).code.toList
    let eqs := code.filterMap Quad.equation?
    Leads eqs code (.label 3) t ∧ Leads eqs code (.label 4) f ∧
    ∀ (d : Cond (List Event × Bool)) (os : List Bool), d.map Prod.fst = record →
      Reach eqs code code (d.tested.map Prod.snd ++ os) (d.tested.flatMap Prod.fst)
        (if d.value then t else f) os := by
  obtain ⟨s, hs⟩ : ∃ s, s = State.new {} .empty ⟨none, []⟩ := ⟨_, rfl⟩
  have hreach : Reachable s := ⟨{}, .empty, ⟨none, []⟩, [], hs⟩
  obtain ⟨v, record, s', hrun, -, -, -, hbranches⟩ := condition_branches hreach sampleCond
  have hcheck : (match sampleCond.emitBy Leaf.emit s with
      | .ok (v, _) s' =>
        (s'.blanksOf v.onTrue).all (fun b => (s'.run (sampleRest v)).resolution? b == some 3) &&
        (s'.blanksOf v.onFalse).all (fun b => (s'.run (sampleRest v)).resolution? b == some 4) &&
        decide (Quad.label 3 ∈ (s'.run (sampleRest v)).code.toList) &&
        decide (Quad.label 4 ∈ (s'.run (sampleRest v)).code.toList)
      | .error .. => false) = true := by
    rw [hs]
    decide +kernel
  rw [hrun] at hcheck
  simp only [Bool.and_eq_true, List.all_eq_true, beq_iff_eq, decide_eq_true_eq] at hcheck
  obtain ⟨⟨⟨htrue, hfalse⟩, hthree⟩, hfour⟩ := hcheck
  obtain ⟨pre, t, ht, hpre⟩ := List.eq_append_cons_of_mem hthree
  obtain ⟨pre', f, hf, hpre'⟩ := List.eq_append_cons_of_mem hfour
  refine ⟨v, record, s', t, f, hs ▸ hrun, ⟨3, pre, rfl, ht, hpre⟩, ⟨4, pre', rfl, hf, hpre'⟩, ?_⟩
  have hreached := hbranches (sampleRest v) 3 4 t f htrue hfalse ⟨3, pre, rfl, ht, hpre⟩
    ⟨4, pre', rfl, hf, hpre'⟩
  have hsize : s.code.size = 0 := by
    rw [hs]
    rfl
  rw [hsize] at hreached
  exact hreached

end Quadruple.Source
