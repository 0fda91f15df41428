import Quadruple.Proofs.Ir.Machine
import Quadruple.Proofs.Lowering.Trail

/-!
# Temporaries with several definitions

A use of a temporary takes what the definition last met in the text gave it, whichever was executed
last. Where that definition computes its result, the two are the same, since all definitions of a
temporary write one register; where it gives a constant, an address or the register of another
temporary, they differ.

Main statement: `value_at_use`.
-/

namespace Quadruple

open List

variable {f : Func} {t : Temp}

namespace Flow.Func

def IsPath (f : Func) (ps : List Point) : Prop := ps.head? = some .entry ∧ ps.IsChain f.Edge

theorem edge_iff {p q : Point} : f.Edge p q ↔ ∃ b ∈ f.blocks[p.block]?,
    (p.pos < b.quads.length ∧ q = ⟨p.block, p.pos + 1⟩) ∨
      (p.pos = b.quads.length ∧ q.block ∈ b.succs ∧ q.pos = 0) := by
  constructor
  · intro h
    cases h with
    | next hb hlt => exact ⟨_, hb, .inl ⟨hlt, rfl⟩⟩
    | succ hb hj => exact ⟨_, hb, .inr ⟨rfl, hj, rfl⟩⟩
  · obtain ⟨i, k⟩ := p
    obtain ⟨j, l⟩ := q
    rintro ⟨b, hb, ⟨hlt, heq⟩ | ⟨rfl, hj, rfl⟩⟩
    · rw [heq]
      exact .next hb hlt
    · exact .succ hb hj

instance (f : Func) (p q : Point) : Decidable (f.Edge p q) := decidable_of_iff _ edge_iff.symm

instance (f : Func) (ps : List Point) : Decidable (f.IsPath ps) :=
  inferInstanceAs (Decidable (_ ∧ _))

theorem defines_iff {p : Point} : f.Defines p t ↔ (f.quadAt? p).bind Quad.dst? = some t := by
  simp [Defines, Option.bind_eq_some_iff]

end Flow.Func

namespace Ir

section

variable {D : Type} {xs ys : List (Instr × D)} {v w : Value}

/-- What a value holds behind instructions that are given with what they made: what was written to
it last, or itself when nothing was. -/
def held (xs : List (Instr × D)) (v : Value) : D ⊕ Value :=
  match xs.reverse.find? fun x => x.1.result = some v with
  | some x => .inl x.2
  | none => .inr v

theorem held_eq_inl {d : D} (h : held xs v = .inl d) : ∃ x ∈ xs, x.2 = d ∧ x.1.result = some v := by
  unfold held at h
  split at h
  · next x hx =>
    have hr := find?_some hx
    exact ⟨x, mem_reverse.1 (mem_of_find?_eq_some hx), Sum.inl.inj h, of_decide_eq_true hr⟩
  · cases h

theorem held_eq_inr (h : held xs v = .inr w) : w = v := by
  unfold held at h
  split at h
  · cases h
  · exact (Sum.inr.inj h).symm

theorem held_append_of_unwritten (h : ∀ y ∈ ys, y.1.result ≠ some v) :
    held (xs ++ ys) v = held xs v := by
  have hnone : ys.reverse.find? (fun x => x.1.result = some v) = none :=
    find?_eq_none.2 fun y hy => by simpa using h y (mem_reverse.1 hy)
  unfold held
  rw [reverse_append, find?_append, hnone, Option.none_or]

theorem held_append_of_written (xs : List (Instr × D)) {y : Instr × D} (hy : y ∈ ys)
    (hv : y.1.result = some v) :
    ∃ x ∈ ys, held (xs ++ ys) v = .inl x.2 := by
  unfold held
  rw [reverse_append, find?_append]
  cases hx : ys.reverse.find? (fun x => x.1.result = some v) with
  | none => exact absurd hv (by simpa using find?_eq_none.1 hx y (mem_reverse.2 hy))
  | some x => exact ⟨x, mem_reverse.1 (mem_of_find?_eq_some hx), rfl⟩

end

/-- Whatever the instructions make, `w` holds behind `later` what `v` held in front of it. -/
def Survives (earlier later : List Instr) (v w : Value) : Prop :=
  ∀ (D : Type) (xs ys : List (Instr × D)), xs.map Prod.fst = earlier → ys.map Prod.fst = later →
    held (xs ++ ys) w = held xs v

theorem survives_iff {earlier later : List Instr} {v w : Value} :
    Survives earlier later v w ↔ w = v ∧ ∀ i ∈ later, i.result ≠ some v := by
  constructor
  · intro h
    -- each instruction makes its own place
    let xs := earlier.zipIdx
    let ys := later.zipIdx earlier.length
    have hheld : held (xs ++ ys) w = held xs v :=
      h Nat xs ys (zipIdx_map_fst 0 earlier) (zipIdx_map_fst _ later)
    have hxs : ∀ x ∈ xs, x.2 < earlier.length := fun x hx => by
      simpa using snd_lt_add_of_mem_zipIdx hx
    have hlater : ∀ y ∈ ys, y.1.result ≠ some w := by
      intro y hy hw
      obtain ⟨x, hx, hx'⟩ := held_append_of_written xs hy hw
      obtain ⟨x', hmem, heq, -⟩ := held_eq_inl (hheld.symm.trans hx')
      have hlt := hxs x' hmem
      have hle := le_snd_of_mem_zipIdx hx
      omega
    rw [held_append_of_unwritten hlater] at hheld
    have hwv : w = v := by
      cases hw : held xs w with
      | inr u => exact (held_eq_inr hw).symm.trans (held_eq_inr (hheld.symm.trans hw))
      | inl n =>
        obtain ⟨⟨i, k⟩, hx, rfl, hi⟩ := held_eq_inl hw
        obtain ⟨⟨j, l⟩, hy, rfl, hj⟩ := held_eq_inl (hheld.symm.trans hw)
        have hij : i = j := Option.some.inj
          ((mem_zipIdx_iff_getElem?.1 hx).symm.trans (mem_zipIdx_iff_getElem?.1 hy))
        subst hij
        exact Option.some.inj (hi.symm.trans hj)
    subst hwv
    refine ⟨rfl, fun i hi => ?_⟩
    rw [← zipIdx_map_fst earlier.length later] at hi
    obtain ⟨y, hy, rfl⟩ := mem_map.1 hi
    exact hlater y hy
  · rintro ⟨rfl, hlater⟩ D xs ys - rfl
    exact held_append_of_unwritten fun y hy => hlater y.1 (mem_map_of_mem hy)

end Ir

namespace Lowering

open Quadruple.Flow (Func Point)

theorem tempValue_inj {u : Temp} (h : tempValue t = tempValue u) : t = u := by
  cases t
  cases u
  simpa [tempValue] using h

theorem Trail.Of.code_unwritten {c : Trail} (h : c.Of f) {q : Point} (ht : ¬ f.Defines q t)
    {i : Ir.Instr} (hi : i ∈ c.code q) : i.result ≠ some (tempValue t) := by
  intro hres
  rcases h.code_cases q with ⟨v, hv, rfl⟩ | hbarren
  · rw [h.code_visit hv] at hi
    obtain ⟨_, _, hmakes, -⟩ := (h.run.ran v hv).makes
    rcases hmakes.result hi with hn | ⟨k, hk⟩ | ⟨u, hu, hk⟩
    · rw [hn] at hres
      cases hres
    · rw [hk] at hres
      simp [tempValue] at hres
    · rw [hk] at hres
      obtain rfl := tempValue_inj (Option.some.inj hres)
      exact ht ⟨v.quad, h.quadAt? hv, hu⟩
  · rcases hbarren i hi with hn | ⟨k, hk⟩
    · rw [hn] at hres
      cases hres
    · rw [hk] at hres
      simp [tempValue] at hres

/-- A path comes from the definition `d` of a temporary to its use `u`, over `mid` and with no other
definition in between. -/
structure Trail.Brings (c : Trail) (f : Func) (t : Temp) (pre : List Point) (d : Visit)
    (mid : List Point) (u : Visit) : Prop where
  definition : d ∈ c.visits ∧ d.quad.dst? = some t
  use : u ∈ c.visits ∧ t ∈ u.quad.operands
  path : f.IsPath (pre ++ d.point :: (mid ++ [u.point]))
  last : ∀ q ∈ mid, ¬ f.Defines q t

/-- Whatever the instructions along a path make, `w` holds behind `mid` what `v` held behind `d`. -/
def Trail.Keeps (c : Trail) (f : Func) (pre : List Point) (d : Visit) (mid : List Point)
    (v w : Ir.Value) : Prop :=
  Ir.Survives (opening f ++ (pre ++ [d.point]).flatMap c.code) (mid.flatMap c.code) v w

/-- The value of a temporary at its uses. Let `d` be the last definition that a path executes in
front of the use `u`. What is used is the operand that the last definition `e` in the text in front
of `u` gave. It has the value that `d` gave exactly when `d` gave the same operand and nothing behind
`d` writes that, and it always has where both definitions compute their result. -/
theorem value_at_use {g : Flow.Graph} {s s' : State} {p : Ir.Program}
    (h : lower g s = .ok p s') : ∃ cs : List Trail, cs.map (·.func) = p.funcs ∧
      List.Forall₂ (fun f c => c.Of f ∧ ∀ t pre d mid u, c.Brings f t pre d mid u →
        ∃ e ∈ c.visits, ∃ given taken, f.latest? u.point t = some (e.point, e.quad) ∧
          d.given = some given ∧ e.given = some taken ∧ u.before.bound t = some taken ∧
          (c.Keeps f pre d mid given.val taken.val ↔
            taken.val = given.val ∧ ∀ i ∈ mid.flatMap c.code, i.result ≠ some given.val) ∧
          (given.val = tempValue t → taken.val = tempValue t →
            c.Keeps f pre d mid given.val taken.val)) g.funcs cs := by
  obtain ⟨cs, hcs, hall, -⟩ := trails_of_lower h
  refine ⟨cs, hcs, hall.imp fun f c hc => ⟨hc, ?_⟩⟩
  intro t pre d mid u hb
  obtain ⟨e, he, taken, hlatest, hgiven', hbound⟩ := hc.bound_use hb.use.1 hb.use.2
  obtain ⟨given, hgiven⟩ := (hc.run.ran d hb.definition.1).given_isSome hb.definition.2
  refine ⟨e, he, given, taken, hlatest, hgiven, hgiven', hbound, Ir.survives_iff,
    fun hval hval' => ?_⟩
  refine Ir.survives_iff.2 ⟨hval'.trans hval.symm, fun i hi => ?_⟩
  obtain ⟨q, hq, hi⟩ := List.mem_flatMap.1 hi
  rw [hval]
  exact hc.code_unwritten (hb.last q hq) hi

/-- Two ways to one use of two temporaries: either gives a constant to the one and computes the
other. -/
def arms : List Quad :=
  [.funcBegin "main" .int, .const ⟨1⟩ "1" .int, .condJump ⟨1⟩ (.label 1), .jump (.label 2),
    .label 1, .const ⟨3⟩ "10" .int, .binary .arith ⟨4⟩ "+" ⟨1⟩ ⟨1⟩ .int, .jump (.label 3),
    .label 2, .const ⟨3⟩ "20" .int, .binary .arith ⟨4⟩ "-" ⟨1⟩ ⟨1⟩ .int,
    .label 3, .binary .arith ⟨5⟩ "+" ⟨3⟩ ⟨4⟩ .int, .ret (some ⟨5⟩) .int, .funcEnd]

def armsFunc : Func where
  name := "main"
  tag := .int
  formals := []
  locals := []
  blocks :=
    [⟨"entry", [.const ⟨1⟩ "1" .int, .branch ⟨1⟩ (.label 1) (.label 2)], [1, 2], some 1⟩,
      ⟨"L1", [.const ⟨3⟩ "10" .int, .binary .arith ⟨4⟩ "+" ⟨1⟩ ⟨1⟩ .int, .jump (.label 3)], [3],
        some 2⟩,
      ⟨"L2", [.const ⟨3⟩ "20" .int, .binary .arith ⟨4⟩ "-" ⟨1⟩ ⟨1⟩ .int], [3], some 3⟩,
      ⟨"L3", [.binary .arith ⟨5⟩ "+" ⟨3⟩ ⟨4⟩ .int, .ret (some ⟨5⟩) .int], [], some 4⟩,
      ⟨"bb1", [.funcEnd], [], none⟩]

/-- The first temporary has the constant of the arm that was not taken, the second has the value of
the one that was. -/
theorem arms_values : Flow.build arms = .ok ⟨[], [armsFunc]⟩ ∧
    ∃ (p : Ir.Program) (s' : State) (c : Trail) (pre mid mid' : List Point) (d d' u : Visit),
      lower ⟨[], [armsFunc]⟩ (.new {} .empty ⟨none, []⟩ "f") = .ok p s' ∧ p.funcs = [c.func] ∧
      c.Of armsFunc ∧ c.Brings armsFunc ⟨3⟩ pre d mid u ∧
      c.Brings armsFunc ⟨4⟩ (pre ++ [d.point]) d' mid' u ∧
      ¬ c.Keeps armsFunc pre d mid (.const 10) (.const 20) ∧
      d.given.map (·.val) = some (.const 10) ∧
      (u.before.bound ⟨3⟩).map (·.val) = some (.const 20) ∧
      c.Keeps armsFunc (pre ++ [d.point]) d' mid' (tempValue ⟨4⟩) (tempValue ⟨4⟩) ∧
      d'.given.map (·.val) = some (tempValue ⟨4⟩) ∧
      (u.before.bound ⟨4⟩).map (·.val) = some (tempValue ⟨4⟩) := by
  have hok : (result? (lower ⟨[], [armsFunc]⟩) (.new {} .empty ⟨none, []⟩ "f")).isSome = true := by
    cbv
  obtain ⟨p, s', hs'⟩ := exists_ok_of_isSome hok
  obtain ⟨cs, hcs, hall⟩ := value_at_use hs'
  obtain ⟨c, _, ⟨hc, huse⟩, hnil, rfl⟩ := List.forall₂_cons_left_iff.1 hall
  obtain rfl := List.forall₂_nil_left_iff.1 hnil
  obtain ⟨u, hu, hup, huq⟩ := hc.exists_visit (p := ⟨3, 0⟩) rfl
  obtain ⟨d, hd, hdp, hdq⟩ := hc.exists_visit (p := ⟨1, 0⟩) rfl
  obtain ⟨d', hd', hdp', hdq'⟩ := hc.exists_visit (p := ⟨1, 1⟩) rfl
  -- the way through the first arm
  have hpath : armsFunc.IsPath
      [⟨0, 0⟩, ⟨0, 1⟩, ⟨0, 2⟩, ⟨1, 0⟩, ⟨1, 1⟩, ⟨1, 2⟩, ⟨1, 3⟩, ⟨3, 0⟩] := by decide
  have hbrings : c.Brings armsFunc ⟨3⟩ [⟨0, 0⟩, ⟨0, 1⟩, ⟨0, 2⟩] d [⟨1, 1⟩, ⟨1, 2⟩, ⟨1, 3⟩] u :=
    ⟨⟨hd, hdq ▸ rfl⟩, ⟨hu, huq ▸ List.mem_cons_self⟩, hup ▸ hdp ▸ hpath, by
      simp only [Func.defines_iff]; decide⟩
  have hbrings' : c.Brings armsFunc ⟨4⟩ ([⟨0, 0⟩, ⟨0, 1⟩, ⟨0, 2⟩] ++ [d.point]) d'
      [⟨1, 2⟩, ⟨1, 3⟩] u :=
    ⟨⟨hd', hdq' ▸ rfl⟩, ⟨hu, huq ▸ List.mem_cons_of_mem _ List.mem_cons_self⟩,
      hup ▸ hdp ▸ hdp' ▸ hpath, by simp only [Func.defines_iff]; decide⟩
  have hconst : ∀ v ∈ c.visits, ∀ {text b}, v.quad = .const ⟨3⟩ text .int → v.given = some b →
      b.val = .const (Numeral.wrap32 (Numeral.readLiteral text).value) := by
    intro v hv text b hq hb
    obtain ⟨new, ns, hmakes, -, hgiven, -⟩ := (hc.run.ran v hv).makes
    rw [hgiven] at hb
    rw [hq] at hmakes
    generalize v.instrs = is at hmakes
    cases hmakes with
    | float h => cases h
    | int =>
      cases hb
      rfl
  have hsum : ∀ v ∈ c.visits, ∀ {op b}, v.quad = .binary .arith ⟨4⟩ op ⟨1⟩ ⟨1⟩ .int →
      v.given = some b → b.val = tempValue ⟨4⟩ := by
    intro v hv op b hq hb
    obtain ⟨new, ns, hmakes, -, hgiven, -⟩ := (hc.run.ran v hv).makes
    rw [hgiven] at hb
    rw [hq] at hmakes
    generalize v.instrs = is at hmakes
    cases hmakes
    cases hb
    rfl
  obtain ⟨e, he, given, taken, hlatest, hgiven, htaken, hbound, hiff, -⟩ := huse _ _ _ _ _ hbrings
  obtain ⟨e', he', given', taken', hlatest', hgiven', htaken', hbound', -, hkeeps⟩ :=
    huse _ _ _ _ _ hbrings'
  have htext : armsFunc.latest? u.point ⟨3⟩ = some (⟨2, 0⟩, .const ⟨3⟩ "20" .int) := by
    rw [hup]
    decide
  have htext' : armsFunc.latest? u.point ⟨4⟩ =
      some (⟨2, 1⟩, .binary .arith ⟨4⟩ "-" ⟨1⟩ ⟨1⟩ .int) := by
    rw [hup]
    decide
  have hgiven₁ : given.val = .const 10 := hconst d hd hdq hgiven
  have htaken₁ : taken.val = .const 20 :=
    hconst e he (Prod.mk.inj (Option.some.inj (hlatest.symm.trans htext))).2 htaken
  have hgiven₂ := hsum d' hd' hdq' hgiven'
  have htaken₂ := hsum e' he' (Prod.mk.inj (Option.some.inj (hlatest'.symm.trans htext'))).2 htaken'
  rw [hgiven₁, htaken₁] at hiff
  have hkept := hkeeps hgiven₂ htaken₂
  rw [hgiven₂, htaken₂] at hkept
  refine ⟨by decide +kernel, p, s', c, _, _, _, d, d', u, hs', hcs.symm, hc, hbrings, hbrings',
    fun hk => ?_, ?_, ?_, hkept, ?_, ?_⟩
  · cases (hiff.1 hk).1
  · rw [hgiven, Option.map_some, hgiven₁]
  · rw [hbound, Option.map_some, htaken₁]
  · rw [hgiven', Option.map_some, hgiven₂]
  · rw [hbound', Option.map_some, htaken₂]

def armsLowered : Ir.Func where
  name := "main"
  params := []
  ret := .word
  blocks :=
    [⟨"entry", [{ op := .jnz, args := [.const 1, .label "L1", .label "L2"] }]⟩,
      ⟨"L1",
        [{ op := .add, ty := .word, operandTy := .word, result := some (.temp "t" 4),
           args := [.const 1, .const 1] },
          { op := .jmp, args := [.label "L3"] }]⟩,
      ⟨"L2",
        [{ op := .sub, ty := .word, operandTy := .word, result := some (.temp "t" 4),
           args := [.const 1, .const 1] },
          { op := .jmp, args := [.label "L3"] }]⟩,
      ⟨"L3",
        [{ op := .add, ty := .word, operandTy := .word, result := some (.temp "t" 5),
           args := [.const 20, .temp "t" 4] },
          { op := .ret, args := [.temp "t" 5] }]⟩,
      ⟨"bb1", [{ op := .ret, args := [.const 0] }]⟩]

/-- The function takes the first arm and gives 12. The lowered one takes it too and gives 22. -/
theorem arms_confused : Flow.build arms = .ok ⟨[], [armsFunc]⟩ ∧
    ∃ p s', lower ⟨[], [armsFunc]⟩ (.new {} .empty ⟨none, []⟩ "f") = .ok p s' ∧
      s'.report.diagnostics = [] ∧ p.funcs = [armsLowered] ∧
      (∀ count cells, ∃ st, Flow.Machine.run count armsFunc 3
        (Flow.Machine.start armsFunc [] cells) = .ok (.returned 12 st)) ∧
      ∀ m, ∃ st, Ir.Machine.run armsLowered 3 (Ir.Machine.start p armsLowered [] m) =
        some (.returned 22 st) := by
  have hok : (outcome? (lower ⟨[], [armsFunc]⟩) (.new {} .empty ⟨none, []⟩ "f")).map
      (fun r => (r.1.funcs, r.2.report.diagnostics)) = some ([armsLowered], []) := by cbv
  obtain ⟨p, s', hs', hr⟩ := exists_ok_of_outcome? hok
  obtain ⟨hfuncs, hreport⟩ := Prod.mk.inj hr
  exact ⟨by decide +kernel, p, s', hs', hreport, hfuncs, fun count cells => ⟨_, rfl⟩,
    fun m => ⟨_, rfl⟩⟩

end Lowering

end Quadruple
