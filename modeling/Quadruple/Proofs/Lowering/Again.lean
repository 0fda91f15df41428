import Quadruple.Proofs.Lowering.Levels
import Quadruple.Proofs.Lowering.Order

/-!
# Lowering a program again

Main statement: `lower_again`.

The first lowering makes names known as it goes, and a later one finds them all from the start. This
makes no difference: a name that is not declared is taken for a function in any case, and what has a
place in the smaller table has one in the larger. So the two stay in step, and the number of
parameters that the first has put on record for such a function is what the second finds.
-/

namespace Quadruple.Lowering

open List
open Symbols (Entry Table)

/-! ## Equal programs -/

theorem Corresponds.eq {R : String → Prop} {L : List (List UInt8)} (hL : L.Nodup) {v w : Ir.Value}
    (h : Corresponds R L L v w) : w = v := by
  rcases h with ⟨rfl, -⟩ | ⟨i, j, c, hi, hj, rfl, rfl⟩
  · rfl
  · obtain ⟨hi, hic⟩ := List.getElem?_eq_some_iff.1 hi
    obtain ⟨hj, hjc⟩ := List.getElem?_eq_some_iff.1 hj
    rw [(hL.getElem_inj_iff).1 (hic.trans hjc.symm)]

theorem eq_of_like {f g : Ir.Func} (h : f.Like (fun v w => w = v) g) : g = f := by
  have hid : ∀ {α : Type} {xs ys : List α}, Forall₂ (fun x y => y = x) xs ys → ys = xs :=
    fun h => (Ir.forall₂_eq_map (f := id) h).trans (map_id _)
  have hinstr : ∀ i j : Ir.Instr, i.Like (fun v w => w = v) j → j = i := by
    intro i j hi
    rw [hi.rest, hid hi.args]
  have hblock : ∀ b c : Ir.Block, b.Like (fun v w => w = v) c → c = b := by
    rintro ⟨l, is⟩ ⟨m, js⟩ hb
    obtain rfl : m = l := hb.label
    exact congrArg (Ir.Block.mk m) (hid (hb.instrs.imp hinstr))
  rw [h.rest, hid (h.blocks.imp hblock)]

variable {D : List (String × Entry)} {s : State} {g : Flow.Graph} {p : Ir.Program}

/-- Two lowerings that have used the same literals and called the same functions stay in step, where
what has a place in the first has one in the second. -/
theorem exact_mapM (hD : SelfNamed D) {fs : List Flow.Func} {ps : List Ir.Func}
    {t s' : State} (hs : Pausing D s) (ht : Pausing D t) (hst : Akin s t) (hexact : Exact s t)
    (h : fs.mapM lowerFunc s = .ok ps s') :
    ∃ t', fs.mapM lowerFunc t = .ok ps t' ∧
      Pausing D s' ∧ Pausing D t' ∧ Akin s' t' ∧ Exact s' t' ∧ Grown t t' := by
  induction fs generalizing s t ps with
  | nil =>
    cases h
    exact ⟨t, rfl, hs, ht, hst, hexact, .rfl⟩
  | cons f fs ih =>
    rw [mapM_cons] at h
    obtain ⟨f1, s1, hf, hrest⟩ := bind_eq_ok_iff.1 h
    obtain ⟨gs, s2, hgs, hpure⟩ := bind_eq_ok_iff.1 hrest
    cases hpure
    rcases tallies_lowerFunc True hD hs ht hst (fun _ => hexact) hf with
      ⟨hloose, -⟩ | ⟨f2, t1, hf2, hagrees, hexact1⟩
    · exact absurd trivial hloose
    have hlike := hagrees.like
    rw [(hexact1 trivial).literals] at hlike
    obtain rfl : f2 = f1 :=
      eq_of_like (hlike.mono fun v w hvw => hvw.eq hagrees.fst.steady.literals)
    obtain ⟨t', ht', hs', ht'', hakin, hexact', hgrown⟩ :=
      ih hagrees.fst hagrees.snd hagrees.akin (hexact1 trivial) hgs
    refine ⟨t', ?_, hs', ht'', hakin, hexact', hagrees.grown.2.trans hgrown⟩
    rw [mapM_cons, run_bind_of_ok hf2, run_bind_of_ok ht']
    rfl

/-- Two records of one foreign function are equal, or the function is not declared and they agree in
all but the number of its parameters. -/
theorem Recorded.eq_or {r r' : Ir.Foreign} (h : Recorded D r) (h' : Recorded D r')
    (hname : r'.name = r.name) :
    r' = r ∨ D.lookup r.name = none ∧ r.variadic = false ∧ r' = { r with fixed := r'.fixed } := by
  have hshape := h.shape_eq h' hname
  rcases h with ⟨v, hv, -, hr⟩ | ⟨hD, -, hvar⟩
  · rcases h' with ⟨v', hv', -, hr'⟩ | ⟨hD', -⟩
    · rw [hname, hv] at hv'
      cases hv'
      exact .inl (by rw [hr, hr', hname])
    · rw [hname, hv] at hD'
      cases hD'
  · obtain ⟨name, ret, variadic, fixed⟩ := r
    obtain ⟨name', ret', variadic', fixed'⟩ := r'
    simp only [Prod.mk.injEq] at hshape
    obtain ⟨rfl, rfl, rfl⟩ := hshape
    exact .inr ⟨hD, hvar, rfl⟩

theorem forall₂_foreign {rs rs' : List Ir.Foreign} (h : ∀ r ∈ rs, Recorded D r)
    (h' : ∀ r ∈ rs', Recorded D r) (hnames : rs'.map (·.name) = rs.map (·.name)) :
    Forall₂ (fun r r' => r' = r ∨
      D.lookup r.name = none ∧ r.variadic = false ∧ r' = { r with fixed := r'.fixed }) rs rs' := by
  induction rs generalizing rs' with
  | nil =>
    obtain rfl := map_eq_nil_iff.1 hnames
    exact .nil
  | cons r rs ih =>
    obtain ⟨r', rs', rfl, hname, hrest⟩ := map_eq_cons_iff.1 hnames
    obtain ⟨hr, hrs⟩ := forall_mem_cons.1 h
    obtain ⟨hr', hrs'⟩ := forall_mem_cons.1 h'
    exact .cons (hr.eq_or hr' hname) (ih hrs hrs' hrest)

/-! ## Programs -/

/-- A table with what lowering `g` to `p` has put on record for functions that are not declared. -/
structure Leftover (g : Flow.Graph) (p : Ir.Program) (T : Table) : Prop where
  tidy : T.Tidy
  blank : Blank T
  other : ∀ n v, (declaredFaces g).lookup n = none → T.global? n = some v →
    ∃ placed k, v = undeclared n placed k
  counted : Counted (declaredFaces g) T p.foreign

theorem Pausing.leftover (h : Pausing (declaredFaces g) s)
    (hp : p.foreign = s.foreign) : Leftover g p s.table :=
  ⟨h.steady.table.tidy, h.blank, h.steady.table.other, hp ▸ h.steady.counted⟩

theorem lower_of_leftover {s1 t : State} (hs : s.table = .empty)
    (h : lower g s = .ok p s1) (ht : Leftover g p t.table) (hset : t.settings = s.settings) :
    ∃ t', lower g t = .ok p t' ∧ Leftover g p t'.table ∧ t'.settings = s.settings := by
  obtain ⟨T, hT, hTpausing, hTglobal⟩ := exists_pausing_new g hs
  obtain ⟨U, hU, hUpausing, hUglobal⟩ := exists_pausing ht.tidy ht.blank ht.other
  rw [hT] at h
  rw [hU]
  obtain ⟨fs, hfs, rfl⟩ := lowerFuncs_eq_ok h
  have hD := fun n v => placed_of_declaredFaces (g := g) (n := n) (v := v)
  have hplaces : ∀ n, T.Places n → U.Places n := by
    rintro n ⟨v, q, hv, hq⟩
    refine ⟨v, q, ?_, hq⟩
    rw [hUglobal, ← hTglobal, hv, Option.some_or]
  obtain ⟨t', ht', hs1', ht'', hakin, hexact, hgrown⟩ :=
    exact_mapM hD hTpausing hUpausing ⟨hset, fun _ => Iff.rfl⟩ ⟨rfl, rfl, hplaces⟩ hfs
  -- a function that is not declared is found as it was put on record
  have hforeign : Forall₂ (fun r r' => r' = r) s1.foreign t'.foreign := by
    refine forall₂_of_mem
      (forall₂_foreign hs1'.steady.foreign ht''.steady.foreign hexact.foreign) ?_
    rintro r hr r' hr' (heq | ⟨hnone, -, heq⟩)
    · exact heq
    · have hname : r'.name = r.name := by rw [heq]
      have hold : U.global? r.name = some (undeclared r.name true r.fixed) := by
        rw [hUglobal, hnone, Option.none_or]
        exact ht.counted r hr hnone
      have hkept := hgrown.keeps r.name _ _ hold rfl
      have hnew := ht''.steady.counted r' hr' (hname ▸ hnone)
      rw [hname] at hnew
      have hfixed : r'.fixed = r.fixed :=
        congrArg Entry.fixed (Option.some.inj (hnew.symm.trans hkept))
      rw [heq, hfixed]
  obtain hsame : t'.foreign = s1.foreign := (Ir.forall₂_eq_map (f := id) hforeign).trans (map_id _)
  refine ⟨t', ?_, ht''.leftover hsame.symm, hakin.settings.trans ?_⟩
  · rw [lowerFuncs, run_bind_of_ok ht']
    show EStateM.Result.ok _ t' = _
    rw [hakin.settings, hexact.literals, hsame]
  · exact (course_of_mapM hD hTpausing hfs).akin.settings

/-- A graph that was lowered with a new table can be lowered again any number of times and gives the
same program each time. However it ends, a lowering leaves the table on its level. -/
theorem lower_again (g : Flow.Graph) (settings : Settings) (report : Report) (file : String) :
    (∀ p s₁, lower g (.new settings .empty report file) = .ok p s₁ → ∀ k, ∃ s',
      (List.replicate k g).mapM lower (.new settings .empty report file) =
        .ok (List.replicate k p) s') ∧
    ∀ s : State, (left (lower g) s).table.level = s.table.level := by
  refine ⟨fun p s₁ h k => ?_, levels_lower g⟩
  have hrest : ∀ k (t : State), Leftover g p t.table → t.settings = settings →
      ∃ s', (List.replicate k g).mapM lower t = .ok (List.replicate k p) s' := by
    intro k
    induction k with
    | zero => exact fun t _ _ => ⟨t, rfl⟩
    | succ k ih =>
      intro t hleft hset
      obtain ⟨t', ht', hleft', hset'⟩ := lower_of_leftover rfl h hleft hset
      obtain ⟨s', hs'⟩ := ih t' hleft' hset'
      refine ⟨s', ?_⟩
      rw [List.replicate_succ, List.mapM_cons, run_bind_of_ok ht', run_bind_of_ok hs']
      rfl
  cases k with
  | zero => exact ⟨_, rfl⟩
  | succ k =>
    obtain ⟨s₀, hcourse, hs₀, -, -, -, -, -, -, hforeign⟩ := course_of_lower rfl h fun _ => rfl
    obtain ⟨s', hs'⟩ := hrest k s₁ (hcourse.pausing.leftover hforeign)
      (hcourse.akin.settings.trans hs₀)
    refine ⟨s', ?_⟩
    rw [List.replicate_succ, List.mapM_cons, run_bind_of_ok h, run_bind_of_ok hs']
    rfl

/-- A builtin and a function of the program that are declared as variables too, and calls of both. -/
def echo : List Quad :=
  [.globalDecl ⟨"printf", .double, 8⟩, .globalDecl ⟨"g", .int, 4⟩, .funcBegin "f" .int,
    .ref ⟨1⟩ .global "g" 0, .call ⟨2⟩ ⟨1⟩ .double [], .ref ⟨3⟩ .global "printf" 0,
    .call ⟨4⟩ ⟨3⟩ .int [⟨2⟩], .funcEnd, .funcBegin "g" .double, .funcEnd]

def echoGraph : Flow.Graph where
  globals := [⟨"printf", .double, 8⟩, ⟨"g", .int, 4⟩]
  funcs :=
    [⟨"f", .int, [], [],
      [⟨"entry", [.ref ⟨1⟩ .global "g" 0, .call ⟨2⟩ ⟨1⟩ .double [], .ref ⟨3⟩ .global "printf" 0,
        .call ⟨4⟩ ⟨3⟩ .int [⟨2⟩]], [1], some 1⟩, ⟨"bb1", [.funcEnd], [], none⟩]⟩,
    ⟨"g", .double, [], [], [⟨"entry", [.funcEnd], [], none⟩]⟩]

theorem echo_again : Flow.build echo = .ok echoGraph ∧
    ∃ p s₁, lower echoGraph (.new {} .empty ⟨none, []⟩ "f") = .ok p s₁ ∧
      p.foreign = [⟨"printf", .word, true, 1⟩] ∧
      ∃ s', (List.replicate 3 echoGraph).mapM lower (.new {} .empty ⟨none, []⟩ "f") =
        .ok [p, p, p] s' := by
  have hbuild : Flow.build echo = .ok echoGraph := by decide +kernel
  have hok : (result? (lower echoGraph) (.new {} .empty ⟨none, []⟩ "f")).map (·.foreign) =
      some [⟨"printf", .word, true, 1⟩] := by cbv
  obtain ⟨p, s₁, hl, hforeign⟩ := exists_ok_of_result? hok
  exact ⟨hbuild, p, s₁, hl, hforeign, (lower_again echoGraph {} ⟨none, []⟩ "f").1 p s₁ hl 3⟩

end Quadruple.Lowering
