import Quadruple.Proofs.Flow.Walk

/-!
# Streams that have a flow graph

A stream of declarations and functions has a flow graph when no blank has two equations and, in
each function, every conditional jump is followed by a jump and every target stands for a label of
the function.

Main statement: `build_parts`. It also says which draft each function of the graph is made from.
-/

namespace Quadruple

open List

def Quad.targets : Quad → List Target
  | .condJump _ t | .jump t => [t]
  | .branch _ t u => [t, u]
  | _ => []

def Quad.equation? : Quad → Option (Int × Int)
  | .patch b n => some (b, n)
  | _ => none

namespace Flow

/-! ## Equations -/

theorem collectEquations_ok (code : List Quad) (eqs : Equations)
    (h : ((eqs ++ code.filterMap Quad.equation?).map Prod.fst).Nodup) :
    collectEquations eqs code = .ok (eqs ++ code.filterMap Quad.equation?) := by
  induction code generalizing eqs with
  | nil => simp [collectEquations]
  | cons q code ih =>
    cases q with
    | patch b l =>
      have hsplit : eqs ++ (Quad.patch b l :: code).filterMap Quad.equation? =
          (eqs ++ [(b, l)]) ++ code.filterMap Quad.equation? := by simp [Quad.equation?]
      have hnew : eqs.lookup b = none := by
        rw [map_append, nodup_append] at h
        exact lookup_eq_none.2 fun hb => h.2.2 b hb b mem_cons_self rfl
      rw [hsplit] at h ⊢
      rw [collectEquations, hnew]
      exact ih _ h
    | _ => exact ih eqs h

/-! ## Targets -/

def Closed (eqs : Equations) (body : List Quad) : Prop :=
  ∀ q ∈ body, ∀ t ∈ q.targets, ∃ n, targetLabel? eqs t = some n ∧ Quad.label n ∈ body

variable {body qs : List Quad} {t : Target} {n : Int} {eqs : Equations}

theorem mem_targets_of_fuse? (h : fuse? body = some qs) {q : Quad} (hq : q ∈ qs)
    (ht : t ∈ q.targets) : ∃ p ∈ body, t ∈ p.targets := by
  replace h := fuses_of_fuse? h
  induction h with
  | nil => cases hq
  | patch _ ih =>
    obtain ⟨p, hp, htp⟩ := ih hq
    exact ⟨p, mem_cons_of_mem _ hp, htp⟩
  | @test c _ _ _ _ _ ih =>
    rcases mem_cons.1 hq with rfl | hq
    · rcases mem_pair.1 ht with rfl | rfl
      · exact ⟨.condJump c t, by simp, by simp [Quad.targets]⟩
      · exact ⟨.jump t, by simp, by simp [Quad.targets]⟩
    · obtain ⟨p, hp, htp⟩ := ih hq
      exact ⟨p, by simp [hp], htp⟩
  | keep _ _ ih =>
    rcases mem_cons.1 hq with rfl | hq
    · exact ⟨q, mem_cons_self, ht⟩
    · obtain ⟨p, hp, htp⟩ := ih hq
      exact ⟨p, mem_cons_of_mem _ hp, htp⟩

theorem label_mem_fuse? (h : fuse? body = some qs)
    (hn : Quad.label n ∈ body) : Quad.label n ∈ qs := by
  obtain ⟨xs, ys, rfl⟩ := append_of_mem hn
  obtain ⟨vs, ws, -, -, rfl⟩ := fuse?_split h
  simp

namespace Draft

variable {d : Draft}

theorem exists_resolve_eq (hd : d.Cut) (ht : targetLabel? eqs t = some n)
    (hn : Quad.label n ∈ d.flat) : ∃ i, d.resolve eqs t = .ok (n, i) := by
  have hfound : (d.blocks.findIdx? (·.name == .label n)).isSome = true := by
    obtain ⟨b, hb, hm⟩ := mem_flatMap.1 hn
    refine findIdx?_isSome.trans (any_eq_true.2 ⟨b, hb, ?_⟩)
    -- a label in front of a block names it; inside a block there is none
    rcases mem_append.1 hm with hm | hm
    · cases hname : b.name with
      | label m =>
        obtain rfl : n = m := by simpa [hname, BlockName.head] using hm
        exact beq_self_eq_true _
      | _ => simp [hname, BlockName.head] at hm
    · exact absurd rfl (hd.labels b (mem_reverse.1 hb) _ (mem_reverse.1 hm) n)
  obtain ⟨i, hi⟩ := Option.isSome_iff_exists.1 hfound
  refine ⟨i, ?_⟩
  cases t with
  | label m =>
    cases ht
    simp [resolve, resolveIn, hi, bind, Except.bind, pure, Except.pure]
  | blank b =>
    have hb : eqs.lookup b = some n := ht
    simp [resolve, resolveIn, hb, hi, bind, Except.bind, pure, Except.pure]

theorem exists_finishBlock_eq (i : Nat) (b : DraftBlock)
    (h : ∀ q ∈ b.rev, ∀ t ∈ q.targets, ∃ p, d.resolve eqs t = .ok p) :
    ∃ b', d.finishBlock eqs i b = .ok b' := by
  obtain ⟨name, rev⟩ := b
  cases rev with
  | nil => exact ⟨_, rfl⟩
  | cons q before =>
    have hq := h q mem_cons_self
    cases q with
    | branch c t f =>
      obtain ⟨p, hp⟩ := hq t (by simp [Quad.targets])
      obtain ⟨r, hr⟩ := hq f (by simp [Quad.targets])
      simp [finishBlock, finishBlockWith, hp, hr, bind, Except.bind, pure, Except.pure]
    | jump t =>
      obtain ⟨p, hp⟩ := hq t (by simp [Quad.targets])
      simp [finishBlock, finishBlockWith, hp, bind, Except.bind, pure, Except.pure]
    | _ => exact ⟨_, rfl⟩

theorem exists_forall₂ {α β : Type} {R : α → β → Prop} {xs : List α} (h : ∀ x ∈ xs, ∃ y, R x y) :
    ∃ ys, Forall₂ R xs ys := by
  induction xs with
  | nil => exact ⟨[], .nil⟩
  | cons x xs ih =>
    obtain ⟨y, hy⟩ := h x mem_cons_self
    obtain ⟨ys, hys⟩ := ih fun z hz => h z (mem_cons_of_mem _ hz)
    exact ⟨y :: ys, .cons hy hys⟩

theorem exists_finish_eq (hd : d.Cut)
    (h : ∀ q ∈ d.flat, ∀ t ∈ q.targets, ∃ n, targetLabel? eqs t = some n ∧ Quad.label n ∈ d.flat) :
    ∃ f, d.finish eqs = .ok f := by
  have hblocks : ∀ p ∈ d.blocks.zipIdx, ∃ b', d.finishBlock eqs p.2 p.1 = .ok b' := by
    intro p hp
    refine exists_finishBlock_eq p.2 p.1 fun q hq t ht => ?_
    have hmem : q ∈ d.flat := mem_flatMap.2 ⟨p.1, (mem_zipIdx' hp).2 ▸ getElem_mem _,
      mem_append_right _ (mem_reverse.2 hq)⟩
    obtain ⟨n, hn, hl⟩ := h q hmem t ht
    obtain ⟨i, hi⟩ := exists_resolve_eq hd hn hl
    exact ⟨_, hi⟩
  obtain ⟨bs, hbs⟩ := exists_forall₂ hblocks
  exact ⟨⟨d.name, d.tag, d.formals, d.locals, bs⟩, finish_ok_iff.2 ⟨rfl, rfl, rfl, rfl, hbs⟩⟩

end Draft

/-! ## Functions of a stream -/

structure Routine where
  name : String
  tag : Tag
  body : List Quad

def Routine.Builds (eqs : Equations) (r : Routine) (f : Func) : Prop :=
  ∃ qs, fuse? r.body = some qs ∧
    (((Draft.start r.name r.tag).addAll qs).add .funcEnd).finish eqs = .ok f

def Routine.draft (r : Routine) (qs : List Quad) : Draft :=
  ((Draft.start r.name r.tag).addAll qs).add .funcEnd

theorem Routine.cut_draft (r : Routine) (qs : List Quad) : (r.draft qs).Cut :=
  (Draft.cut_addAll (Draft.cut_start r.name r.tag) qs).add .funcEnd

theorem Routine.flat_draft (r : Routine) (qs : List Quad) :
    (r.draft qs).flat = qs.filter (fun q => !q.isDecl) ++ [.funcEnd] := by
  rw [Routine.draft, Draft.flat_add, Draft.flat_addAll, Draft.flat_start]
  rfl

theorem Routine.exists_builds {r : Routine} (hf : (fuse? r.body).isSome = true)
    (hc : Closed eqs r.body) : ∃ f, r.Builds eqs f := by
  obtain ⟨qs, hqs⟩ := Option.isSome_iff_exists.1 hf
  suffices hfin : ∃ f, (r.draft qs).finish eqs = .ok f by
    obtain ⟨f, hf⟩ := hfin
    exact ⟨f, qs, hqs, hf⟩
  refine Draft.exists_finish_eq (r.cut_draft qs) fun q hq t ht => ?_
  rw [r.flat_draft] at hq ⊢
  rcases mem_append.1 hq with hq | hq
  · obtain ⟨p, hp, htp⟩ := mem_targets_of_fuse? hqs (mem_of_mem_filter hq) ht
    obtain ⟨n, hn, hl⟩ := hc p hp t htp
    exact ⟨n, hn, mem_append_left _ (mem_filter.2 ⟨label_mem_fuse? hqs hl, rfl⟩)⟩
  · obtain rfl := mem_singleton.1 hq
    cases ht

inductive Part where
  | global (v : Decl)
  | func (r : Routine)

def Part.quads : Part → List Quad
  | .global v => [.globalDecl v]
  | .func r => .funcBegin r.name r.tag :: (r.body ++ [.funcEnd])

def Part.routine? : Part → Option Routine
  | .global _ => none
  | .func r => some r

variable {ps : List Part}

theorem buildFrom_parts
    (h : ∀ r, .func r ∈ ps → (fuse? r.body).isSome = true ∧ Closed eqs r.body) (place : Nat)
    (g : Graph) : ∃ g' fs, buildFrom eqs place g none (ps.flatMap Part.quads) = .ok g' ∧
      g'.funcs = g.funcs ++ fs ∧ Forall₂ (Routine.Builds eqs) (ps.filterMap Part.routine?) fs := by
  induction ps generalizing place g with
  | nil => exact ⟨g, [], rfl, by simp, .nil⟩
  | cons p ps ih =>
    have ih' := ih fun r hr => h r (mem_cons_of_mem _ hr)
    cases p with
    | global v => exact ih' (place + 1) { g with globals := g.globals ++ [v] }
    | func r =>
      obtain ⟨hf, hc⟩ := h r mem_cons_self
      obtain ⟨f, qs, hqs, hfin⟩ := Routine.exists_builds hf hc
      obtain ⟨g', fs, hg', hfs, hall⟩ :=
        ih' (place + 1 + r.body.length + 1) { g with funcs := g.funcs ++ [f] }
      refine ⟨g', f :: fs, ?_, by simp [hfs], .cons ⟨qs, hqs, hfin⟩ hall⟩
      rw [flatMap_cons, Part.quads, cons_append, buildFrom, append_assoc,
        buildFrom_body hqs, singleton_append, buildFrom, hfin]
      exact hg'

theorem build_parts
    (heqs : (ps.flatMap Part.quads).filterMap Quad.equation? = eqs) (hkeys : (eqs.map Prod.fst).Nodup)
    (h : ∀ r, .func r ∈ ps → (fuse? r.body).isSome = true ∧ Closed eqs r.body) :
    ∃ g, build (ps.flatMap Part.quads) = .ok g ∧
      Forall₂ (Routine.Builds eqs) (ps.filterMap Part.routine?) g.funcs := by
  obtain ⟨g, fs, hg, hfs, hall⟩ := buildFrom_parts h 1 .empty
  refine ⟨g, ?_, ?_⟩
  · have hcollect := collectEquations_ok (ps.flatMap Part.quads) [] (by simpa [heqs] using hkeys)
    rw [nil_append, heqs] at hcollect
    rw [build, hcollect]
    exact hg
  · rw [hfs]
    exact hall

/-! ## The faults of building that concern equations -/

def BuildFault.isEquation : BuildFault → Bool
  | .duplicateEquation .. | .conflictingEquations .. => true
  | _ => false

def NoClash {α : Type} (x : Except BuildFault α) : Prop := ∀ e, x = .error e → e.isEquation = false

section NoClash

variable {α β : Type}

theorem noClash_ok (a : α) : NoClash (.ok a) := fun _ h => by cases h

theorem noClash_error {e : BuildFault} (he : e.isEquation = false) :
    NoClash (.error e : Except BuildFault α) := fun _ h => by
  cases h
  exact he

variable {f : α → Except BuildFault β}

theorem NoClash.bind {x : Except BuildFault α} (hx : NoClash x)
    (hf : ∀ a, NoClash (f a)) : NoClash (x >>= f) := by
  cases x with
  | ok a => exact hf a
  | error e => exact noClash_error (hx e rfl)

theorem noClash_mapM (hf : ∀ a, NoClash (f a)) (as : List α) : NoClash (as.mapM f) := by
  induction as with
  | nil => exact noClash_ok []
  | cons a as ih =>
    rw [mapM_cons]
    exact (hf a).bind fun _ => ih.bind fun _ => noClash_ok _

end NoClash

theorem Draft.noClash_resolveIn (func : String) (blocks : List DraftBlock) (eqs : Equations)
    (t : Target) : NoClash (resolveIn func blocks eqs t) := by
  have hlabel : ∀ n, NoClash (resolveIn func blocks eqs (.label n)) := by
    intro n
    dsimp only [resolveIn, bind, Except.bind]
    cases blocks.findIdx? (·.name == .label n) with
    | some i => exact noClash_ok _
    | none => exact noClash_error rfl
  cases t with
  | label n => exact hlabel n
  | blank b =>
    cases hb : eqs.lookup b with
    | some n =>
      have hsame : resolveIn func blocks eqs (.blank b) = resolveIn func blocks eqs (.label n) := by
        simp only [resolveIn, hb]
      rw [hsame]
      exact hlabel n
    | none =>
      simp only [resolveIn, hb]
      exact noClash_error rfl

theorem Draft.noClash_finish (d : Draft) (eqs : Equations) : NoClash (d.finish eqs) := by
  refine (noClash_mapM (fun x => ?_) _).bind fun _ => noClash_ok _
  have hresolve := noClash_resolveIn d.name d.blocks eqs
  obtain ⟨⟨name, rev⟩, i⟩ := x
  cases rev with
  | nil => exact noClash_ok _
  | cons q before =>
    cases q with
    | branch c t u => exact (hresolve t).bind fun _ => (hresolve u).bind fun _ => noClash_ok _
    | jump t => exact (hresolve t).bind fun _ => noClash_ok _
    | _ => exact noClash_ok _

theorem noClash_buildFrom (eqs : Equations) (place : Nat) (g : Graph) (cur : Option Draft)
    (code : List Quad) : NoClash (buildFrom eqs place g cur code) := by
  fun_induction buildFrom eqs place g cur code with
  | case1 => exact noClash_ok _
  | case9 place g qs d ih => exact (Draft.noClash_finish _ _).bind ih
  | case3 | case4 | case6 | case11 | case14 => assumption
  | case2 | case5 | case7 | case8 | case10 | case12 | case13 => exact noClash_error rfl

end Flow

end Quadruple
