import Quadruple.Proofs.Flow.Frame
import Quadruple.Proofs.Flow.Literals

/-!
# Well-formed streams

Main statement: `exists_build_iff`. A stream has a flow graph exactly if it is well-formed: no blank
has two equations, functions begin and end in turn, globals stand outside of functions and all else
but equations inside, every conditional jump has a jump behind it, and every target stands for a
label of its function.

`WellFormed` speaks of the stream alone. The builder reads it in one pass, so the proof goes through
`standing`, which follows where the stream stands, and `routines`, which cuts the functions out.
-/

namespace Quadruple

open List

def Quad.bound? : Quad → Option Bool
  | .funcBegin .. => some true
  | .funcEnd => some false
  | _ => none

inductive Target.Names (code : List Quad) : Target → Int → Prop
  | label (n : Int) : Names code (.label n) n
  | blank {b n : Int} : .patch b n ∈ code → Names code (.blank b) n

namespace Flow

def bounds (code : List Quad) : List Bool := code.filterMap Quad.bound?

/-- What comes behind `code` is inside a function: the last bound is a beginning. -/
def Inside (code : List Quad) : Prop := (bounds code).getLast? = some true

structure WellFormed (code : List Quad) : Prop where
  /-- No blank has two equations. -/
  equations : ((code.filterMap Quad.equation?).map Prod.fst).Nodup
  /-- Functions begin and end in turn. -/
  alternate : ∃ k, bounds code = (List.replicate k [true, false]).flatten
  globals : ∀ pre v post, code = pre ++ .globalDecl v :: post → ¬ Inside pre
  /-- What is neither a global nor an equation nor a bound stands inside a function. -/
  inner : ∀ pre q post, code = pre ++ q :: post → q.isFrame = false → q.equation? = none →
    Inside pre
  jumps : ∀ pre c t post, code = pre ++ .condJump c t :: post → ∃ u rest, post = .jump u :: rest
  /-- The targets in the body of a function stand for labels of that body. -/
  targets : ∀ pre name tag body post,
    code = pre ++ .funcBegin name tag :: (body ++ .funcEnd :: post) → bounds body = [] →
      ∀ q ∈ body, ∀ t ∈ q.targets, ∃ n, t.Names code n ∧ .label n ∈ body

/-! ## Bounds in turn -/

/-- Beginnings and ends in turn, `k` of each, with one more beginning if `b` holds. -/
def turns (k : Nat) (b : Bool) : List Bool :=
  (List.replicate k [true, false]).flatten ++ if b then [true] else []

theorem turns_succ (k : Nat) : turns (k + 1) false = turns k true ++ [false] := by
  simp [turns, replicate_succ']

theorem turns_true (k : Nat) : turns k true = turns k false ++ [true] := by simp [turns]

theorem getLast?_turns (k : Nat) (b : Bool) : (turns k b).getLast? = some true ↔ b = true := by
  cases b with
  | true => simp [turns_true]
  | false =>
    cases k with
    | zero => simp [turns]
    | succ k => simp [turns_succ]

variable {x : Bool} {code pre body : List Quad} {q : Quad} {r : Routine} {t : Target}
  {eqs : Equations} {g : Graph}

variable {b : Bool} {d : Draft} {f : Func} {cur : Option Draft}

theorem concat_eq_turns {bs : List Bool} {k : Nat} (h : bs ++ [x] = turns k b) :
    b = x ∧ ∃ j, bs = turns j (!x) := by
  cases b with
  | true =>
    rw [turns_true] at h
    obtain ⟨rfl, hx⟩ := append_inj' h rfl
    obtain rfl := singleton_inj.1 hx
    exact ⟨rfl, k, rfl⟩
  | false =>
    cases k with
    | zero => simp [turns] at h
    | succ k =>
      rw [turns_succ] at h
      obtain ⟨rfl, hx⟩ := append_inj' h rfl
      obtain rfl := singleton_inj.1 hx
      exact ⟨rfl, k, rfl⟩

theorem concat_turns (k : Nat) (x : Bool) : ∃ j, turns k (!x) ++ [x] = turns j x := by
  cases x with
  | true => exact ⟨k, (turns_true k).symm⟩
  | false => exact ⟨k + 1, (turns_succ k).symm⟩

/-! ## Where instructions stand -/

def MayStand (pre : List Quad) (q : Quad) : Prop :=
  (∀ v, q = .globalDecl v → ¬ Inside pre) ∧
    (q.isFrame = false → q.equation? = none → Inside pre)

def Placed (code : List Quad) : Prop := ∀ pre q post, code = pre ++ q :: post → MayStand pre q

theorem placed_concat : Placed (code ++ [q]) ↔ Placed code ∧ MayStand code q := by
  constructor
  · intro h
    exact ⟨fun pre p post hsplit => h pre p (post ++ [q]) (by simp [hsplit]), h code q [] rfl⟩
  · rintro ⟨h, hq⟩ pre p post hsplit
    rcases eq_nil_or_concat post with rfl | ⟨post, x, rfl⟩
    · obtain ⟨rfl, hp⟩ := append_inj' hsplit rfl
      obtain rfl := singleton_inj.1 hp
      exact hq
    · have hcut : code ++ [q] = (pre ++ p :: post) ++ [x] := by simpa using hsplit
      exact h pre p post (append_inj' hcut rfl).1

theorem mayStand_of_bound (h : q.bound? = some x) : MayStand pre q := by
  cases q with
  | funcBegin | funcEnd => exact ⟨by simp, by simp [Quad.isFrame]⟩
  | _ => cases h

theorem stand_of_bound (h : q.bound? = some x) (a b : Bool) :
    stand a q = some b ↔ a = !x ∧ b = x := by
  cases q with
  | funcBegin | funcEnd =>
    cases h
    cases a <;> cases b <;> simp [stand, Quad.isFrame]
  | _ => cases h

theorem stand_of_unbound {a : Bool} (h : q.bound? = none) (ha : Inside pre ↔ a = true) (b : Bool) :
    stand a q = some b ↔ b = a ∧ MayStand pre q := by
  cases q with
  | funcBegin | funcEnd => cases h
  | _ => cases a <;> cases b <;> simp_all [stand, MayStand, Quad.isFrame, Quad.equation?]

/-- Following the stream does not go wrong just where the bounds are in turn and every instruction
may stand where it does. -/
theorem standing_eq_some_iff :
    standing code = some b ↔ (∃ k, bounds code = turns k b) ∧ Placed code := by
  induction code using reverseRecOn generalizing b with
  | nil =>
    have hnil : Placed [] := fun pre q post h => by simp at h
    cases b with
    | true => simp [standing, bounds, turns]
    | false => exact iff_of_true rfl ⟨⟨0, rfl⟩, hnil⟩
  | append_singleton code q ih =>
    have hlast : standing (code ++ [q]) = some b ↔
        ∃ a, ((∃ k, bounds code = turns k a) ∧ Placed code) ∧ stand a q = some b := by
      simp only [standing_append, foldlM_cons, foldlM_nil, bind_pure, ih]
    have hbounds : bounds (code ++ [q]) = bounds code ++ q.bound?.toList := by
      cases hq : q.bound? <;> simp [bounds, hq]
    rw [hlast, placed_concat, hbounds]
    cases hq : q.bound? with
    | some x =>
      simp only [stand_of_bound hq, Option.toList_some]
      constructor
      · rintro ⟨_, ⟨⟨k, hk⟩, hplaced⟩, rfl, rfl⟩
        rw [hk]
        exact ⟨concat_turns k b, hplaced, mayStand_of_bound hq⟩
      · rintro ⟨⟨k, hk⟩, hplaced, -⟩
        obtain ⟨rfl, hj⟩ := concat_eq_turns hk
        exact ⟨_, ⟨hj, hplaced⟩, rfl, rfl⟩
    | none =>
      have hinside : ∀ {a k}, bounds code = turns k a → (Inside code ↔ a = true) := by
        intro a k hk
        rw [Inside, hk, getLast?_turns]
      rw [Option.toList_none, append_nil]
      constructor
      · rintro ⟨a, ⟨⟨k, hk⟩, hplaced⟩, hstand⟩
        obtain ⟨rfl, hfits⟩ := (stand_of_unbound hq (hinside hk) b).1 hstand
        exact ⟨⟨k, hk⟩, hplaced, hfits⟩
      · rintro ⟨⟨k, hk⟩, hplaced, hfits⟩
        exact ⟨b, ⟨⟨k, hk⟩, hplaced⟩, (stand_of_unbound hq (hinside hk) b).2 ⟨rfl, hfits⟩⟩

/-! ## Functions in the stream -/

def opened : Option Routine → List Quad
  | none => []
  | some r => .funcBegin r.name r.tag :: r.body

theorem exists_split_of_mem_routinesFrom {part : Option Routine} (h : r ∈ routinesFrom part code) :
    ∃ pre post, opened part ++ code = pre ++ .funcBegin r.name r.tag :: (r.body ++ .funcEnd :: post) := by
  fun_induction routinesFrom part code with
  | case1 => cases h
  | case2 name tag qs ih => exact ih h
  | case3 q qs hq ih =>
    obtain ⟨pre, post, hsplit⟩ := ih h
    exact ⟨q :: pre, post, congrArg (q :: ·) hsplit⟩
  | case4 r0 qs ih =>
    rcases mem_cons.1 h with rfl | h
    · exact ⟨[], qs, rfl⟩
    · obtain ⟨pre, post, hsplit⟩ := ih h
      refine ⟨opened (some r0) ++ .funcEnd :: pre, post, ?_⟩
      rw [append_assoc, cons_append, ← hsplit]
      rfl
  | case5 r0 q qs hq ih =>
    obtain ⟨pre, post, hsplit⟩ := ih h
    exact ⟨pre, post, by simpa [opened] using hsplit⟩

theorem mem_routines_of_split {post : List Quad} {name : String} {tag : Tag}
    (h : standing (pre ++ .funcBegin name tag :: (body ++ .funcEnd :: post)) = some false)
    (hbody : bounds body = []) :
    ⟨name, tag, body⟩ ∈ routines (pre ++ .funcBegin name tag :: (body ++ .funcEnd :: post)) := by
  obtain ⟨a, hpre, hrest⟩ := standing_append.1 h
  rw [foldlM_cons, Option.bind_eq_bind, Option.bind_eq_some_iff] at hrest
  obtain ⟨b, hb, -⟩ := hrest
  obtain ⟨rfl, -⟩ := (stand_of_bound rfl a b).1 hb
  have hends : ∀ q ∈ body, q ≠ .funcEnd := by
    rintro q hq rfl
    exact absurd (filterMap_eq_nil_iff.1 hbody _ hq) (by simp [Quad.bound?])
  have hmem : ⟨name, tag, body⟩ ∈ routinesFrom (some ⟨name, tag, []⟩) (body ++ .funcEnd :: post) := by
    rw [routinesFrom_body post hends]
    exact mem_cons_self
  have hnone : pre.foldlM stand (none : Option Routine).isSome = some false := hpre
  obtain ⟨rs, part, hpart, hroutines⟩ := routinesFrom_append hnone
  obtain rfl : part = none := by simpa using hpart
  rw [routines, hroutines]
  exact mem_append_right _ hmem

theorem bounds_of_fuse? (h : (fuse? body).isSome = true) : bounds body = [] := by
  obtain ⟨qs, hqs⟩ := Option.isSome_iff_exists.1 h
  replace h := fuses_of_fuse? hqs
  clear hqs
  induction h with
  | nil => rfl
  | patch h ih | test h ih => exact ih
  | @keep q _ _ hq _ ih =>
    have hbound : q.bound? = none := by cases q <;> first | rfl | cases hq
    rw [bounds, filterMap_cons_none hbound]
    exact ih

/-! ## Targets -/

theorem mem_filterMap_equation? {b n : Int} :
    (b, n) ∈ code.filterMap Quad.equation? ↔ .patch b n ∈ code := by
  rw [mem_filterMap]
  constructor
  · rintro ⟨q, hq, hpatch⟩
    cases q with
    | patch b n =>
      cases hpatch
      exact hq
    | _ => cases hpatch
  · exact fun h => ⟨_, h, rfl⟩

theorem exists_patch_of_mem {b : Int} (h : b ∈ (code.filterMap Quad.equation?).map Prod.fst) :
    ∃ n, .patch b n ∈ code := by
  obtain ⟨⟨b, n⟩, hmem, rfl⟩ := mem_map.1 h
  exact ⟨n, mem_filterMap_equation?.1 hmem⟩

theorem names_iff (h : ((code.filterMap Quad.equation?).map Prod.fst).Nodup) {n : Int} :
    t.Names code n ↔ targetLabel? (code.filterMap Quad.equation?) t = some n := by
  constructor
  · rintro (_ | hb)
    · rfl
    · exact lookup_of_mem h (mem_filterMap_equation?.2 hb)
  · intro ht
    cases t with
    | label m =>
      cases ht
      exact .label _
    | blank b =>
      exact .blank (mem_filterMap_equation?.1 (mem_of_lookup ht))

theorem exists_mem_fuse? {qs : List Quad} (h : fuse? body = some qs) {p : Quad} (hp : p ∈ body)
    (ht : t ∈ p.targets) : ∃ q ∈ qs, t ∈ q.targets ∧ q.endsBlock = true := by
  replace h := fuses_of_fuse? h
  induction h with
  | nil => cases hp
  | patch _ ih =>
    rcases mem_cons.1 hp with rfl | hp
    · cases ht
    · exact ih hp
  | @test c u f _ ws _ ih =>
    have hbranch : t ∈ [u, f] → ∃ q ∈ Quad.branch c u f :: ws, t ∈ q.targets ∧ q.endsBlock = true :=
      fun ht => ⟨.branch c u f, mem_cons_self, ht, rfl⟩
    rcases mem_cons.1 hp with rfl | hp
    · exact hbranch (mem_cons.2 (.inl (mem_singleton.1 ht)))
    rcases mem_cons.1 hp with rfl | hp
    · exact hbranch (mem_cons_of_mem _ ht)
    · obtain ⟨q, hq, hend⟩ := ih hp
      exact ⟨q, mem_cons_of_mem _ hq, hend⟩
  | keep hq _ ih =>
    rcases mem_cons.1 hp with rfl | hp
    · refine ⟨p, mem_cons_self, ht, ?_⟩
      cases p with
      | branch | jump => rfl
      | condJump => cases hq
      | _ => cases ht
    · obtain ⟨r, hr, hend⟩ := ih hp
      exact ⟨r, mem_cons_of_mem _ hr, hend⟩

theorem exists_resolve_of_finishBlock {i : Nat} {name : BlockName} {before : List Quad} {b : Block}
    (h : d.finishBlock eqs i ⟨name, q :: before⟩ = .ok b) (hq : q.endsBlock = true)
    (ht : t ∈ q.targets) : ∃ n j, d.resolve eqs t = .ok (n, j) := by
  cases q with
  | branch c u f =>
    obtain ⟨n, m, j, k, hu, hf, -⟩ := finishBlock_branch h
    rcases mem_pair.1 ht with rfl | rfl
    · exact ⟨n, j, hu⟩
    · exact ⟨m, k, hf⟩
  | jump u =>
    obtain ⟨n, j, hu, -⟩ := finishBlock_jump h
    obtain rfl := mem_singleton.1 ht
    exact ⟨n, j, hu⟩
  | ret | funcEnd => cases ht
  | _ => cases hq

theorem Finished.closed (hd : d.Cut) (hf : Finished d eqs f) (hq : q ∈ d.flat)
    (hend : q.endsBlock = true) (ht : t ∈ q.targets) :
    ∃ n, targetLabel? eqs t = some n ∧ .label n ∈ d.flat := by
  obtain ⟨⟨name, rev⟩, hb, hqb⟩ := mem_flatMap.1 hq
  have hmem : ⟨name, rev⟩ ∈ d.rev := mem_reverse.1 hb
  have hrev : q ∈ rev := by
    rcases mem_append.1 hqb with hname | hrev
    · cases name with
      | label n =>
        obtain rfl := mem_singleton.1 hname
        cases ht
      | entry | numbered => cases hname
    · exact mem_reverse.1 hrev
  -- nothing stands behind the jump in its block
  obtain ⟨before, rfl⟩ : ∃ before, rev = q :: before := by
    cases rev with
    | nil => cases hrev
    | cons p before =>
      rcases mem_cons.1 hrev with rfl | hrev
      · exact ⟨before, rfl⟩
      · exact absurd (hd.inner _ hmem q hrev) (by simp [hend])
  obtain ⟨i, hi⟩ := mem_iff_getElem?.1 hb
  obtain ⟨b', -, hfin⟩ := hf.block hi
  obtain ⟨n, j, hres⟩ := exists_resolve_of_finishBlock hfin hend ht
  obtain ⟨hlabel, hj⟩ := resolve_ok hres
  obtain ⟨hlt, hname, -⟩ := findIdx?_eq_some_iff_getElem.1 hj
  refine ⟨n, hlabel, mem_flatMap.2 ⟨_, getElem_mem hlt, ?_⟩⟩
  rw [DraftBlock.flat, eq_of_beq hname]
  exact mem_append_left _ mem_cons_self

theorem Routine.Builds.closed (h : r.Builds eqs f) : Closed eqs r.body := by
  obtain ⟨qs, hqs, hfin⟩ := h
  intro p hp t ht
  obtain ⟨q, hq, htq, hend⟩ := exists_mem_fuse? hqs hp ht
  have hdecl : q.isDecl = false := by
    cases q with
    | formalDecl | localDecl => cases hend
    | _ => rfl
  have hflat : q ∈ (r.draft qs).flat := by
    rw [r.flat_draft]
    exact mem_append_left _ (mem_filter.2 ⟨hq, by simp [hdecl]⟩)
  obtain ⟨n, hn, hl⟩ :=
    Finished.closed (r.cut_draft qs) (Draft.finish_ok_iff.1 hfin).2.2.2.2 hflat hend htq
  refine ⟨n, hn, mem_of_fuse? hqs ?_ rfl⟩
  rw [r.flat_draft] at hl
  rcases mem_append.1 hl with hl | hl
  · exact (mem_filter.1 hl).1
  · simp at hl

/-! ## Conditional jumps -/

def Paired (code : List Quad) : Prop :=
  ∀ pre c t post, code = pre ++ .condJump c t :: post → ∃ u rest, post = .jump u :: rest

theorem paired_cons : Paired (q :: code) ↔
      (∀ c t, q = .condJump c t → ∃ u rest, code = .jump u :: rest) ∧ Paired code := by
  constructor
  · intro h
    refine ⟨?_, fun pre c t post hsplit => h (q :: pre) c t post (by rw [hsplit]; rfl)⟩
    rintro c t rfl
    exact h [] c t code rfl
  · rintro ⟨hq, h⟩ pre c t post hsplit
    cases pre with
    | nil =>
      cases hsplit
      exact hq c t rfl
    | cons p pre => exact h pre c t post (cons.inj hsplit).2

theorem paired_of_buildFrom {place : Nat} {g' : Graph}
    (h : buildFrom eqs place g cur code = .ok g') : Paired code := by
  fun_induction buildFrom eqs place g cur code with
  | case1 => exact fun pre c t post hsplit => by simp at hsplit
  | case3 | case4 | case6 =>
    rename_i ih
    exact paired_cons.2 ⟨by simp, ih h⟩
  | case9 place g qs d ih =>
    obtain ⟨f, hfin, h⟩ := exists_of_bind_ok h
    exact paired_cons.2 ⟨by simp, ih f h⟩
  | case11 place g c t d u rest ih =>
    exact paired_cons.2 ⟨fun _ _ _ => ⟨u, rest, rfl⟩, paired_cons.2 ⟨by simp, ih h⟩⟩
  | case14 place g q qs h1 h2 h3 h4 h5 d ih =>
    exact paired_cons.2 ⟨fun c t hq => (h5 c t hq).elim, ih h⟩
  | case2 | case5 | case7 | case8 | case10 | case12 | case13 => cases h

/-! ## Acceptance -/

theorem nodup_of_collectEquations {eqs' : Equations} (h : collectEquations eqs code = .ok eqs')
    (hnodup : (eqs.map Prod.fst).Nodup) : (eqs'.map Prod.fst).Nodup := by
  fun_induction collectEquations eqs code with
  | case1 =>
    cases h
    exact hnodup
  | case2 eqs b l qs hnew ih =>
    refine ih h ?_
    rw [map_append, nodup_append]
    refine ⟨hnodup, by simp, fun x hx y hy hxy => ?_⟩
    obtain rfl := mem_singleton.1 hy
    exact lookup_eq_none.1 hnew (hxy ▸ hx)
  | case3 | case4 => cases h
  | case5 eqs q qs hq ih => exact ih h hnodup

/-- A stream that does not go wrong is read to its end, if the functions in it can be finished. -/
theorem exists_buildFrom (part : Option Routine) (hpart : ReadSoFar part cur)
    (hstand : code.foldlM stand cur.isSome = some false) (hpaired : Paired code)
    (hclosed : ∀ r ∈ routinesFrom part code, (fuse? r.body).isSome = true → Closed eqs r.body)
    (place : Nat) (g : Graph) : ∃ g', buildFrom eqs place g cur code = .ok g' := by
  fun_induction buildFrom eqs place g cur code generalizing part with
  | case1 => exact ⟨_, rfl⟩
  | case3 place g cur b l qs ih =>
    have hqs := (paired_cons.1 hpaired).2
    cases cur with
    | none =>
      obtain rfl := hpart.eq_none
      exact ih none trivial hstand hqs hclosed
    | some d =>
      obtain ⟨r, rfl, hreads⟩ := hpart.exists_reads
      exact ih (some _) (hreads.patch b l) hstand hqs hclosed
  | case4 place g v qs ih =>
    obtain rfl := hpart.eq_none
    exact ih none trivial hstand (paired_cons.1 hpaired).2 hclosed
  | case6 place g name tag qs ih =>
    obtain rfl := hpart.eq_none
    exact ih (some ⟨name, tag, []⟩) ⟨[], rfl, rfl⟩ hstand (paired_cons.1 hpaired).2 hclosed
  | case9 place g qs d ih =>
    obtain ⟨r, rfl, us, hus, rfl⟩ := hpart.exists_reads
    have hsome : (fuse? r.body).isSome = true := by simp [hus]
    obtain ⟨f, vs, hvs, hfin⟩ := Routine.exists_builds hsome (hclosed r mem_cons_self hsome)
    obtain rfl : us = vs := Option.some.inj (hus.symm.trans hvs)
    rw [hfin]
    exact ih f none trivial hstand (paired_cons.1 hpaired).2
      fun r' hr' => hclosed r' (mem_cons_of_mem _ hr')
  | case11 place g c t d u rest ih =>
    obtain ⟨r, rfl, hreads⟩ := hpart.exists_reads
    have hfuse : fuse? [.condJump c t, .jump u] = some [.branch c t u] := rfl
    refine ih (some _) (hreads.add hfuse) hstand
      (paired_cons.1 (paired_cons.1 hpaired).2).2 fun r' hr' => hclosed r' ?_
    simpa [routinesFrom] using hr'
  | case12 place g c t qs d hno =>
    obtain ⟨u, rest, rfl⟩ := (paired_cons.1 hpaired).1 c t rfl
    exact (hno u rest rfl).elim
  | case14 place g q qs h1 h2 h3 h4 h5 d ih =>
    obtain ⟨r, rfl, hreads⟩ := hpart.exists_reads
    have hfuse : fuse? [q] = some [q] := by cases q <;> simp_all [fuse?]
    have hstep : stand true q = some true := by cases q <;> simp_all [stand, Quad.isFrame]
    rw [routinesFrom_cons_of_ne h4] at hclosed
    refine ih (some _) (hreads.add hfuse) ?_ (paired_cons.1 hpaired).2 hclosed
    simpa [hstep] using hstand
  | case2 => cases hstand
  | case5 | case7 | case8 | case10 => simp [stand, Quad.isFrame] at hstand
  | case13 place g q qs h1 h2 h3 h4 h5 =>
    have hstep : stand false q = none := by cases q <;> simp_all [stand]
    simp [hstep] at hstand

theorem buildFrom_of_build (h : build code = .ok g) :
    ((code.filterMap Quad.equation?).map Prod.fst).Nodup ∧
      buildFrom (code.filterMap Quad.equation?) 1 .empty none code = .ok g := by
  obtain ⟨eqs, heqs, h⟩ := exists_of_bind_ok h
  obtain rfl : eqs = code.filterMap Quad.equation? := collectEquations_eq heqs
  exact ⟨nodup_of_collectEquations heqs nodup_nil, h⟩

theorem wellFormed_of_build (h : build code = .ok g) : WellFormed code := by
  obtain ⟨hnodup, hfrom⟩ := buildFrom_of_build h
  have hstand := (standing_of_build h).1
  obtain ⟨⟨k, hk⟩, hplaced⟩ := standing_eq_some_iff.1 hstand
  refine ⟨hnodup, ⟨k, by simpa [turns] using hk⟩, fun pre v post h => (hplaced _ _ _ h).1 v rfl,
    fun pre q post h => (hplaced _ _ _ h).2, paired_of_buildFrom hfrom, ?_⟩
  rintro pre name tag body post rfl hbody q hq t ht
  obtain ⟨f, -, hf⟩ := exists_of_forall₂ (builds_of_build h).2.flip
    (mem_routines_of_split hstand hbody)
  obtain ⟨n, hn, hl⟩ := Routine.Builds.closed hf q hq t ht
  exact ⟨n, (names_iff hnodup).2 hn, hl⟩

theorem WellFormed.standing (h : WellFormed code) : standing code = some false := by
  obtain ⟨k, hk⟩ := h.alternate
  refine standing_eq_some_iff.2 ⟨⟨k, by simpa [turns] using hk⟩, fun pre q post hsplit => ?_⟩
  refine ⟨?_, h.inner pre q post hsplit⟩
  rintro v rfl
  exact h.globals pre v post hsplit

theorem WellFormed.closed (h : WellFormed code) (hr : r ∈ routines code)
    (hsome : (fuse? r.body).isSome = true) : Closed (code.filterMap Quad.equation?) r.body := by
  intro q hq t ht
  obtain ⟨pre, post, hsplit⟩ := exists_split_of_mem_routinesFrom hr
  obtain ⟨n, hn, hl⟩ :=
    h.targets pre r.name r.tag r.body post hsplit (bounds_of_fuse? hsome) q hq t ht
  exact ⟨n, (names_iff h.equations).1 hn, hl⟩

/-- A stream has a flow graph exactly if it is well-formed. -/
theorem exists_build_iff {code : List Quad} : (∃ g, build code = .ok g) ↔ WellFormed code := by
  constructor
  · rintro ⟨g, hg⟩
    exact wellFormed_of_build hg
  · intro h
    have hcollect := collectEquations_ok code [] h.equations
    have hnone : ReadSoFar none none := trivial
    obtain ⟨g, hg⟩ := exists_buildFrom none hnone h.standing h.jumps
      (fun r hr hsome => h.closed hr hsome) 1 .empty
    refine ⟨g, ?_⟩
    rw [build, hcollect]
    exact hg

end Flow

end Quadruple
