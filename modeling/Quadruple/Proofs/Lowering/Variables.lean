import Quadruple.Proofs.Lowering.Trail

/-!
# Global variables

Lowering comes to the instructions of a function one by one, and a fault that ends it is that of
the instruction it has come to (`exists_reaches_of_error`).

Main statement: `globals_bound_iff`. A global variable that is no function of the program is bound
to its storage by every reference that lowering comes to, unless it has the name of a builtin. So no
access through the reference is refused for want of an address. One with the name of a builtin is
always taken for the function, and every access through it is refused: `shadowedVariable` has one.
-/

namespace Quadruple

open List

def Quad.address? : Quad → Option Temp
  | .load _ a _ | .store _ a _ _ | .index _ a _ _ => some a
  | _ => none

namespace Lowering

open Quadruple.Flow (Func Block)
open Symbols (Entry EntryId Table)

variable {g : Flow.Graph} {s s' t t' : State} {f : Func} {vs : List Visit} {q : Quad} {e : Fault}
  {b : Binding} {x : Temp} {k : Nat}

/-- Lowering `g` in the state `s` comes to the instruction `q` of the function `f` in the state `t`,
behind the visits `vs` to the instructions of the function in front of it. -/
def Reaches (g : Flow.Graph) (s : State) (f : Func) (vs : List Visit) (q : Quad) (t : State) :
    Prop :=
  ∃ fs rest cs t0, g.funcs = fs ++ f :: rest ∧
    Trails (s.declared g (declaredTable g s.table)) fs cs t0 ∧ Runs (openFunc f t0) vs t ∧
    vs.map (·.quad) ++ [q] <+: f.blocks.flatMap (·.quads)

/-! ## Where a fault comes from -/

theorem bind_eq_error_iff {α β : Type} {x : LowerM α} {k : α → LowerM β} :
    (x >>= k) s = .error e s' ↔
      x s = .error e s' ∨ ∃ a s1, x s = .ok a s1 ∧ k a s1 = .error e s' := by
  show EStateM.bind x k s = _ ↔ _
  unfold EStateM.bind
  cases x s <;> simp

theorem exists_runs_of_forM_error {qs : List Quad} (h : qs.forM lowerQuad s = .error e s') :
    ∃ vs q t, Runs s vs t ∧ vs.map (·.quad) ++ [q] <+: qs ∧ lowerQuad q t = .error e s' := by
  induction qs generalizing s with
  | nil => cases h
  | cons q qs ih =>
    rcases bind_eq_error_iff.1 h with hq | ⟨_, s1, hq, hrest⟩
    · exact ⟨[], q, s, .nil (.refl s), by simp, hq⟩
    · obtain ⟨vs, q1, t, hrun, hpre, hfault⟩ := ih hrest
      exact ⟨⟨⟨0, 0⟩, q, s, s1⟩ :: vs, q1, t, .cons (.refl s) hq hrun,
        (prefix_cons_inj q).2 hpre, hfault⟩

theorem exists_runs_of_lowerBlock_error {b : Block} (h : lowerBlock f b s = .error e s') :
    ∃ vs q t, Runs s vs t ∧ vs.map (·.quad) ++ [q] <+: b.quads ∧
      lowerQuad q t = .error e s' := by
  -- only the instructions themselves can fail
  have hfill : ∀ s, ∃ s1, fillBlock s = .ok () s1 := by
    intro s
    rw [fillBlock, run_get_bind]
    split <;> exact ⟨_, rfl⟩
  have hclose : ∀ s, ∃ s1, closeBlock f b s = .ok () s1 := by
    intro s
    rw [closeBlock, run_get_bind]
    split
    · cases b.down.bind (f.blocks[·]?) <;> exact ⟨_, rfl⟩
    · exact ⟨_, rfl⟩
  unfold lowerBlock at h
  split at h
  · cases h
  · rcases bind_eq_error_iff.1 h with hqs | ⟨_, s1, -, hrest⟩
    · exact exists_runs_of_forM_error hqs
    · obtain ⟨s2, hs2⟩ := hfill s1
      obtain ⟨s3, hs3⟩ := hclose s2
      cases (run_bind_of_ok hs2).symm.trans hrest |>.symm.trans (run_bind_of_ok hs3)

theorem exists_runs_of_blocks_error {bs : List Block}
    (hs : s.revInstrs.reverse = if k = 0 then opening f else [])
    (h : bs.mapM (lowerBlock f) s = .error e s') :
    ∃ vs q t, Runs s vs t ∧ vs.map (·.quad) ++ [q] <+: bs.flatMap (·.quads) ∧
      lowerQuad q t = .error e s' := by
  induction bs generalizing k s with
  | nil => cases h
  | cons b bs ih =>
    rw [mapM_cons] at h
    rcases bind_eq_error_iff.1 h with hb | ⟨_, s1, hb, hrest⟩
    · obtain ⟨vs, q, t, hrun, hpre, hfault⟩ := exists_runs_of_lowerBlock_error hb
      exact ⟨vs, q, t, hrun, hpre.trans (prefix_append _ _), hfault⟩
    · obtain ⟨seg, -, hcovers, -, hrun, hnil⟩ := ensures_segment f k b hs _ _ hb
      rcases bind_eq_error_iff.1 hrest with hbs | ⟨_, _, _, hpure⟩
      · obtain ⟨vs, q, t, hrun', hpre, hfault⟩ := ih (k := k + 1) (by simp [hnil]) hbs
        refine ⟨seg.visits ++ vs, q, t, hrun.append hrun', ?_, hfault⟩
        rw [map_append, hcovers.quads, append_assoc, flatMap_cons]
        exact (prefix_append_right_inj _).2 hpre
      · cases hpure

theorem exists_runs_of_lowerFunc_error (h : lowerFunc f s = .error e s') :
    e = .noEntry f.name ∨ ∃ vs q t t', Runs (openFunc f s) vs t ∧
      vs.map (·.quad) ++ [q] <+: f.blocks.flatMap (·.quads) ∧ lowerQuad q t = .error e t' := by
  rw [run_lowerFunc] at h
  cases hbody : lowerBody f (enterFunc f s) with
  | ok => simp [hbody] at h
  | error e1 s1 =>
    obtain ⟨rfl, -⟩ : e1 = e ∧ _ := by simpa [hbody] using h
    unfold lowerBody at hbody
    split at hbody
    · exact .inl (by cases hbody; rfl)
    · replace hbody := (run_bind_of_ok (run_formals ..)).symm.trans hbody
      replace hbody := (run_bind_of_ok (run_locals ..)).symm.trans hbody
      rcases bind_eq_error_iff.1 hbody with hblocks | ⟨_, _, _, hrest⟩
      · obtain ⟨vs, q, t, hrun, hpre, hfault⟩ := exists_runs_of_blocks_error (f := f) (k := 0)
          (by simp [opening, enterFunc]) hblocks
        refine .inr ⟨vs, q, t, _, ?_, hpre, hfault⟩
        simpa [openFunc, opening, enterFunc] using hrun
      · cases (run_bind_of_ok (run_warnUnreachable ..)).symm.trans hrest

theorem exists_trails_of_error {fs : List Func} (h : fs.mapM lowerFunc s = .error e s') :
    ∃ fs1 f rest cs t t', fs = fs1 ++ f :: rest ∧ Trails s fs1 cs t ∧
      lowerFunc f t = .error e t' := by
  induction fs generalizing s with
  | nil => cases h
  | cons f fs ih =>
    rw [mapM_cons] at h
    rcases bind_eq_error_iff.1 h with hf | ⟨_, s1, hf, hrest⟩
    · exact ⟨[], f, fs, [], s, s', rfl, .nil, hf⟩
    · obtain ⟨c, -, hleads⟩ := ensures_trail f _ _ hf
      rcases bind_eq_error_iff.1 hrest with hfs | ⟨_, _, _, hpure⟩
      · obtain ⟨fs1, f1, rest, cs, t, t', rfl, htrails, hfault⟩ := ih hfs
        exact ⟨f :: fs1, f1, rest, c :: cs, t, t', rfl, .cons hleads htrails, hfault⟩
      · cases hpure

/-- A fault that ends lowering is that of an instruction it has come to, or there was no block to
start with. -/
theorem exists_reaches_of_error (h : lower g s = .error e s') :
    (∃ f ∈ g.funcs, e = .noEntry f.name) ∨
      ∃ f vs q t t', Reaches g s f vs q t ∧ lowerQuad q t = .error e t' := by
  rw [run_lower] at h
  rcases bind_eq_error_iff.1 h with hfuncs | ⟨_, _, _, hrest⟩
  · obtain ⟨fs, f, rest, cs, t0, t', hsplit, htrails, hf⟩ := exists_trails_of_error hfuncs
    rcases exists_runs_of_lowerFunc_error hf with rfl | ⟨vs, q, t, t', hrun, hpre, hfault⟩
    · exact .inl ⟨f, by simp [hsplit], rfl⟩
    · exact .inr ⟨f, vs, q, t, t', ⟨fs, rest, cs, t0, hsplit, htrails, hrun, hpre⟩, hfault⟩
  · cases hrest

/-! ## What a global name keeps standing for -/

section Stands

variable {n name : String} {v : Entry} {T T' : Table}

theorem global?_of_changes {P : Entry → Prop} (h : T.Changes name P T')
    (hn : n ≠ name) : T'.global? n = T.global? n := by
  obtain ⟨hlookup, hentry⟩ := h.other n hn
  unfold Table.global?
  rw [hlookup]
  cases hid : T.lookupGlobal? n with
  | none => rfl
  | some id => rw [Option.map_some, Option.map_some, hentry id hid]

theorem Enlists.global?_eq {id : EntryId} {w : Ir.Value}
    (h : Enlists name k T id w T') (hT : T.Sound) (hv : T.global? n = some v)
    (hplace : v.handle ≠ none) (hname : v.kind ≠ .func → name ≠ n) : T'.global? n = some v := by
  by_cases hn : n = name
  · subst hn
    obtain ⟨id', hid', rfl⟩ := Option.map_eq_some_iff.1 hv
    have hfunc : (T.entry id').kind = .func := by
      by_contra hkind
      exact hname hkind rfl
    cases h with
    | known => exact hv
    | placed hid _ hnone =>
      cases hid.symm.trans hid'
      exact absurd hnone hplace
    | implicit hno => exact absurd hfunc (hno id' hid')
  · exact (global?_of_changes (h.changes hT) hn).trans hv

/-- The global name `n` stands for `v`; if that is no function, nothing that is bound calls it. -/
structure Stands (n : String) (v : Entry) (t : State) : Prop where
  sound : t.table.Sound
  entry : t.table.global? n = some v
  uncalled : v.kind ≠ .func → ∀ p ∈ t.bindings, p.2.callee ≠ some n

theorem run_lowerQuad_ref (dst : Temp) (off : Int) (t : State) :
    lowerQuad (.ref dst .global n off) t = .ok () { t with
      bindings := (dst, globalBinding n (t.table.global? n)) :: t.bindings } :=
  run_bind_of_ok (run_lowerRef_global n t)

theorem callee_globalBinding (hkind : v.kind ≠ .func) (hplace : v.handle ≠ none) :
    (globalBinding n (some v)).callee = none := by
  obtain ⟨p, hp⟩ := Option.ne_none_iff_exists'.1 hplace
  unfold globalBinding
  cases hk : v.kind <;> simp_all [variableBinding]

theorem Makes.uncalled {is : List Ir.Instr} {new : Option (Temp × Binding)} {ns : List Notice}
    (h : Makes s q is new ns) (hs : ∀ p ∈ s.bindings, p.2.callee ≠ some n)
    (hq : ∀ dst off, q ≠ .ref dst .global n off) : ∀ p ∈ new.toList, p.2.callee ≠ some n := by
  have hbound : ∀ {t : Temp} {b : Binding}, s.bound t = some b → b.callee ≠ some n :=
    fun hb => hs _ (mem_of_lookup hb)
  cases h with
  | @ref dst storage name off b hb =>
    cases hb with
    | func hglobal =>
      have hname : name ≠ n := fun h => hq dst off (by rw [hglobal, h])
      simp only [Option.toList_some, mem_singleton, forall_eq, functionBinding]
      split <;> simp [hname]
    | global | slot => simp [variableBinding]
  | array ha => simpa using hbound ha
  | same hb => simpa using hbound hb
  | store _ _ hv hx =>
    cases hx with
    | keep hn => simpa [stored, hn] using hbound hv
    | convert k hn => simp [stored, hn]
  | _ => simp [computed]

theorem Stands.visit {w : Visit} (hran : w.Ran) (h : Stands n v w.before)
    (hplace : v.handle ≠ none) : Stands n v w.after := by
  obtain ⟨_, _, hmakes, hafter, -⟩ := hran.makes
  have htable : w.after.table.Sound ∧ w.after.table.global? n = some v := by
    have hcalling := hafter.calling
    generalize w.quad = q, w.instrs = is at hcalling
    cases hcalling with
    | other _ hsame => exact hsame ▸ ⟨h.sound, h.entry⟩
    | call he _ _ _ _ hcallee =>
      obtain ⟨c, hc, hname⟩ := hcallee
      refine ⟨(he.changes h.sound).sound, he.global?_eq h.sound h.entry hplace fun hk heq => ?_⟩
      exact h.uncalled hk _ (mem_of_lookup hc) (heq ▸ hname)
  refine ⟨htable.1, htable.2, fun hk => ?_⟩
  by_cases hq : ∃ dst off, w.quad = .ref dst .global n off
  · obtain ⟨dst, off, hq⟩ := hq
    have hrun : lowerQuad w.quad w.before = .ok () w.after := hran
    rw [hq, run_lowerQuad_ref, h.entry] at hrun
    injection hrun with _ hrun
    rw [← hrun]
    exact forall_mem_cons.2 ⟨by simp [callee_globalBinding hk hplace], h.uncalled hk⟩
  · rw [hafter.bindings]
    exact forall_mem_append.2 ⟨hmakes.uncalled (h.uncalled hk) fun dst off heq => hq ⟨dst, off, heq⟩,
      h.uncalled hk⟩

theorem Stands.runs (hrun : Runs s vs s') (h : Stands n v s) (hplace : v.handle ≠ none) :
    (∀ w ∈ vs, Stands n v w.before) ∧ Stands n v s' := by
  refine hrun.invariant (fun t t' hr ht => ?_) (fun w _ hran hw => hw.visit hran hplace) h
  rw [hr]
  exact ⟨ht.sound, ht.entry, ht.uncalled⟩

theorem global?_declareSlots (storage : Storage) (ds : List (Decl × Nat)) (hi : T.inner ≠ [])
    (hT : T.Sound) : (declareSlots storage ds T).inner ≠ [] ∧ (declareSlots storage ds T).Sound ∧
      (declareSlots storage ds T).global? n = T.global? n := by
  induction ds generalizing T with
  | nil => exact ⟨hi, hT, rfl⟩
  | cons x ds ih =>
    obtain ⟨hi', hT', hglobal⟩ := ih (T := declareSlot T storage x.1 x.2)
      (Table.inner_install_ne_nil hi) ((hT.install hi x.1.name).modifyEntry rfl)
    exact ⟨hi', hT', hglobal.trans (Table.global?_install hT hi _)⟩

theorem stands_openFunc (f : Func) (hT : s.table.Sound) (hv : s.table.global? n = some v) :
    Stands n v (openFunc f s) := by
  obtain ⟨hi, hT1, hglobal1⟩ := global?_declareSlots (n := n) .param f.formals.zipIdx
    (by simp [Table.enter]) hT.enter
  obtain ⟨-, hT2, hglobal2⟩ := global?_declareSlots (n := n) .stack f.locals.zipIdx hi hT1
  exact ⟨hT2, (hglobal2.trans hglobal1).trans hv, by simp [openFunc, enterFunc]⟩

theorem Reaches.stands (h : Reaches g s f vs q t) (hT : s.table.Sound)
    (hv : (declaredFaces g).lookup n = some v) :
    (∀ w ∈ vs, Stands n v w.before) ∧ Stands n v t := by
  obtain ⟨fs, rest, cs, t0, -, htrails, hrun, -⟩ := h
  obtain ⟨hsound, hglobal⟩ := global?_declaredTable g hT
  have hplace : v.handle ≠ none := by simp [(placed_of_declaredFaces hv).2]
  have hlast := (htrails.invariant (I := fun t => t.table.Sound ∧ t.table.global? n = some v)
    (fun f _ c t t' hleads ht => ?_) ⟨hsound, by simp [State.declared, hglobal, hv]⟩).2
  · exact (stands_openFunc f hlast.1 hlast.2).runs hrun hplace
  · have hfirst := stands_openFunc f ht.1 ht.2
    rw [← hleads.first] at hfirst
    have hend := (hfirst.runs hleads.of.run hplace).2
    rw [hleads.last]
    exact ⟨hend.sound.leave, hend.entry⟩

end Stands

/-! ## Variables -/

theorem declaredFaces_variable {n : String} {d : Decl}
    (hd : g.globals.reverse.find? (·.name == n) = some d) (hn : n ∉ g.funcs.map (·.name)) :
    ∃ v, (declaredFaces g).lookup n = some v ∧ globalBinding n (some v) =
      if n ∈ builtins.map (·.name) then functionBinding n
      else { val := .global n, ty := .ptr, elem := machineTy d.tag.base,
             isArray := d.tag.isArray } := by
  have hfuncs : (definedFaces g.funcs).lookup n = none := by
    rw [definedFaces, ← map_reverse, lookup_map_eq_find?, Option.map_eq_none_iff,
      find?_eq_none]
    simpa using hn
  have hvars : (variableFaces g.globals).lookup n =
      some (variableEntry d { name := d.name }).face := by
    rw [variableFaces, ← map_reverse, lookup_map_eq_find?, hd]
    rfl
  have hname : d.name = n := by simpa using find?_some hd
  rw [declaredFaces, lookup_append, lookup_append, hfuncs, hvars, builtinFaces, ← map_reverse,
    lookup_map_eq_find?]
  by_cases hb : n ∈ builtins.map (·.name)
  · obtain ⟨b, hb', rfl⟩ := mem_map.1 hb
    have hplain : b ∈ (plainBuiltins g).reverse :=
      mem_reverse.2 (mem_filter.2 ⟨hb', by simpa using hn⟩)
    have hsome : ((plainBuiltins g).reverse.find? (·.name == b.name)).isSome = true :=
      find?_isSome.2 ⟨b, hplain, beq_self_eq_true _⟩
    obtain ⟨c, hc⟩ := Option.isSome_iff_exists.1 hsome
    exact ⟨_, by rw [hc]; rfl, by rw [if_pos hb]; rfl⟩
  · refine ⟨(variableEntry d { name := d.name }).face, ?_, ?_⟩
    · rw [find?_eq_none.2 fun b hb' => ?_]
      · rfl
      · have hmem := mem_of_mem_filter (mem_reverse.1 hb')
        simpa using fun h : b.name = n => hb (h ▸ mem_map_of_mem hmem)
    · rw [if_neg hb]
      simp [globalBinding, Entry.face, variableEntry, variableBinding, hname]

theorem binding_ne_notAddress {y : Temp} {fn : String} :
    binding y t ≠ .error (.notAddress x fn) t' := by
  rw [run_binding]
  split <;> nofun

theorem notAddress_iff (hx : q.address? = some x)
    (hb : t.bound x = some b) : (∃ t', lowerQuad q t = .error (.notAddress x t.func) t') ↔
      b.ty ≠ .ptr ∨ b.callee.isSome = true := by
  have hbinding : binding x t = .ok b t := by
    rw [run_binding, show t.bindings.lookup x = some b from hb]
  have haddress : address x t =
      if b.ty ≠ .ptr ∨ b.callee.isSome = true then .error (.notAddress x t.func) t else .ok b t := by
    refine (run_bind_of_ok hbinding).trans ?_
    split <;> simp_all <;> rfl
  by_cases hbad : b.ty ≠ .ptr ∨ b.callee.isSome = true
  · rw [if_pos hbad] at haddress
    refine iff_of_true ⟨t, ?_⟩ hbad
    cases q <;> cases hx <;> exact run_bind_of_error haddress
  · rw [if_neg hbad] at haddress
    refine iff_of_false (fun ⟨t', ht'⟩ => ?_) hbad
    cases q with
    | load dst addr tag =>
      cases hx
      replace ht' := (run_bind_of_ok haddress).symm.trans ht'
      split at ht' <;> cases ht'
    | store dst addr val tag =>
      cases hx
      replace ht' := (run_bind_of_ok haddress).symm.trans ht'
      rcases bind_eq_error_iff.1 ht' with hval | ⟨v, s1, -, hrest⟩
      · exact binding_ne_notAddress hval
      · unfold coerce at hrest
        split at hrest <;> cases hrest
    | index dst base idx tag =>
      cases hx
      replace ht' := (run_bind_of_ok haddress).symm.trans ht'
      rcases bind_eq_error_iff.1 ht' with hidx | ⟨v, s1, -, hrest⟩
      · exact binding_ne_notAddress hidx
      · rw [run_get_bind] at hrest
        split at hrest <;> cases hrest
    | _ => cases hx

/-- What lowering makes of the references to a global variable, and of the accesses through them. -/
theorem globals_bound_iff {n : String} {d : Decl} (hT : s.table.Sound)
    (hd : g.globals.reverse.find? (·.name == n) = some d) (hn : n ∉ g.funcs.map (·.name)) :
    (∀ f vs q t, Reaches g s f vs q t →
      (∀ dst off, q = .ref dst .global n off → lowerQuad q t = .ok () { t with
        bindings := (dst, if n ∈ builtins.map (·.name) then functionBinding n
          else { val := .global n, ty := .ptr, elem := machineTy d.tag.base,
                 isArray := d.tag.isArray }) :: t.bindings }) ∧
      ∀ x w off, q.address? = some x → lastDefinition vs x = some w →
        w.quad = .ref x .global n off →
        ((∃ t', lowerQuad q t = .error (.notAddress x t.func) t') ↔ n ∈ builtins.map (·.name))) ∧
    ∀ e s', lower g s = .error e s' → (∃ f ∈ g.funcs, e = .noEntry f.name) ∨
      ∃ f vs q t t', Reaches g s f vs q t ∧ lowerQuad q t = .error e t' := by
  obtain ⟨v, hv, hbinding⟩ := declaredFaces_variable hd hn
  refine ⟨fun f vs q t hreach => ⟨?_, fun x w off hx hw hq => ?_⟩, fun e s' =>
    exists_reaches_of_error⟩
  · rintro dst off rfl
    rw [run_lowerQuad_ref, (hreach.stands hT hv).2.entry, hbinding]
  · obtain ⟨hstands, -⟩ := hreach.stands hT hv
    obtain ⟨_, _, _, _, -, -, hrun, -⟩ := hreach
    have hran : lowerQuad w.quad w.before = .ok () w.after :=
      hrun.ran w (lastDefinition_spec hw).1
    rw [hq, run_lowerQuad_ref, (hstands w (lastDefinition_spec hw).1).entry, hbinding] at hran
    injection hran with _ hran
    have hbound := hrun.bound x
    simp only [hw, Visit.given, hq, ← hran] at hbound
    rw [notAddress_iff hx (hbound.trans lookup_cons_self)]
    by_cases hbuiltin : n ∈ builtins.map (·.name)
    · have hne : n ≠ "" := by
        rintro rfl
        simp [builtins] at hbuiltin
      simp [hbuiltin, functionBinding, hne]
    · simp [hbuiltin]

def shadowedVariable : Flow.Graph where
  globals := [⟨"printf", .int, 4⟩, ⟨"x", .int, 4⟩]
  funcs :=
    [⟨"main", .int, [], [], [⟨"entry", [.ref ⟨1⟩ .global "x" 0, .load ⟨2⟩ ⟨1⟩ .int,
      .ref ⟨3⟩ .global "printf" 0, .load ⟨4⟩ ⟨3⟩ .int, .funcEnd], [], none⟩]⟩]

theorem shadowedVariable_bound : ∃ f t,
    Reaches shadowedVariable (.new {} .empty ⟨none, []⟩ "f") f [] (.ref ⟨1⟩ .global "x" 0) t ∧
      lowerQuad (.ref ⟨1⟩ .global "x" 0) t = .ok () { t with
        bindings := (⟨1⟩, { val := .global "x", ty := .ptr, elem := .word }) :: t.bindings } := by
  have hreach : ∃ f t, Reaches shadowedVariable (.new {} .empty ⟨none, []⟩ "f") f []
      (.ref ⟨1⟩ .global "x" 0) t :=
    ⟨_, _, [], [], [], _, rfl, .nil, .nil (.refl _), by decide⟩
  obtain ⟨f, t, hreach⟩ := hreach
  exact ⟨f, t, hreach, ((globals_bound_iff (d := ⟨"x", .int, 4⟩) Table.sound_empty (by decide)
    (by decide)).1 f [] _ t hreach).1 ⟨1⟩ 0 rfl⟩

/-- The variable with the name of a builtin cannot be read. -/
theorem shadowedVariable_refused : "printf" ∉ shadowedVariable.funcs.map (·.name) ∧
    (match lower shadowedVariable (.new {} .empty ⟨none, []⟩ "f") with
      | .ok _ _ => none
      | .error e _ => some e) = some (.notAddress ⟨3⟩ "main") :=
  ⟨by decide, by cbv⟩

end Lowering

end Quadruple
