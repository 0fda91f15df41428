import Quadruple.Proofs.Source.Lowered

/-!
# Well-formed programs go through

Main statement: `Program.WellFormed.goes_through`.
-/

namespace Quadruple.Source

open List
open Lowering hiding bind
open Symbols (Entry Table)
open Quadruple.Flow (Equations Routine Part Graph Block fuse?)

variable {p done : Program} {f : Func} {xs all : List (String × Storage × Tag)} {e : Nat}
  {K K' : Kinds} {T : Table} {s : State} {eqs : Equations} {settings : Settings} {r : Routine}
  {n : String}

/-! ## Blocks -/

theorem lowers_fillBlock : Lowers p xs e K fillBlock (fun _ => True) K := by
  intro s hs
  by_cases hempty : s.revInstrs.isEmpty = true
  · refine ⟨(), { s with
      fillers := s.fillers + 1
      revInstrs := { op := .copy, ty := .word, args := [.const 0]
                     result := some (.temp "noop" (s.fillers + 1 : Nat)) } :: s.revInstrs },
      ?_, trivial, hs.congr rfl rfl rfl rfl⟩
    show (ite (s.revInstrs.isEmpty = true) _ _ : LowerM Unit) s = _
    rw [if_pos hempty]
    rfl
  · refine ⟨(), s, ?_, trivial, hs⟩
    show (ite (s.revInstrs.isEmpty = true) _ _ : LowerM Unit) s = _
    rw [if_neg hempty]
    rfl

theorem lowers_closeBlock (g : Flow.Func) (b : Block) :
    Lowers p xs e K (closeBlock g b) (fun _ => True) K := by
  refine lowers_get fun s => lowers_ite (fun _ => ?_) fun _ => lowers_pure trivial
  split <;> exact lowers_addInstr _

theorem lowers_takeBlock (label : String) : Lowers p xs e K (takeBlock label) (fun _ => True) K :=
  fun _ hs => yields_modifyGet.2 ⟨trivial, hs.congr rfl rfl rfl rfl⟩

theorem lowers_block (hdone : done.vars ⊆ p.vars) (g : Flow.Func) {b : Block}
    (h : Checks (p.names done f) K b.quads K') (hq : ∀ q ∈ b.quads, inBlock q = true) :
    Lowers p f.scope e K (lowerBlock g b) (fun _ => True) K' := by
  refine lowers_ite (fun hend => ?_) fun _ => ?_
  · -- the end of the function defines nothing
    obtain rfl : K' = K := by
      have hquads : b.quads = [.funcEnd] := by
        unfold Block.isEndOnly at hend
        split at hend
        · assumption
        · cases hend
      rw [hquads] at h
      cases h with
      | cons hq hrest =>
        cases hq
        cases hrest
        rfl
    exact lowers_get fun s => (lowers_addInstr _).bind fun _ _ => lowers_takeBlock _
  · exact (lowers_checks hdone h hq).bind fun _ _ => lowers_fillBlock.bind fun _ _ =>
      (lowers_closeBlock g b).bind fun _ _ => lowers_takeBlock _

theorem lowers_blocks (hdone : done.vars ⊆ p.vars) (g : Flow.Func) {bs : List Block}
    (h : Checks (p.names done f) K (bs.flatMap (·.quads)) K')
    (hq : ∀ q ∈ bs.flatMap (·.quads), inBlock q = true) :
    Lowers p f.scope e K (bs.mapM (lowerBlock g)) (fun _ => True) K' := by
  induction bs generalizing K with
  | nil =>
    cases h
    exact lowers_pure trivial
  | cons b bs ih =>
    rw [flatMap_cons] at h hq
    obtain ⟨K1, hb, hbs⟩ := h.split
    rw [mapM_cons]
    refine (lowers_block hdone g hb fun q hm => hq q (mem_append_left _ hm)).bind fun _ _ =>
      (ih hbs fun q hm => hq q (mem_append_right _ hm)).bind fun _ _ => lowers_pure trivial

theorem lowers_warnUnreachable (g : Flow.Func) :
    Lowers p xs e K (warnUnreachable g) (fun _ => True) K := by
  intro s hs
  refine (yields_forM (I := fun _ t => Bound p xs e K t) hs fun b _ t ht => ?_).mono
    fun _ _ h => ⟨trivial, h⟩
  have hwarn : Lowers p xs e K (do
      if b.hasCode then
        warn .unreachableCode ⟨(← get).file, b.firstLine⟩ (.unreachableBlock b.label g.name))
      (fun _ => True) K :=
    lowers_ite (fun _ => lowers_get fun _ => lowers_warn _ _ _) fun _ => lowers_pure trivial
  exact (hwarn t ht).mono fun _ _ h => h.2

/-! ## Functions -/

theorem Serves.slot (h : Serves p xs T) {d : Decl} {x : String × Storage × Tag}
    (hx : Declares d x) (hnew : x.1 ∉ xs.map Prod.fst) (storage : Storage) (place : Nat) :
    Serves p (x :: xs) (declareSlot T storage d place) := by
  obtain ⟨l, hl⟩ := h.scope
  have hglobal : ∀ n, (declareSlot T storage d place).global? n = T.global? n :=
    fun n => Table.global?_install h.tidy.sound (by simp [hl]) _
  have hlocal : ∀ n, (declareSlot T storage d place).local? n = if n = d.name then
      some (slotEntry storage d place { name := d.name, level := 1 }).face else T.local? n :=
    fun n => Table.local?_install h.tidy hl _
  refine ⟨⟨h.tidy.install hl _, fun y hy => ?_, fun n sig hn => ?_⟩, ⟨_, Table.inner_install hl⟩,
    forall_mem_cons.2 ⟨⟨_, _, (hlocal x.1).trans (if_pos hx.1.symm), hx.2, rfl⟩, fun y hy => ?_⟩⟩
  · rw [hglobal]
    exact h.vars y hy
  · rw [hglobal]
    exact h.calls n sig hn
  · have hne : y.1 ≠ d.name := fun he => hnew (by rw [← hx.1, ← he]; exact mem_map_of_mem hy)
    rw [hlocal, if_neg hne]
    exact h.locals y hy

variable {ys : List (String × Storage × Tag)} {rest : List (Decl × Nat)} {ps : List Part}
  {g : Graph}

theorem Serves.mono (h : Serves p xs T) (hys : ys ⊆ xs) : Serves p ys T :=
  ⟨h.toOffers, h.scope, fun y hy => h.locals y (hys hy)⟩

/-- Some variables of `all` have slots; the others have theirs from the declarations `rest`. -/
def Allots (p : Program) (all : List (String × Storage × Tag)) (e : Nat)
    (rest : List (Decl × Nat)) (s : State) : Prop :=
  ∃ xs ys, Forall₂ (fun d y => Declares d.1 y) rest ys ∧ (ys ++ xs).Perm all ∧
    Bound p xs e .none s

theorem Allots.slot (hall : (all.map Prod.fst).Nodup) {d : Decl × Nat}
    (h : Allots p all e (d :: rest) s) (storage : Storage) :
    Yields (allocVariable storage d.1 d.2) s fun _ s' => Allots p all e rest s' := by
  obtain ⟨xs, ys, hys, hperm, hs⟩ := h
  cases hys with
  | @cons _ y _ ys hy hys =>
    have hnew : y.1 ∉ xs.map Prod.fst := by
      have hnodup := (hperm.map Prod.fst).nodup_iff.2 hall
      rw [cons_append, map_cons, nodup_cons, map_append] at hnodup
      exact fun hm => hnodup.1 (mem_append_right _ hm)
    refine ⟨_, _, run_allocVariable storage d.1 d.2 s, y :: xs, ys, hys, ?_, ?_⟩
    · exact (perm_middle).trans hperm
    · exact ⟨by rintro t k ⟨⟩, hs.table.slot hy hnew storage d.2, hs.defined, hs.errors⟩

theorem Allots.addInstr (h : Allots p all e rest s) (i : Ir.Instr) :
    Yields (Lowering.addInstr i) s fun _ s' => Allots p all e rest s' := by
  obtain ⟨xs, ys, hys, hperm, hs⟩ := h
  exact yields_modify.2 ⟨xs, ys, hys, hperm, hs.congr rfl rfl rfl rfl⟩

theorem Allots.bound (h : Allots p all e [] s) : Bound p all e .none s := by
  obtain ⟨xs, ys, hys, hperm, hs⟩ := h
  cases hys
  exact ⟨hs.temps, hs.table.mono hperm.symm.subset, hs.defined, hs.errors⟩

theorem Bound.allots {ds : List Decl} (h : Bound p xs e .none s) (hds : Forall₂ Declares ds ys)
    (hall : (ys ++ xs).Perm all) : Allots p all e ds.zipIdx s := by
  refine ⟨xs, ys, ?_, hall, h⟩
  rw [← forall₂_map_left_iff, zipIdx_map_fst]
  exact hds

structure Rests (p : Program) (e : Nat) (s : State) : Prop where
  table : Offers p s.table
  inner : s.table.inner = []
  defined : s.defined = p.funcs.map (·.name)
  errors : s.report.errorCount = e

theorem Rests.enter (h : Rests p e s) (g : Flow.Func) :
    Bound p [] e .none (enterFunc g s) := by
  refine ⟨by rintro t k ⟨⟩, ⟨⟨h.table.tidy.enter, h.table.vars, h.table.calls⟩, ⟨[], ?_⟩, by simp⟩,
    h.defined, h.errors⟩
  simp [enterFunc, Table.enter, h.inner]

theorem Bound.leave (h : Bound p xs e K s) : Rests p e { s with table := s.table.leave } := by
  obtain ⟨l, hl⟩ := h.table.scope
  refine ⟨⟨h.table.tidy.leave hl, h.table.vars, h.table.calls⟩, ?_, h.defined, h.errors⟩
  simp [Table.leave, hl]

theorem Made.declares {g : Flow.Func} (hr : Made p f r) (hg : r.Builds eqs g) :
    ∃ done : Program, done.vars ⊆ p.vars ∧ Forall₂ Declares g.formals f.params ∧
      Forall₂ Declares g.locals f.autos ∧
      ∃ K, Checks (p.names done f) .none (g.blocks.flatMap (·.quads)) K := by
  obtain ⟨done, ds, es, seg, K, hdone, hds, hes, hbody, hchecks⟩ := hr.body
  have hkeeps := Flow.keeps_of_builds hg
  have hseg : ∀ q ∈ seg, q.isDecl = false := hchecks.isDecl
  have hformal : seg.filterMap Quad.formal? = [] := by
    refine filterMap_eq_nil_iff.2 fun q hq => ?_
    cases q with
    | formalDecl d => exact absurd (hseg _ hq) (by simp [Quad.isDecl])
    | _ => rfl
  have hlocal : seg.filterMap Quad.local? = [] := by
    refine filterMap_eq_nil_iff.2 fun q hq => ?_
    cases q with
    | localDecl d => exact absurd (hseg _ hq) (by simp [Quad.isDecl])
    | _ => rfl
  have hformals : g.formals = ds := by
    rw [hkeeps.formals, hbody]
    simp [filterMap_append, hformal, Function.comp_def, Quad.formal?]
  have hlocals : g.locals = es := by
    rw [hkeeps.locals, hbody]
    simp [filterMap_append, hlocal, Function.comp_def, Quad.local?]
  have hdecls : ∀ q ∈ ds.map Quad.formalDecl ++ es.map Quad.localDecl, q.isDecl = true := by
    intro q hq
    rcases mem_append.1 hq with hq | hq
    all_goals
      obtain ⟨d, -, rfl⟩ := mem_map.1 hq
      rfl
  exact ⟨done, hdone, hformals ▸ hds, hlocals ▸ hes, K, checks_blocks hg hbody hdecls hchecks⟩

theorem yields_lowerBody {g : Flow.Func} (hr : Made p f r) (hg : r.Builds eqs g)
    (hscope : (f.scope.map Prod.fst).Nodup) (hs : Bound p [] e .none s) :
    Yields (lowerBody g) s fun _ s' => ∃ K, Bound p f.scope e K s' := by
  obtain ⟨done, hdone, hformals, hlocals, K, hchecks⟩ := hr.declares hg
  have hparams : (f.params.map Prod.fst).Nodup := by
    rw [Func.scope, map_append] at hscope
    exact hscope.of_append_left
  have hblocks : g.blocks.isEmpty = false := by
    obtain ⟨b, hb, -⟩ := (Flow.built_of_builds hg).entry
    rw [isEmpty_eq_false_iff]
    rintro hnil
    simp [hnil] at hb
  have hstart : Allots p f.params e g.formals.zipIdx s := hs.allots hformals (by simp)
  simp only [lowerBody, hblocks, Bool.false_eq_true, if_false, yields_bind, yields_pure]
  refine (yields_mapM hstart fun d _ t ht => ?_).mono fun _ s1 hs1 => ?_
  · refine yields_bind.2 ((ht.slot hparams .param).mono fun _ t1 ht1 => ?_)
    exact yields_bind.2 ((ht1.addInstr _).mono fun _ _ ht2 => yields_pure.2 ht2)
  have hmiddle : Allots p f.scope e g.locals.zipIdx s1 := hs1.bound.allots hlocals perm_append_comm
  refine (yields_forM hmiddle fun d _ t ht => ?_).mono fun _ s2 hs2 => ?_
  · exact yields_bind.2 ((ht.slot hscope .stack).mono fun _ _ ht1 => yields_pure.2 ht1)
  refine (lowers_blocks hdone g hchecks (inBlock_of_builds hg) s2 hs2.bound).mono ?_
  rintro _ s3 ⟨-, hs3⟩
  exact (lowers_warnUnreachable g s3 hs3).mono fun _ _ h => ⟨K, h.2⟩

theorem yields_lowerFunc {g : Flow.Func} (hr : Made p f r) (hg : r.Builds eqs g)
    (hscope : (f.scope.map Prod.fst).Nodup) (hs : Rests p e s) :
    Yields (lowerFunc g) s fun _ s' => Rests p e s' := by
  obtain ⟨a, s', hrun, K, hs'⟩ := yields_lowerBody hr hg hscope (hs.enter g)
  refine ⟨a, { s' with table := s'.table.leave }, ?_, hs'.leave⟩
  rw [run_lowerFunc, hrun]

/-! ## Declarations -/

section Lookup

variable {α : Type} {l : List α} {key : α → String} {val : α → Entry}

theorem lookup_faces {a : α} (hl : (l.map key).Nodup) (ha : a ∈ l) :
    (l.map fun a => (key a, val a)).reverse.lookup (key a) = some (val a) := by
  refine lookup_of_mem ?_ (mem_reverse.2 (mem_map.2 ⟨a, ha, rfl⟩))
  rw [map_reverse, map_map, nodup_reverse]
  exact hl

theorem lookup_faces_eq_none (hn : n ∉ l.map key) :
    (l.map fun a => (key a, val a)).reverse.lookup n = none := by
  rw [lookup_eq_none, map_reverse, map_map, mem_reverse]
  exact hn

end Lookup

/-- Nothing but functions of type int is known of the names that the program does not declare. -/
def Unspoken (p : Program) (T : Table) : Prop :=
  ∀ n v, n ∉ p.vars.map (·.name) → n ∉ p.funcs.map (·.name) → T.global? n = some v →
    v.kind = .func ∧ v.handle = none ∧ v.tag = .int

structure Reflects (p : Program) (g : Flow.Graph) : Prop where
  vars : Forall₂ (fun (d : Decl) (v : Var) => d.name = v.name ∧ d.tag = v.tag) g.globals p.vars
  funcs : Forall₂ (fun (h : Flow.Func) (f : Func) => h.name = f.name ∧ h.tag = f.ty.tag ∧
    h.formals.length = f.formals.length) g.funcs p.funcs

theorem Program.signature?_of_foreign {sig : Signature} (hn : n ∉ p.funcs.map (·.name))
    (h : p.signature? n = some sig) : sig.ty = .int := by
  have hfind : p.funcs.find? (·.name == n) = none := by
    refine find?_eq_none.2 fun f hf he => hn ?_
    exact beq_iff_eq.1 he ▸ mem_map_of_mem hf
  unfold Program.signature? at h
  split at h
  · cases h
  · rw [hfind] at h
    exact (Option.some.inj h) ▸ rfl

section Offers

theorem Reflects.names (hg : Reflects p g) :
    g.globals.map (·.name) = p.vars.map (·.name) ∧ g.funcs.map (·.name) = p.funcs.map (·.name) := by
  constructor
  · rw [← forall₂_eq_eq_eq, forall₂_map_left_iff, forall₂_map_right_iff]
    exact hg.vars.imp fun _ _ h => h.1
  · rw [← forall₂_eq_eq_eq, forall₂_map_left_iff, forall₂_map_right_iff]
    exact hg.funcs.imp fun _ _ h => h.1

theorem plainBuiltins_subset (h : n ∈ (plainBuiltins g).map (·.name)) :
    n ∈ builtins.map (·.name) := by
  obtain ⟨b, hb, rfl⟩ := mem_map.1 h
  exact mem_map_of_mem (mem_of_mem_filter hb)

theorem lookup_var (hp : p.WellFormed settings) (hg : Reflects p g) {x : Var} (hx : x ∈ p.vars) :
    ∃ d : Decl, d.tag = x.tag ∧ (declaredFaces g).lookup x.name =
      some (variableEntry d { name := d.name }).face := by
  obtain ⟨hvars, hfuncs⟩ := hg.names
  obtain ⟨hfunc, hbuiltin⟩ := hp.apart x hx
  obtain ⟨d, hd, hname, htag⟩ := exists_of_forall₂ hg.vars hx
  refine ⟨d, htag, ?_⟩
  have hnone : x.name ∉ (plainBuiltins g).map (·.name) := fun hm => hbuiltin (plainBuiltins_subset hm)
  rw [declaredFaces, lookup_append, lookup_append, builtinFaces, definedFaces,
    variableFaces, lookup_faces_eq_none hnone, lookup_faces_eq_none (hfuncs ▸ hfunc), ← hname,
    lookup_faces (hvars ▸ hp.vars) hd]
  rfl

theorem lookup_func (hp : p.WellFormed settings) (hg : Reflects p g) (hf : f ∈ p.funcs) :
    ∃ h : Flow.Func, h.tag = f.ty.tag ∧ h.formals.length = f.formals.length ∧
      (declaredFaces g).lookup f.name = some (definedEntry h { name := h.name }).face := by
  obtain ⟨hvars, hfuncs⟩ := hg.names
  obtain ⟨h, hh, hname, htag, hlen⟩ := exists_of_forall₂ hg.funcs hf
  refine ⟨h, htag, hlen, ?_⟩
  have hnone : f.name ∉ (plainBuiltins g).map (·.name) := by
    intro hm
    obtain ⟨b, hb, hbn⟩ := mem_map.1 hm
    have hnot := (mem_filter.1 hb).2
    rw [hbn, hfuncs, Bool.not_eq_true', contains_eq_mem, decide_eq_false_iff_not] at hnot
    exact hnot (mem_map_of_mem hf)
  rw [declaredFaces, lookup_append, lookup_append, builtinFaces, definedFaces,
    lookup_faces_eq_none hnone, ← hname, lookup_faces (hfuncs ▸ hp.funcs) hh]
  rfl

theorem lookup_builtin (hg : Reflects p g) {b : Ir.Foreign} (hb : b ∈ builtins)
    (hn : b.name ∉ p.funcs.map (·.name)) :
    (declaredFaces g).lookup b.name = some (builtinEntry b { name := b.name }).face := by
  obtain ⟨hvars, hfuncs⟩ := hg.names
  have hmem : b ∈ plainBuiltins g := by
    refine mem_filter.2 ⟨hb, ?_⟩
    rw [hfuncs, Bool.not_eq_true', contains_eq_mem, decide_eq_false_iff_not]
    exact hn
  have hnodup : ((plainBuiltins g).map (·.name)).Nodup :=
    Nodup.sublist (filter_sublist.map _) (by decide)
  rw [declaredFaces, lookup_append, lookup_append, builtinFaces, lookup_faces hnodup hmem]
  rfl

theorem lookup_other (hg : Reflects p g) (hvar : n ∉ p.vars.map (·.name))
    (hfunc : n ∉ p.funcs.map (·.name)) (hbuiltin : n ∉ builtins.map (·.name)) :
    (declaredFaces g).lookup n = none := by
  obtain ⟨hvars, hfuncs⟩ := hg.names
  have hnone : n ∉ (plainBuiltins g).map (·.name) := fun hm => hbuiltin (plainBuiltins_subset hm)
  rw [declaredFaces, lookup_append, lookup_append, builtinFaces, definedFaces,
    variableFaces, lookup_faces_eq_none hnone, lookup_faces_eq_none (hfuncs ▸ hfunc),
    lookup_faces_eq_none (hvars ▸ hvar)]
  rfl

theorem ret_of_builtin : ∀ b ∈ builtins, b.ret = .word ∨ b.ret = .none := by decide

theorem offers_declared {T0 : Table} (hp : p.WellFormed settings) (hg : Reflects p g)
    (h0 : Unspoken p T0) (hT : T.Tidy)
    (hglobal : ∀ n, T.global? n = ((declaredFaces g).lookup n).or (T0.global? n)) :
    Offers p T := by
  refine ⟨hT, fun x hx => ?_, fun n sig hsig => ?_⟩
  · obtain ⟨d, htag, hlook⟩ := lookup_var hp hg hx
    have hseen : T.global? x.name = some (variableEntry d { name := d.name }).face := by
      rw [hglobal, hlook, Option.some_or]
    exact ⟨_, .global d.name, hseen, rfl, htag, rfl⟩
  · rw [hglobal]
    by_cases hfunc : n ∈ p.funcs.map (·.name)
    · obtain ⟨f, hf, rfl⟩ := mem_map.1 hfunc
      obtain ⟨h, htag, hlen, hlook⟩ := lookup_func hp hg hf
      have helem : machineTy h.tag.base = f.ty.machine := by rw [htag, machineTy_base]
      rw [hlook, Option.some_or, Program.signature?_of_func hp.funcs hf hsig]
      exact ⟨rfl, by rintro ⟨⟩, fun _ => .inl helem, fun _ => ⟨_, rfl, congrArg _ hlen⟩⟩
    · have hint := Program.signature?_of_foreign hfunc hsig
      by_cases hbuiltin : n ∈ builtins.map (·.name)
      · obtain ⟨b, hb, rfl⟩ := mem_map.1 hbuiltin
        rw [lookup_builtin hg hb hfunc, Option.some_or]
        refine ⟨rfl, by rintro ⟨⟩, fun _ => ?_, fun hm => absurd hm hfunc⟩
        rw [hint]
        exact (ret_of_builtin b hb).imp id fun h => ⟨h, rfl⟩
      · have hvar := Program.notMem_vars_of_signature? hsig
        rw [lookup_other hg hvar hfunc hbuiltin, Option.none_or]
        cases hv : T0.global? n with
        | none => exact ⟨hint, hfunc⟩
        | some v =>
          obtain ⟨hk, hhandle, htag⟩ := h0 n v hvar hfunc hv
          refine ⟨hk, fun _ => ?_, fun hne => absurd hhandle hne, fun hm => absurd hm hfunc⟩
          rw [htag, hint]
          rfl

end Offers

/-! ## Programs -/

theorem Program.FuncsWellFormed.func {rest : Program}
    (h : p.FuncsWellFormed settings done rest) (hf : f ∈ rest.funcs) :
    ∃ Γ, f.WellFormed settings Γ := by
  induction rest generalizing done with
  | nil => cases hf
  | cons item rest ih =>
    cases item with
    | var v => exact ih h hf
    | func g =>
      rcases mem_cons.1 hf with rfl | hf
      · exact ⟨_, h.1⟩
      · exact ih h.2 hf

theorem forall₂_of_makes {items : Program} (h : Forall₂ (Item.Makes p) items ps) :
    Forall₂ (fun (d : Decl) (v : Var) => d.name = v.name ∧ d.tag = v.tag)
      (ps.filterMap Part.global?) items.vars ∧
    Forall₂ (Made p) items.funcs (ps.filterMap Part.routine?) := by
  induction h with
  | nil => exact ⟨.nil, .nil⟩
  | @cons item part items ps hmakes _ ih =>
    cases item with
    | var v =>
      cases part with
      | global d => exact ⟨.cons hmakes ih.1, ih.2⟩
      | func r => cases hmakes
    | func f =>
      cases part with
      | global d => cases hmakes
      | func r => exact ⟨ih.1, .cons hmakes.1 ih.2⟩

structure Stems (p : Program) (eqs : Equations) (g : Flow.Graph) : Prop where
  vars : Forall₂ (fun (d : Decl) (v : Var) => d.name = v.name ∧ d.tag = v.tag) g.globals p.vars
  funcs : Forall₂ (fun (h : Flow.Func) (f : Func) => ∃ r, Made p f r ∧ r.Builds eqs h)
    g.funcs p.funcs

theorem stems_of_makes {code : List Quad} (hps : Forall₂ (Item.Makes p) p ps)
    (hcode : code = ps.flatMap Part.quads)
    (hg : Flow.build code = .ok g) : Stems p (code.filterMap Quad.equation?) g := by
  obtain ⟨hvars, hfuncs⟩ := forall₂_of_makes hps
  have hfused : ∀ r, .func r ∈ ps → (fuse? r.body).isSome = true := by
    intro r hr
    obtain ⟨item, -, hitem⟩ := exists_of_forall₂ hps hr
    cases item with
    | var v => cases hitem
    | func f => exact hitem.2
  obtain ⟨hglobals, hroutines⟩ := Flow.content_parts hfused
  obtain ⟨hg1, hg2⟩ := Flow.builds_of_build hg
  refine ⟨?_, ?_⟩
  · rw [hg1, hcode, hglobals]
    exact hvars
  · have hroutines' : Flow.routines code = ps.filterMap Part.routine? := by rw [hcode, hroutines]
    rw [hroutines'] at hg2
    refine (forall₂_through hfuncs.flip hg2).flip.imp ?_
    rintro h f ⟨r, hr, hh⟩
    exact ⟨r, hr, hh⟩

theorem Stems.reflects (h : Stems p eqs g) : Reflects p g := by
  refine ⟨h.vars, h.funcs.imp ?_⟩
  rintro q f ⟨r, hr, hq⟩
  have hkeeps := Flow.keeps_of_builds hq
  obtain ⟨-, -, hformals, -⟩ := hr.declares hq
  refine ⟨hkeeps.name.trans hr.name, hkeeps.tag.trans hr.tag, ?_⟩
  rw [hformals.length_eq, Func.params, length_map]

theorem yields_lower (hp : p.WellFormed settings) (hg : Stems p eqs g)
    (htidy : s.table.Tidy) (hinner : s.table.inner = []) (hopen : Unspoken p s.table) :
    Yields (lower g) s fun _ s' => s'.report.errorCount = s.report.errorCount := by
  obtain ⟨T, hrun, hT, hTinner, hglobal⟩ := exists_declared g htidy
  let e := s.report.errorCount
  have hrests : Rests p e (s.declared g T) :=
    ⟨offers_declared hp hg.reflects hopen hT hglobal, hTinner.trans hinner, hg.reflects.names.2, rfl⟩
  have hfuncs : Yields (lowerFuncs g (g.globals.map globalData)) (s.declared g T)
      fun _ s' => s'.report.errorCount = e := by
    simp only [lowerFuncs, yields_bind, yields_get, yields_pure]
    let I (rest : List Flow.Func) (t : State) : Prop := rest ⊆ g.funcs ∧ Rests p e t
    refine (yields_mapM (I := I) ⟨fun _ h => h, hrests⟩ ?_).mono fun _ _ h => h.2.errors
    rintro q rest t ⟨hsub, ht⟩
    obtain ⟨f, hf, r, hr, hq⟩ := exists_of_forall₂ hg.funcs.flip (hsub mem_cons_self)
    obtain ⟨Γ, hwf⟩ := hp.bodies.func hf
    refine (yields_lowerFunc hr hq hwf.distinct ht).mono fun _ t' ht' => ?_
    exact ⟨fun x hx => hsub (mem_cons_of_mem _ hx), ht'⟩
  obtain ⟨a, t, hx, ht⟩ := hfuncs
  exact ⟨a, t, hrun.trans hx, ht⟩

/-- The table of the emitter knows no more than int functions of the names that the program does
not declare. -/
theorem Knows.unspoken (h : Knows p p T) : Unspoken p T := by
  intro n v hvar hfunc hv
  obtain ⟨id, hid, rfl⟩ := Option.map_eq_some_iff.1 hv
  rcases h.others n hvar hfunc with hnone | ⟨id', sig, hid', hentry, -⟩
  · rw [hnone] at hid
    cases hid
  · cases hid.symm.trans hid'
    rw [hentry]
    exact ⟨rfl, rfl, rfl⟩

/-- Between functions each blank that was handed out has one equation, and there are no others. -/
theorem Idle.count_equations {s : Emit.State} (h : Idle settings s) (b : Int) :
    ((s.code.toList.filterMap Quad.equation?).map Prod.fst).count b =
      if 1 ≤ b ∧ b ≤ s.blanks then 1 else 0 := by
  have hkeys : (s.code.toList.filterMap Quad.equation?).map Prod.fst =
      (s.patched.map Prod.fst).reverse.map fun n : Nat => (n : Int) := by
    rw [h.equations, map_map, map_reverse, map_reverse, map_map]
    rfl
  rw [hkeys]
  by_cases hb : 0 ≤ b
  · obtain ⟨n, rfl⟩ := Int.eq_ofNat_of_zero_le hb
    have hcount := count_map_of_injective (s.patched.map Prod.fst).reverse
      (fun n : Nat => (n : Int)) (fun _ _ => Int.ofNat.inj) n
    rw [hcount, count_reverse, h.blanks]
    congr 1
    simp only [eq_iff_iff]
    omega
  · rw [if_neg (by omega), count_eq_zero]
    intro hm
    obtain ⟨n, -, rfl⟩ := mem_map.1 hm
    exact hb (by omega)

/-- A well-formed program goes through emission, building and lowering without a fault and without
an error. Its code has one equation for each blank that was handed out. Lowering may use a table of
its own or go on with that of the emitter. -/
theorem Program.WellFormed.goes_through (hp : p.WellFormed settings) (report : Report) :
    ∃ ts s g, p.emit (Emit.State.new settings .empty report) = .ok ts s ∧
      s.report.errorCount = report.errorCount ∧
      (∀ b : Int, ((s.code.toList.filterMap Quad.equation?).map Prod.fst).count b =
        if 1 ≤ b ∧ b ≤ s.blanks then 1 else 0) ∧
      Flow.build s.code.toList = .ok g ∧
      ∀ table ∈ [Table.empty, s.table], ∀ (settings' : Settings) (report' : Report) (file : String),
        ∃ q t, lower g (.new settings' table report' file) = .ok q t ∧
          t.report.errorCount = report'.errorCount := by
  have hadm : ∀ f ∈ p.funcs, f.Admitted settings := fun f hf => by
    obtain ⟨Γ, hwf⟩ := hp.bodies.func hf
    exact hwf.admitted
  obtain ⟨ts, s, hrun, hidle, -, g, hg, -⟩ := Program.exists_graph hadm .empty report
  obtain ⟨hk, hinner, herrors, ps, hcode, hps⟩ := Program.emit_checked hp report ts s hrun
  have hstems := stems_of_makes hps hcode hg
  refine ⟨ts, s, g, hrun, herrors, hidle.count_equations, hg, ?_⟩
  intro table htable settings' report' file
  have htable' : table.Tidy ∧ table.inner = [] ∧ Unspoken p table := by
    rcases List.mem_cons.1 htable with rfl | htable
    · exact ⟨Table.tidy_empty, rfl, by rintro n v - - ⟨⟩⟩
    · obtain rfl := List.mem_singleton.1 htable
      exact ⟨⟨hk.sound, by simp [hinner]⟩, hinner, hk.unspoken⟩
  obtain ⟨htidy, hinner', hopen⟩ := htable'
  exact yields_lower (s := .new settings' table report' file) hp hstems htidy hinner' hopen

/-- A loop over a global array with a `break` and a `goto` out of it, and calls of a function of
the program and of a builtin. -/
def halves : Program :=
  [.var ⟨"n", .int, 1⟩, .var ⟨"a", .double, 3⟩,
    .func
      { name := "half", ty := .double, formals := [("x", .double)], locals := []
        body := .ret (some (.arith ⟨"/", by decide⟩ (.read "x") (.const "2.0"))) },
    .func
      { name := "main", ty := .int, formals := [], locals := [⟨"i", .int, 1⟩]
        body := .seq
          (.while (.both (.test (.compare ⟨"<", by decide⟩ (.read "i") (.const "3")))
              (.not (.test (.nonzero (.read "n")))))
            (.seq (.act [.assign (.arith ⟨"-", by decide⟩) (.element "a" (.read "i"))
                (.call "half" [.cast .double (.read "i")])])
              (.ifElse (.test (.nonzero (.readAt "a" (.const "0")))) .break (.goto "end"))))
          (.seq (.label "end") (.ret (some (.call "printf" [.string "%d", .read "a"])))) }]

theorem halves_wellFormed : halves.WellFormed {} := by
  have hint : ∀ n : Nat, n < 10 → IsConstant (Numeral.decimalText n) .int := fun n hn =>
    ⟨n, by unfold Numeral.InRange; omega, rfl⟩
  have hhalf : IsConstant "2.0" .double :=
    ⟨by decide +kernel, Option.isSome_iff_exists.1 (by decide +kernel)⟩
  refine ⟨by decide, by decide, by decide, ⟨by decide, ⟨⟨?_, by decide, ?_, by decide⟩, by decide⟩, ?_⟩,
    ⟨by decide, ⟨⟨?_, by decide, ?_, by decide⟩, by decide⟩, ?_⟩, trivial⟩
  · simp [Stmt.Enclosed]
  · simp [WithinLimits, Stmt.forwards, atHead]
  · rintro _ ⟨⟩
    exact ⟨.double, .double, .double, ⟨.param, by decide⟩, hhalf, rfl, by decide⟩
  · simp [Stmt.Enclosed]
  · simp [WithinLimits, Stmt.forwards, atHead]
  · refine ⟨⟨⟨⟨.int, .int, ⟨.stack, rfl⟩, hint 3 (by decide)⟩, .int, .global, rfl⟩,
      fun a ha => ?_, ⟨.double, ⟨.global, rfl⟩, .int, hint 0 (by decide)⟩, trivial, trivial⟩,
      trivial, ?_⟩
    · obtain rfl := mem_singleton.1 ha
      exact ⟨.double, .double, ⟨⟨.global, rfl⟩, .int, .stack, rfl⟩,
        ⟨⟨.double, some 1⟩, rfl, rfl, by decide,
          .inl ⟨.double, rfl, .int, .stack, rfl⟩, trivial⟩, by decide⟩
    · rintro _ ⟨⟩
      exact ⟨.int, ⟨.int, none⟩, rfl, rfl, by decide, .inr (.inl ⟨_, rfl⟩),
        .inr (.inr ⟨_, .double, rfl, .global, rfl⟩), trivial⟩

/-- It goes through with either table. -/
theorem halves_goes_through : halves.WellFormed {} ∧
    ∃ ts s g, halves.emit (Emit.State.new {} .empty ⟨none, []⟩) = .ok ts s ∧
      s.report.errorCount = 0 ∧
      (∀ b : Int, ((s.code.toList.filterMap Quad.equation?).map Prod.fst).count b =
        if 1 ≤ b ∧ b ≤ s.blanks then 1 else 0) ∧
      Flow.build s.code.toList = .ok g ∧
      ∀ table ∈ [Table.empty, s.table], ∀ (settings' : Settings) (report' : Report) (file : String),
        ∃ q t, lower g (.new settings' table report' file) = .ok q t ∧
          t.report.errorCount = report'.errorCount :=
  ⟨halves_wellFormed, halves_wellFormed.goes_through ⟨none, []⟩⟩

end Quadruple.Source
