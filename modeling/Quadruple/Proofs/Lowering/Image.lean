import Quadruple.Proofs.Lowering.Translation

/-!
# The image of a function of integer code

Main statement: `images_of_lower`. When lowering succeeds, every block of the function has become a
block that holds the translations of its instructions one behind the other, all with regard to one
table of bindings: the last one, since every temporary is defined once.
-/

namespace Quadruple.Lowering

open List
open Quadruple.Flow (Var Func Block Point)
open Symbols (Table)

/-- The instructions `is` are the translation of `q`, its result is bound as it says, and `q` does
not use its own result. -/
def Became (decl? : Var → Option Decl) (B : Temp → Option Binding) (q : Quad)
    (is : List Ir.Instr) : Prop :=
  ∃ new, Translates decl? B q is new ∧ (∀ p ∈ new, B p.1 = some p.2) ∧
    ∀ t ∈ q.uses, q.dst? ≠ some t

/-! ## What temporaries are bound to -/

def Feeds (f : Func) (d t : Temp) : Prop :=
  ∀ p, f.Defines p t → ∃ p', f.Defines p' d ∧ f.Dominates p' p

structure Fits (globals : List Decl) (f : Func) (t : Temp) (b : Binding) : Prop where
  ty : (b.ty = .ptr ∧ ∃ p q, f.quadAt? p = some q ∧ q.dst? = some t ∧ q.makesAddress = true) ∨
    (b.ty = .word ∧ b.isArray = false)
  array : b.isArray = true → f.NamesArray globals t
  val : (∃ n, b.val = .const n) ∨ (∃ x d, f.decl? globals x = some d ∧ b.val = place x) ∨
    ∃ d, b.val = tempValue d ∧ Feeds f d t

section

variable {globals : List Decl} {f : Func} {s : State} {T : Table}

theorem Feeds.refl (t : Temp) : Feeds f t t := fun p hp => ⟨p, hp, Func.dominates_self p⟩

variable {B : Temp → Option Binding} {t : Temp} {v : Visit} {storage : Storage} {s' : State}
  {c : Trail}

theorem fits_of_translates (hf : f.IntegerCode globals)
    (hB : ∀ t b, B t = some b → Fits globals f t b) {p : Point} {q : Quad}
    (hq : f.quadAt? p = some q) {is : List Ir.Instr} {b : Binding}
    (h : Translates (f.decl? globals) B q is (some (t, b))) : Fits globals f t b := by
  cases h with
  | const => exact ⟨.inr ⟨rfl, rfl⟩, by simp, .inl ⟨_, rfl⟩⟩
  | ref hr =>
    obtain ⟨e, he, -⟩ := hf.refs p _ _ _ _ hq
    refine ⟨.inl ⟨hr.ty, p, _, hq, rfl, rfl⟩, fun ha => ?_, .inr (.inl ⟨_, e, he, hr.val⟩)⟩
    obtain ⟨d, hd, hda⟩ := hr.array ha
    exact ⟨p, _, _, _, d, hq, hd, hda⟩
  | array ha harr =>
    -- reading a whole array is not integer code
    exact absurd ((hB _ _ ha).array harr) (hf.accesses p _ hq _ (by simp [Quad.accesses]))
  | @store _ addr val tag a _ ha hty hv =>
    have hfit := hB _ _ hv
    have hword : b.ty = .word ∧ b.isArray = false := by
      rcases hfit.ty with ⟨-, p', q', hq', hdst, haddr⟩ | hword
      · rw [hf.words p _ hq val (by simp [Quad.words]) p' q' hq' hdst] at haddr
        cases haddr
      · exact hword
    refine ⟨.inr hword, by simp [hword.2], ?_⟩
    rcases hfit.val with hn | hx | ⟨d, hd, hfeeds⟩
    · exact .inl hn
    · exact .inr (.inl hx)
    · refine .inr (.inr ⟨d, hd, fun p' hp' => ?_⟩)
      -- the store is the only instruction that defines its result, and what it stores is there
      obtain rfl : p = p' := hf.once p p' _ ⟨_, hq, rfl⟩ hp'
      obtain ⟨pv, hpv, hdom⟩ := hf.dominated p _ hq val (by simp [Quad.uses, Quad.words])
      obtain ⟨pd, hpd, hdom'⟩ := hfeeds pv hpv
      exact ⟨pd, hpd, hdom'.trans hdom⟩
  | index | wideIndex =>
    exact ⟨.inl ⟨rfl, p, _, hq, rfl, rfl⟩, by simp, .inr (.inr ⟨_, rfl, .refl _⟩)⟩
  | load | neg | not | binary =>
    exact ⟨.inr ⟨rfl, rfl⟩, by simp [wordBinding], .inr (.inr ⟨_, rfl, .refl _⟩)⟩

/-! ## Instructions one after the other -/

structure Ready (globals : List Decl) (f : Func) (s : State) : Prop where
  ret : s.ret = .word
  fits : ∀ t b, s.bound t = some b → Fits globals f t b
  refs : ∀ p dst storage name offset, f.quadAt? p = some (.ref dst storage name offset) →
    ∃ d, f.decl? globals (.ofRef storage name) = some d ∧
      Locates s.table d (.ofRef storage name)

theorem Ready.integral (h : Ready globals f s) : Integral s := by
  refine ⟨h.ret, fun t b hb hd => ?_⟩
  rcases (h.fits t b hb).ty with ⟨hty, -⟩ | ⟨hty, -⟩ <;> rw [hd] at hty <;> cases hty

section

variable (hf : f.IntegerCode globals) (h : Ready globals f v.before) (hran : v.Ran)
  (hq : f.quadAt? v.point = some v.quad)
include hf h hran hq

theorem Ready.translates : ∃ new,
      Translates (f.decl? globals) v.before.bound v.quad v.instrs new ∧
        v.given = new.map Prod.snd ∧ v.after.table = v.before.table := by
  have hint := hf.quads _ _ hq
  obtain ⟨new, ns, hmakes, hafter, hgiven, -⟩ := hran.makes
  refine ⟨new, hmakes.translates h.integral hint fun dst storage name offset href => ?_, hgiven, ?_⟩
  · exact h.refs _ _ _ _ _ (hq.trans (congrArg some href))
  · have hcalling := hafter.calling
    generalize v.quad = q, v.instrs = is at hcalling hint
    cases hcalling with
    | other _ htable => exact htable
    | call => cases hint

theorem Ready.visit : Ready globals f v.after := by
  obtain ⟨new, ht, hgiven, htable⟩ := h.translates hf hran hq
  obtain ⟨_, _, _, hafter, -⟩ := hran.makes
  refine ⟨hafter.ret.trans h.ret, fun t b hb => ?_, htable ▸ h.refs⟩
  rw [hran.bound] at hb
  split at hb
  · rename_i hd
    rw [hgiven] at hb
    rw [← ht.dst] at hd
    obtain ⟨x, rfl, rfl⟩ := Option.map_eq_some_iff.1 hb
    cases hd
    exact fits_of_translates hf h.fits hq ht
  · exact h.fits t b hb

end

/-! ## All instructions of a function -/

section

variable (h : c.Of f) (hf : f.IntegerCode globals)

include h hf

theorem Trail.Of.last_bound {e : Visit} (he : e ∈ c.visits)
    (hd : e.quad.dst? = some t) : c.last.bound t = e.given := by
  rw [h.run.bound]
  cases hlast : lastDefinition c.visits t with
  | none =>
    unfold lastDefinition at hlast
    have := find?_eq_none.1 hlast e (mem_reverse.2 he)
    simp [hd] at this
  | some e' =>
    obtain ⟨he', hd'⟩ := lastDefinition_spec hlast
    have hpoint := hf.once _ _ t ⟨_, h.quadAt? he', hd'⟩ ⟨_, h.quadAt? he, hd⟩
    rw [h.eq_of_point he' he hpoint]

/-- The instructions of a function became their translations with regard to its last bindings. -/
theorem Trail.Of.became (hready : Ready globals f c.first) :
    (∀ t b, c.last.bound t = some b → Fits globals f t b) ∧
      ∀ v ∈ c.visits, Became (f.decl? globals) c.last.bound v.quad v.instrs := by
  obtain ⟨hvisits, hlast⟩ := h.run.invariant (I := Ready globals f)
    (fun t t' hr ht => by
      rw [hr]
      exact ⟨ht.ret, ht.fits, ht.refs⟩)
    (fun v hv hran ht => ht.visit hf hran (h.quadAt? hv)) hready
  refine ⟨hlast.fits, fun v hv => ?_⟩
  obtain ⟨new, ht, hgiven, -⟩ := (hvisits v hv).translates hf (h.run.ran v hv) (h.quadAt? hv)
  refine ⟨new, ht.mono fun t b hb => ?_, fun x hx => ?_, fun t hu hd => ?_⟩
  · obtain ⟨vs, ws, e, hvs, he, hgiven⟩ := h.bound_before hv hb
    obtain ⟨hmem, hd⟩ := lastDefinition_spec he
    rw [h.last_bound hf (hvs ▸ mem_append_left _ hmem) hd, hgiven]
  · obtain rfl := Option.mem_def.1 hx
    rw [h.last_bound hf hv ht.dst.symm, hgiven]
    rfl
  · -- what is used was bound in front of the instruction, by another one
    obtain ⟨b, hb⟩ := ht.uses t hu
    obtain ⟨vs, ws, e, hvs, he, -⟩ := h.bound_before hv hb
    obtain ⟨hmem, hd'⟩ := lastDefinition_spec he
    have hemem : e ∈ c.visits := hvs ▸ mem_append_left _ hmem
    exact h.point_ne hvs e hmem (hf.once _ _ t ⟨_, h.quadAt? hemem, hd'⟩ ⟨_, h.quadAt? hv, hd⟩)

end

/-! ## Blocks -/

/-- The block `h` is the lowered block `b`, behind the instructions `before`. -/
structure BlockImage (globals : List Decl) (f : Func) (B : Temp → Option Binding)
    (before : List Ir.Instr) (b : Block) (h : Ir.Block) : Prop where
  label : h.label = b.label
  instrs : ∃ segs tail, Forall₂ (Became (f.decl? globals) B) b.quads segs ∧
    h.instrs = before ++ (segs.flatten ++ tail) ∧ Tail f b tail

theorem exists_of_forall₂_concat {α β : Type} {R : α → β → Prop} {as : List α} {a : α}
    {cs : List β} (h : Forall₂ R (as ++ [a]) cs) :
    ∃ bs b, Forall₂ R as bs ∧ R a b ∧ cs = bs ++ [b] := by
  rw [← forall₂_reverse_iff, reverse_concat, forall₂_cons_left_iff] at h
  obtain ⟨b, bs, hb, hbs, hcs⟩ := h
  rw [reverse_eq_cons_iff] at hcs
  exact ⟨bs.reverse, b, forall₂_reverse_iff.1 (by rwa [reverse_reverse]), hb, hcs⟩

theorem plain_of_inner {qs : List Quad} {segs : List (List Ir.Instr)}
    (h : Forall₂ (Became (f.decl? globals) B) qs segs)
    (hqs : ∀ q ∈ qs, q.endsBlock = false) : ∀ i ∈ segs.flatten, i.op.isTerminator = false := by
  induction h with
  | nil => simp
  | @cons q is qs segs hq _ ih =>
    intro i hi
    rw [flatten_cons, mem_append] at hi
    rcases hi with hi | hi
    · obtain ⟨new, ht, -, -⟩ := hq
      exact ht.plain (hqs q mem_cons_self) i hi
    · exact ih (fun q' hq' => hqs q' (mem_cons_of_mem _ hq')) i hi

/-! ## Variables -/

/-- Every global that is declared in one way is found as it was declared, unless a function took
its name. -/
def Declared (ds : List Decl) (T : Table) : Prop :=
  T.Sound ∧ ∀ d ∈ ds, (∀ e ∈ ds, e.name = d.name → e = d) → Locates T d (.global d.name)

theorem lasting_declared (ds : List Decl) : Lasting (Declared ds) where
  enter _ h := h
  leave _ h := h
  slot T storage d place hi h := by
    refine ⟨(h.1.install hi d.name).modifyEntry rfl, fun e he hone v hv => h.2 e he hone v ?_⟩
    rwa [declareSlot, Table.global?_install h.1 hi] at hv
  call name k T id v T' he h := by
    have hc := he.changes h.1
    refine ⟨hc.sound, fun d hd hone w hw => ?_⟩
    obtain ⟨id', hid, rfl⟩ := Option.map_eq_some_iff.1 hw
    by_cases hn : d.name = name
    · exact .inl (hc.of_lookup (hn ▸ hid)).1
    · obtain ⟨hlook, hentry⟩ := hc.other d.name hn
      rw [hlook] at hid
      rw [hentry id' hid]
      exact h.2 d hd hone _ (Option.map_eq_some_iff.2 ⟨id', hid, rfl⟩)

theorem declared_declaredTable (g : Flow.Graph) (h : T.Sound) :
    Declared g.globals (declaredTable g T) := by
  obtain ⟨hsound, hglobal⟩ := global?_declaredTable g h
  refine ⟨hsound, fun d hd hone v hv => ?_⟩
  rw [hglobal] at hv
  cases hface : (declaredFaces g).lookup d.name with
  | none =>
    refine absurd ?_ (lookup_eq_none.1 hface)
    rw [declaredFaces, map_append, mem_append, variableFaces, map_reverse, map_map, mem_reverse]
    exact .inr (mem_map_of_mem hd)
  | some w =>
    obtain rfl : w = v := by simpa [hface] using hv
    have hmem := mem_of_lookup hface
    simp only [declaredFaces, builtinFaces, definedFaces, variableFaces, mem_append,
      mem_reverse, mem_map, Prod.mk.injEq] at hmem
    rcases hmem with (⟨b, -, -, rfl⟩ | ⟨f, -, -, rfl⟩) | ⟨e, he, hname, rfl⟩
    · exact .inl rfl
    · exact .inl rfl
    · rw [hone e he hname]
      exact .inr ⟨rfl, rfl⟩

def Slotted (T : Table) (d : Decl) : Prop :=
  ∃ id, id < T.entries.size ∧ T.lookup? d.name = some id ∧
    (T.entry id).handle = some (.temp d.name (-1)) ∧ (T.entry id).tag = d.tag

theorem slotted_declareSlot {d e : Decl} {place : Nat}
    (h : e = d ∨ e.name ≠ d.name ∧ Slotted T e) : Slotted (declareSlot T storage d place) e := by
  have hsize : T.entries.size < (T.install d.name).2.entries.size := by
    exact Table.size_lt_installAt _
  unfold Slotted declareSlot
  simp only [Table.size_modifyEntry, Table.lookup?_modifyEntry, Table.lookup?_install,
    Table.entry_install_modifyEntry]
  rcases h with rfl | ⟨hne, id, hid, hlook, hh, ht⟩
  · refine ⟨T.entries.size, hsize, if_pos rfl, ?_⟩
    rw [if_pos rfl]
    exact ⟨rfl, rfl⟩
  · refine ⟨id, hid.trans hsize, by rw [if_neg hne, hlook], ?_⟩
    rw [if_neg hid.ne]
    exact ⟨hh, ht⟩

theorem slotted_declareSlots {ds : List (Decl × Nat)} {es : List Decl}
    (hn : ((es ++ ds.map Prod.fst).map (·.name)).Nodup) (h : ∀ e ∈ es, Slotted T e) :
    ∀ e ∈ es ++ ds.map Prod.fst, Slotted (declareSlots storage ds T) e := by
  induction ds generalizing es T with
  | nil => simpa [declareSlots] using h
  | cons d ds ih =>
    rw [map_cons, append_cons] at hn ⊢
    refine ih hn fun e he => slotted_declareSlot ?_
    rcases mem_append.1 he with he | he
    · refine .inr ⟨fun hname => ?_, h e he⟩
      rw [map_append, map_append] at hn
      exact (nodup_append.1 (nodup_append.1 hn).1).2.2 _ (mem_map_of_mem he) _ (by simp) hname
    · exact .inl (mem_singleton.1 he)

/-! ## Functions -/

structure Image (globals : List Decl) (f : Func) (B : Temp → Option Binding) (h : Ir.Func) :
    Prop where
  fits : ∀ t b, B t = some b → Fits globals f t b
  params : h.params = f.formals.zipIdx.map formalParam
  length : h.blocks.length = f.blocks.length
  /-- The first block stands behind the opening. -/
  block : ∀ {i : Nat} {b : Block}, f.blocks[i]? = some b → ∃ h', h.blocks[i]? = some h' ∧
    BlockImage globals f B (if i = 0 then opening f else []) b h'

theorem ready_openFunc (hf : f.IntegerCode globals) (h : Declared globals s.table) :
    Ready globals f (openFunc f s) := by
  have hlasts := lasting_declared globals
  have hdeclared : Declared globals (openFunc f s).table :=
    (hlasts.slots _ _ (hlasts.slots _ _ ⟨by simp [Table.enter], hlasts.enter _ h⟩)).2
  have hslots : ∀ d ∈ f.formals ++ f.locals, Slotted (openFunc f s).table d := by
    have hnames := hf.names
    rw [← zipIdx_map_fst 0 f.formals, ← zipIdx_map_fst 0 f.locals] at hnames ⊢
    refine slotted_declareSlots hnames ?_
    rw [map_append] at hnames
    have hformals : (([] ++ f.formals.zipIdx.map Prod.fst).map Decl.name).Nodup :=
      (nodup_append.1 hnames).1
    exact slotted_declareSlots hformals (by simp)
  refine ⟨by simp [openFunc, enterFunc, hf.tag]; decide, by simp [openFunc, enterFunc, State.bound],
    fun p dst storage name offset hq => ?_⟩
  obtain ⟨d, hd, -, hone⟩ := hf.refs p dst storage name offset hq
  refine ⟨d, hd, ?_⟩
  by_cases hg : storage = .global
  · have hx : Var.ofRef storage name = .global name := if_pos hg
    rw [hx] at hd ⊢
    obtain rfl : d.name = name := by simpa using find?_some hd
    exact hdeclared.2 d (mem_of_find?_eq_some hd) (hone hg)
  · have hx : Var.ofRef storage name = .slot name := if_neg hg
    rw [hx] at hd ⊢
    obtain rfl : d.name = name := by simpa using find?_some hd
    obtain ⟨id, -, hid⟩ := hslots d (mem_of_find?_eq_some hd)
    exact ⟨id, hid⟩

theorem Trail.Leads.image (h : c.Leads f s s') (hf : f.IntegerCode globals)
    (hbuilt : f.Built) (hdecl : Declared globals s.table) :
    Image globals f c.last.bound c.func := by
  obtain ⟨hfits, hbecame⟩ := h.of.became hf (h.first ▸ ready_openFunc hf hdecl)
  rw [h.of.func]
  refine ⟨hfits, rfl, by simpa using h.closes.length_eq.symm, fun {i b} hb => ?_⟩
  obtain ⟨seg, hseg, hcovers, hcloses⟩ := h.segment hb
  have hvisits : ∀ v ∈ seg.visits, v ∈ c.visits :=
    fun v hv => mem_flatMap.2 ⟨seg, mem_of_getElem? hseg, hv⟩
  refine ⟨seg.block, by simp [hseg], hcloses.label, seg.visits.map Visit.instrs, seg.tail, ?_,
    by rw [hcovers.instrs, flatMap_def], tail_of_built hbuilt hb hcovers hcloses
      fun v hv => h.of.run.ran v (hvisits v hv)⟩
  rw [← hcovers.quads, forall₂_map_left_iff, forall₂_map_right_iff, forall₂_same]
  exact fun v hv => hbecame v (hvisits v hv)

theorem images_of_lower {g : Flow.Graph} (hg : ∀ f ∈ g.funcs, f.Built) (hs : s.table.Sound)
    {p : Ir.Program} (h : lower g s = .ok p s') :
    p.globals = g.globals.map globalData ∧ Forall₂ (fun f h => f.IntegerCode g.globals →
      ∃ B, Image g.globals f B h) g.funcs p.funcs := by
  obtain ⟨cs, htrails, rfl⟩ := exists_trails h
  obtain ⟨hall, -⟩ := (lasting_declared g.globals).trails htrails (declared_declaredTable g hs)
  rw [forall₂_map_right_iff]
  refine ⟨rfl, ((forall₂_and_left (p := (· ∈ g.funcs)) _ _).2 ⟨fun _ h => h, hall⟩).imp ?_⟩
  rintro f c ⟨hf, t, t', hleads, ht⟩ hint
  exact ⟨_, hleads.image hint (hg f hf) ht⟩

end

end Quadruple.Lowering
