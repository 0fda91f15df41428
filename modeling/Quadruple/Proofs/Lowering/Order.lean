import Quadruple.Flow.Build
import Quadruple.Proofs.Code.Decimal
import Quadruple.Proofs.Lowering.Pair

/-!
# The order of the functions

Main statement: `lower_order_free`.

Every function of a program is compared with the same one in another order, where lowering came to
it at another time. Since it adds the same literals and foreign functions there, both programs end
up with the same ones.
-/

namespace Quadruple

open List

namespace Ir

/-! ## Renaming -/

variable (ρ : String → String)

def Value.rename : Value → Value
  | .global n => .global (ρ n)
  | v => v

def Instr.rename (i : Instr) : Instr := { i with args := i.args.map (·.rename ρ) }

def Block.rename (b : Block) : Block := { b with instrs := b.instrs.map (·.rename ρ) }

def Func.rename (f : Func) : Func := { f with blocks := f.blocks.map (·.rename ρ) }

def Data.rename (d : Data) : Data := { d with name := ρ d.name }

variable {ρ}

theorem forall₂_eq_map {α : Type} {f : α → α} {xs ys : List α}
    (h : Forall₂ (fun x y => y = f x) xs ys) : ys = xs.map f := by
  simpa using map_eq_of_forall₂ (g := id) h

theorem Func.Like.eq_rename {f g : Func} (h : f.Like (fun v w => w = v.rename ρ) g) :
    g = f.rename ρ := by
  have hinstr : ∀ i j : Instr, i.Like (fun v w => w = v.rename ρ) j → j = i.rename ρ := by
    intro i j hi
    rw [hi.rest, forall₂_eq_map hi.args]
    rfl
  have hblock : ∀ b c : Block, b.Like (fun v w => w = v.rename ρ) c → c = b.rename ρ := by
    rintro ⟨l, is⟩ ⟨m, js⟩ hb
    obtain rfl : m = l := hb.label
    exact congrArg (Block.mk m) (forall₂_eq_map (hb.instrs.imp hinstr))
  rw [h.rest, forall₂_eq_map (h.blocks.imp hblock)]
  rfl

end Ir

namespace Lowering

open Symbols (Entry Table)

variable {D : List (String × Entry)} {f : Flow.Func} {s s' : State} {fs : List Flow.Func}
  {fs' : List Ir.Func} {L M : List (List UInt8)} {ρ : String → String}

/-! ## Functions one after another -/

/-- A function is lowered at some time in a program that starts its functions with `s`. -/
structure LoweredAt (D : List (String × Entry)) (s : State) (f : Flow.Func) (a : State) (f' : Ir.Func)
    (b : State) : Prop where
  pausing : Pausing D a
  akin : Akin s a
  run : lowerFunc f a = .ok f' b

structure Course (D : List (String × Entry)) (s s' : State) (fs : List Flow.Func)
    (fs' : List Ir.Func) : Prop where
  pausing : Pausing D s'
  grown : Grown s s'
  akin : Akin s s'
  stages : Forall₂ (fun f f' => f'.name = f.name ∧ ∃ a b, LoweredAt D s f a f' b ∧ Grown b s')
    fs fs'
  /-- Each literal was there or was added by a function, and so was each foreign function. -/
  literals : ∀ c ∈ s'.literals, c ∈ s.literals ∨
    ∃ f ∈ fs, ∃ a f' b, LoweredAt D s f a f' b ∧ c ∈ b.literals ∧ c ∉ a.literals
  foreign : ∀ n ∈ s'.foreign.map (·.name), n ∈ s.foreign.map (·.name) ∨
    ∃ f ∈ fs, ∃ a f' b, LoweredAt D s f a f' b ∧ n ∈ b.foreign.map (·.name) ∧
      n ∉ a.foreign.map (·.name)

theorem LoweredAt.agrees (hD : SelfNamed D) {t a b c d : State} {f1 f2 : Ir.Func}
    (hst : Akin s t) (h : LoweredAt D s f a f1 b) (h' : LoweredAt D t f c f2 d) :
    Agrees D f a b c d f1 f2 := by
  have hac : Akin a c := h.akin.symm.trans (hst.trans h'.akin)
  rcases tallies_lowerFunc False hD h.pausing h'.pausing hac False.elim h.run with
    ⟨-, e, d', hfail⟩ | ⟨f2', d', hok, hagrees, -⟩
  · rw [h'.run] at hfail
    cases hfail
  · rw [h'.run] at hok
    cases hok
    exact hagrees

theorem LoweredAt.later {s1 a b : State} {f' : Ir.Func} (hs : Akin s s1)
    (h : LoweredAt D s1 f a f' b) : LoweredAt D s f a f' b :=
  ⟨h.pausing, hs.trans h.akin, h.run⟩

theorem Akin.rfl : Akin s s := ⟨by rfl, fun _ => Iff.rfl⟩

theorem course_of_mapM (hD : SelfNamed D) (hs : Pausing D s)
    (h : fs.mapM lowerFunc s = .ok fs' s') : Course D s s' fs fs' := by
  induction fs generalizing s fs' with
  | nil =>
    cases h
    exact ⟨hs, .rfl, .rfl, .nil, fun c hc => .inl hc, fun n hn => .inl hn⟩
  | cons f fs ih =>
    rw [mapM_cons] at h
    obtain ⟨f', s1, hf, hrest⟩ := bind_eq_ok_iff.1 h
    obtain ⟨gs, s2, hgs, hpure⟩ := bind_eq_ok_iff.1 hrest
    cases hpure
    have hfirst : LoweredAt D s f s f' s1 := ⟨hs, .rfl, hf⟩
    obtain ⟨hname, -, hs1, -, hkept, -, -, hgrown, -⟩ := hfirst.agrees hD .rfl hfirst
    have hcourse := ih hs1 hgs
    refine ⟨hcourse.pausing, hgrown.trans hcourse.grown, hkept.trans hcourse.akin,
      .cons ⟨hname, s, s1, hfirst, hcourse.grown⟩ (hcourse.stages.imp ?_), fun c hc => ?_,
      fun n hn => ?_⟩
    · rintro g g' ⟨hg, a, b, hab, hb⟩
      exact ⟨hg, a, b, hab.later hkept, hb⟩
    · rcases hcourse.literals c hc with hc | ⟨g, hg, a, g', b, hab, hadd⟩
      · by_cases hold : c ∈ s.literals
        · exact .inl hold
        · exact .inr ⟨f, mem_cons_self, s, f', s1, hfirst, hc, hold⟩
      · exact .inr ⟨g, mem_cons_of_mem _ hg, a, g', b, hab.later hkept, hadd⟩
    · rcases hcourse.foreign n hn with hn | ⟨g, hg, a, g', b, hab, hadd⟩
      · by_cases hold : n ∈ s.foreign.map (·.name)
        · exact .inl hold
        · exact .inr ⟨f, mem_cons_self, s, f', s1, hfirst, hn, hold⟩
      · exact .inr ⟨g, mem_cons_of_mem _ hg, a, g', b, hab.later hkept, hadd⟩

theorem Course.exists_stage (h : Course D s s' fs fs') (hf : f ∈ fs) :
    ∃ f' a b, LoweredAt D s f a f' b ∧ Grown b s' := by
  obtain ⟨f', -, -, a, b, hab, hgrown⟩ := exists_of_forall₂ h.stages.flip hf
  exact ⟨f', a, b, hab, hgrown⟩

theorem Course.names (h : Course D s s' fs fs') : fs'.map (·.name) = fs.map (·.name) :=
  map_eq_of_forall₂ (h.stages.imp fun _ _ hf => hf.1)

/-- Programs of the same functions use the same literals and call the same foreign functions. -/
theorem Course.subset (hD : SelfNamed D) {t t' : State} {gs : List Flow.Func}
    {gs' : List Ir.Func} (h : Course D s s' fs fs') (h' : Course D t t' gs gs') (hst : Akin s t)
    (hfs : fs ⊆ gs) (hs : s.literals = [] ∧ s.foreign = []) :
    s'.literals ⊆ t'.literals ∧ s'.foreign.map (·.name) ⊆ t'.foreign.map (·.name) := by
  refine ⟨fun c hc => ?_, fun n hn => ?_⟩
  · rcases h.literals c hc with hc | ⟨f, hf, a, f', b, hab, hin, hnot⟩
    · rw [hs.1] at hc
      cases hc
    · obtain ⟨f'', a', b', hab', hgrown⟩ := h'.exists_stage (hfs hf)
      have hadds := (hab.agrees hD hst hab').adds
      exact hgrown.literals.subset ((hadds.literals c hin).resolve_left hnot)
  · rcases h.foreign n hn with hn | ⟨f, hf, a, f', b, hab, hin, hnot⟩
    · rw [hs.2] at hn
      cases hn
    · obtain ⟨f'', a', b', hab', hgrown⟩ := h'.exists_stage (hfs hf)
      have hadds := (hab.agrees hD hst hab').adds
      exact (hgrown.foreign.map _).subset ((hadds.foreign n hin).resolve_left hnot)

/-! ## The names of the literals -/

def literalText (i : Nat) : String := "str." ++ Numeral.decimalText i

theorem literalText_injective : Function.Injective literalText := fun _ _ h =>
  Int.ofNat.inj (Numeral.decimalText_injective ((String.append_right_inj _).1 h))

theorem exists_renaming (hL : L.Nodup) (hM : M.Nodup) (hLM : ∀ c, c ∈ L ↔ c ∈ M) :
    ∃ ρ : Equiv.Perm String,
      (∀ i j c, L[i]? = some c → M[j]? = some c → ρ (literalText i) = literalText j) ∧
      ∀ n, (∀ i < L.length, n ≠ literalText i) → ρ n = n := by
  have hlen : L.length = M.length := ((perm_ext_iff_of_nodup hL hM).2 hLM).length_eq
  let place : Fin L.length ≃ Fin M.length :=
    ((Nodup.getEquiv L hL).trans (Equiv.subtypeEquivRight hLM)).trans (Nodup.getEquiv M hM).symm
  have hplace : ∀ i, M[place i] = L[i] := fun i =>
    congrArg Subtype.val ((Nodup.getEquiv M hM).apply_symm_apply
      (Equiv.subtypeEquivRight hLM (Nodup.getEquiv L hL i)))
  let name : Fin L.length → String := fun i => literalText i
  have hname : Function.Injective name := literalText_injective.comp Fin.val_injective
  have := Classical.decPred (· ∈ Set.range name)
  let σ : Equiv.Perm (Fin L.length) := place.trans (finCongr hlen.symm)
  refine ⟨σ.extendDomain (Equiv.ofInjective name hname), fun i j c hi hj => ?_, fun n hn => ?_⟩
  · obtain ⟨hlt, rfl⟩ := List.getElem?_eq_some_iff.1 hi
    obtain ⟨hlt', hc⟩ := List.getElem?_eq_some_iff.1 hj
    have hσ : (σ ⟨i, hlt⟩ : Nat) = j := hM.getElem_inj_iff.1 ((hplace ⟨i, hlt⟩).trans hc.symm)
    have himage := Equiv.Perm.extendDomain_apply_image σ (Equiv.ofInjective name hname) ⟨i, hlt⟩
    rw [Equiv.ofInjective_apply, Equiv.ofInjective_apply] at himage
    exact himage.trans (congrArg literalText hσ)
  · refine Equiv.Perm.extendDomain_apply_not_subtype σ _ ?_
    rintro ⟨i, rfl⟩
    exact hn i i.isLt rfl

def literalsData (L : List (List UInt8)) : List Ir.Data :=
  L.zipIdx.map fun (b, i) => literalData i b

theorem getElem?_literalsData (L : List (List UInt8)) (i : Nat) :
    (literalsData L)[i]? = L[i]?.map (literalData i) := by
  unfold literalsData
  rw [getElem?_map, getElem?_zipIdx, Option.map_map, zero_add]
  rfl

theorem literalText_mem_literalsData {i : Nat} (hi : i < L.length) :
    literalText i ∈ (literalsData L).map (·.name) := by
  refine mem_map.2 ⟨literalData i L[i], mem_of_getElem? (i := i) ?_, rfl⟩
  rw [getElem?_literalsData, getElem?_eq_getElem hi]
  rfl

theorem perm_literalsData (hL : L.Nodup) (hM : M.Nodup) (hLM : ∀ c, c ∈ L ↔ c ∈ M)
    (hρ : ∀ i j c, L[i]? = some c → M[j]? = some c → ρ (literalText i) = literalText j) :
    ((literalsData L).map (·.rename ρ)).Perm (literalsData M) := by
  let F (c : List UInt8) : Ir.Data := literalData (M.idxOf c) c
  have hleft : (literalsData L).map (·.rename ρ) = L.map F := by
    refine ext_getElem? fun i => ?_
    rw [getElem?_map, getElem?_literalsData, getElem?_map]
    cases hi : L[i]? with
    | none => rfl
    | some c =>
      show some (Ir.Data.mk (ρ (literalText i)) _ _ _ _) = some (Ir.Data.mk (literalText _) _ _ _ _)
      have hc : c ∈ M := (hLM c).1 (mem_of_getElem? hi)
      rw [hρ i (M.idxOf c) c hi (getElem?_idxOf hc)]
      rfl
  have hright : literalsData M = M.map F := by
    refine ext_getElem? fun j => ?_
    rw [getElem?_literalsData, getElem?_map]
    cases hj : M[j]? with
    | none => rfl
    | some c =>
      obtain ⟨hlt, rfl⟩ := List.getElem?_eq_some_iff.1 hj
      show some _ = some (literalData (M.idxOf M[j]) M[j])
      rw [hM.idxOf_getElem j hlt]
  rw [hleft, hright]
  exact ((perm_ext_iff_of_nodup hL hM).2 hLM).map F

/-! ## Programs -/

theorem lookup_perm {l m : List (String × Entry)} (h : l.Perm m) (hm : (m.map Prod.fst).Nodup)
    (n : String) : l.lookup n = m.lookup n := by
  have hl := (h.map Prod.fst).nodup_iff.2 hm
  refine Option.ext fun v => ⟨fun hv => ?_, fun hv => ?_⟩
  · exact lookup_of_mem hm (h.mem_iff.1 (mem_of_lookup hv))
  · exact lookup_of_mem hl (h.mem_iff.2 (mem_of_lookup hv))

theorem lookup_declaredFaces_perm {g h : Flow.Graph} (hglobals : h.globals = g.globals)
    (hfuncs : h.funcs.Perm g.funcs) (hnames : (g.funcs.map (·.name)).Nodup) (n : String) :
    (declaredFaces h).lookup n = (declaredFaces g).lookup n := by
  have hbuiltins : plainBuiltins h = plainBuiltins g := by
    unfold plainBuiltins
    refine filter_congr fun b _ => ?_
    rw [Bool.not_inj_iff, Bool.eq_iff_iff, contains_iff_mem, contains_iff_mem]
    exact (hfuncs.map _).mem_iff
  have hdefined : (definedFaces h.funcs).lookup n = (definedFaces g.funcs).lookup n := by
    refine lookup_perm ?_ ?_ n
    · exact (reverse_perm _).trans ((hfuncs.map _).trans (reverse_perm _).symm)
    · rw [definedFaces, map_reverse, map_map, nodup_reverse]
      exact hnames
  rw [declaredFaces, declaredFaces, hbuiltins, hglobals, lookup_append, lookup_append,
    lookup_append, lookup_append, hdefined]

theorem Pausing.congr {D' : List (String × Entry)} (h : Pausing D' s)
    (hD : ∀ n, D'.lookup n = D.lookup n) : Pausing D s := by
  obtain ⟨⟨⟨htidy, hknown, hother, hslots⟩, hlit, hforeign, hcounted, hdistinct, hdefined⟩, hblank⟩ :=
    h
  simp only [Recorded, Counted, hD] at hknown hother hforeign hcounted hdefined
  exact ⟨⟨⟨htidy, hknown, hother, hslots⟩, hlit, hforeign, hcounted, hdistinct, hdefined⟩, hblank⟩

theorem course_of_lower {g : Flow.Graph} {p : Ir.Program} (hs : s.table = .empty)
    (h : lower g s = .ok p s') (hD : ∀ n, (declaredFaces g).lookup n = D.lookup n) :
    ∃ s0, Course D s0 s' g.funcs p.funcs ∧ s0.settings = s.settings ∧
      s0.defined = g.funcs.map (·.name) ∧ s0.literals = [] ∧ s0.foreign = [] ∧
      p.wordSize = s.settings.wordSize ∧ p.globals = g.globals.map globalData ∧
      p.strings = literalsData s'.literals ∧ p.foreign = s'.foreign := by
  obtain ⟨T, hrun, hpausing, -⟩ := exists_pausing_new g hs
  rw [hrun] at h
  obtain ⟨fs, hfs, rfl⟩ := lowerFuncs_eq_ok h
  have hplaced : SelfNamed D := fun n v hv => placed_of_declaredFaces ((hD n).trans hv)
  have hcourse := course_of_mapM hplaced (hpausing.congr hD) hfs
  exact ⟨_, hcourse, rfl, rfl, rfl, rfl, by rw [hcourse.akin.settings]; rfl, rfl, rfl, rfl⟩

theorem Recorded.shape_eq {r r' : Ir.Foreign} (h : Recorded D r) (h' : Recorded D r')
    (hname : r'.name = r.name) : (r'.name, r'.ret, r'.variadic) = (r.name, r.ret, r.variadic) := by
  rcases h with ⟨v, hv, -, hr⟩ | ⟨hD, hret, hvar⟩
  · rcases h' with ⟨v', hv', -, hr'⟩ | ⟨hD', -⟩
    · rw [hname, hv] at hv'
      cases hv'
      rw [hr, hr', hname]
    · rw [hname, hv] at hD'
      cases hD'
  · rcases h' with ⟨v', hv', -⟩ | ⟨-, hret', hvar'⟩
    · rw [hname, hD] at hv'
      cases hv'
    · rw [hname, hret, hret', hvar, hvar']

theorem perm_foreign {rs rs' : List Ir.Foreign} (h : ∀ r ∈ rs, Recorded D r)
    (h' : ∀ r ∈ rs', Recorded D r) (hrs : (rs.map (·.name)).Nodup)
    (hrs' : (rs'.map (·.name)).Nodup)
    (hmem : ∀ n, n ∈ rs.map (·.name) ↔ n ∈ rs'.map (·.name)) :
    (rs.map fun r => (r.name, r.ret, r.variadic)).Perm
      (rs'.map fun r => (r.name, r.ret, r.variadic)) := by
  have hnodup : ∀ {l : List Ir.Foreign}, (l.map (·.name)).Nodup →
      (l.map fun r => (r.name, r.ret, r.variadic)).Nodup := by
    intro l hl
    refine Nodup.of_map Prod.fst ?_
    rwa [map_map]
  have hsub : ∀ {l m : List Ir.Foreign}, (∀ r ∈ l, Recorded D r) → (∀ r ∈ m, Recorded D r) →
      (∀ n, n ∈ l.map (·.name) → n ∈ m.map (·.name)) →
      ∀ x, x ∈ l.map (fun r => (r.name, r.ret, r.variadic)) →
        x ∈ m.map fun r => (r.name, r.ret, r.variadic) := by
    intro l m hl hm hlm x hx
    obtain ⟨r, hr, rfl⟩ := mem_map.1 hx
    obtain ⟨r', hr', hname⟩ := mem_map.1 (hlm r.name (mem_map_of_mem hr))
    exact mem_map.2 ⟨r', hr', (hl r hr).shape_eq (hm r' hr') hname⟩
  exact (perm_ext_iff_of_nodup (hnodup hrs) (hnodup hrs')).2 fun x =>
    ⟨hsub h h' (fun n => (hmem n).1) x, hsub h' h (fun n => (hmem n).2) x⟩

theorem Corresponds.eq_rename
    (hρ : ∀ i j c, L[i]? = some c → M[j]? = some c → ρ (literalText i) = literalText j)
    (hf : ∀ n, f.Refers n → ρ n = n) {v w : Ir.Value} (h : Corresponds f.Refers L M v w) :
    w = v.rename ρ := by
  rcases h with ⟨rfl, hv⟩ | ⟨i, j, c, hi, hj, rfl, rfl⟩
  · cases w with
    | global n => rw [Ir.Value.rename, hf n (hv n rfl)]
    | _ => rfl
  · exact congrArg Ir.Value.global (hρ i j c hi hj).symm

theorem forall₂_of_common {α β γ : Type} {R : α → β → Prop} {S : α → γ → Prop} {Q : β → γ → Prop}
    {xs : List α} {ys : List β} {zs : List γ} (h : Forall₂ R xs ys)
    (h' : Forall₂ S xs zs) (hQ : ∀ x ∈ xs, ∀ y z, R x y → S x z → Q y z) :
    Forall₂ Q ys zs := by
  have hmem := (forall₂_and_left (p := (· ∈ xs)) xs ys).2 ⟨fun _ => id, h⟩
  refine (forall₂_through hmem h').imp ?_
  rintro y z ⟨x, ⟨hx, hy⟩, hz⟩
  exact hQ x hx y z hy hz

/-- Two graphs with the same globals and with the same functions in another order are lowered to
programs with the same foreign functions and, up to one permutation `ρ` of their names, with the
same string literals. Under `ρ` a function is the same in both if it refers to no name that `ρ`
moves, and all are if none refers to the name of a literal. -/
theorem lower_order_free {g h : Flow.Graph} (hglobals : h.globals = g.globals)
    (hfuncs : h.funcs.Perm g.funcs) (hnames : (g.funcs.map (·.name)).Nodup) {settings : Settings}
    {report report' : Report} {file file' : String} {p q : Ir.Program} {s t : State}
    (hp : lower g (.new settings .empty report file) = .ok p s)
    (hq : lower h (.new settings .empty report' file') = .ok q t) :
    q.wordSize = p.wordSize ∧ q.globals = p.globals ∧
    p.funcs.map (·.name) = g.funcs.map (·.name) ∧ q.funcs.map (·.name) = h.funcs.map (·.name) ∧
    (p.foreign.map fun r => (r.name, r.ret, r.variadic)).Perm
      (q.foreign.map fun r => (r.name, r.ret, r.variadic)) ∧
    ∃ ρ : Equiv.Perm String,
      (∀ n, n ∉ p.strings.map (·.name) → ρ n = n) ∧
      (p.strings.map (·.rename ρ)).Perm q.strings ∧
      (∀ f ∈ g.funcs, (∀ n, f.Refers n → ρ n = n) → ∀ f₁ ∈ p.funcs, ∀ f₂ ∈ q.funcs,
        f₁.name = f.name → f₂.name = f.name → f₂ = f₁.rename ρ) ∧
      ((∀ f ∈ g.funcs, ∀ n, f.Refers n → n ∉ p.strings.map (·.name)) →
        (p.funcs.map (·.rename ρ)).Perm q.funcs) := by
  have hplaced := fun n v => placed_of_declaredFaces (g := g) (n := n) (v := v)
  obtain ⟨s₀, hP, hs₀, hs₀d, hs₀l, hs₀f, hpw, hpg, hps, hpf⟩ := course_of_lower rfl hp fun _ => rfl
  obtain ⟨t₀, hQ, ht₀, ht₀d, ht₀l, ht₀f, hqw, hqg, hqs, hqf⟩ :=
    course_of_lower rfl hq (lookup_declaredFaces_perm hglobals hfuncs hnames)
  have hst : Akin s₀ t₀ := by
    refine ⟨ht₀.trans hs₀.symm, fun n => ?_⟩
    rw [hs₀d, ht₀d]
    exact (hfuncs.map _).mem_iff
  obtain ⟨hlit, hforeign⟩ := hP.subset hplaced hQ hst hfuncs.symm.subset ⟨hs₀l, hs₀f⟩
  obtain ⟨hlit', hforeign'⟩ := hQ.subset hplaced hP hst.symm hfuncs.subset ⟨ht₀l, ht₀f⟩
  have hL := hP.pausing.steady.literals
  have hM := hQ.pausing.steady.literals
  have hLM : ∀ c, c ∈ s.literals ↔ c ∈ t.literals := fun c => ⟨@hlit c, @hlit' c⟩
  obtain ⟨ρ, hρ, hfix⟩ := exists_renaming hL hM hLM
  have hfixed : ∀ n, n ∉ p.strings.map (·.name) → ρ n = n := by
    intro n hn
    refine hfix n fun i hi hni => hn ?_
    rw [hps, hni]
    exact literalText_mem_literalsData hi
  -- what the two programs make of one function
  have hsame : ∀ f f₁ f₂ a b c d, LoweredAt (declaredFaces g) s₀ f a f₁ b → Grown b s →
      LoweredAt (declaredFaces g) t₀ f c f₂ d → Grown d t → (∀ n, f.Refers n → ρ n = n) →
      f₂ = f₁.rename ρ := by
    intro f f₁ f₂ a b c d hab hb hcd hd hf
    refine ((hab.agrees hplaced hst hcd).like.mono fun v w hvw => ?_).eq_rename
    exact (hvw.grow hb.literals hd.literals).eq_rename hρ hf
  refine ⟨hqw.trans hpw.symm, by rw [hqg, hpg, hglobals], hP.names, hQ.names, ?_, ρ, hfixed, ?_, ?_,
    ?_⟩
  · rw [hpf, hqf]
    exact perm_foreign hP.pausing.steady.foreign hQ.pausing.steady.foreign
      hP.pausing.steady.distinct hQ.pausing.steady.distinct fun n => ⟨@hforeign n, @hforeign' n⟩
  · rw [hps, hqs]
    exact perm_literalsData hL hM hLM hρ
  · intro f hf hkept f₁ hf₁ f₂ hf₂ hname₁ hname₂
    obtain ⟨f', hf', hn', a, b, hab, hb⟩ := exists_of_forall₂ hP.stages hf₁
    obtain ⟨f'', hf'', hn'', c, d, hcd, hd⟩ := exists_of_forall₂ hQ.stages hf₂
    obtain rfl : f' = f := List.inj_on_of_nodup_map hnames hf' hf (hn'.symm.trans hname₁)
    obtain rfl : f'' = f' :=
      List.inj_on_of_nodup_map hnames (hfuncs.subset hf'') hf (hn''.symm.trans hname₂)
    exact hsame f'' f₁ f₂ a b c d hab hb hcd hd hkept
  · intro hrefers
    obtain ⟨fs, hfs, hperm⟩ := List.perm_comp_forall₂ hfuncs.symm hQ.stages
    have hall := forall₂_of_common (Q := fun f₁ f₂ => f₂ = f₁.rename ρ) hP.stages hfs ?_
    · rw [← Ir.forall₂_eq_map hall]
      exact hperm
    · rintro f hf f₁ f₂ ⟨-, a, b, hab, hb⟩ ⟨-, c, d, hcd, hd⟩
      exact hsame f f₁ f₂ a b c d hab hb hcd hd fun n hn => hfixed n (hrefers f hf n hn)

/-- A function that stores a literal in a variable. -/
def keeper (var name literal : String) : Flow.Func where
  name := name
  tag := .int
  formals := []
  locals := []
  blocks :=
    [⟨"entry", [.string ⟨1⟩ literal, .ref ⟨2⟩ .global var 0, .store ⟨3⟩ ⟨2⟩ ⟨1⟩ .int], [1], some 1⟩,
      ⟨"bb1", [.funcEnd], [], none⟩]

def keepers (var : String) : Flow.Graph :=
  ⟨[⟨var, .int, 4⟩], [keeper var "a" "hi", keeper var "b" "no"]⟩

def keepersBack (var : String) : Flow.Graph :=
  { keepers var with funcs := (keepers var).funcs.reverse }

/-- Code of functions by their names and literals. -/
def keepersCode (var : String) (fs : List (String × String)) : List Quad :=
  .globalDecl ⟨var, .int, 4⟩ :: fs.flatMap fun f => [.funcBegin f.1 .int, .string ⟨1⟩ f.2,
    .ref ⟨2⟩ .global var 0, .store ⟨3⟩ ⟨2⟩ ⟨1⟩ .int, .funcEnd]

theorem keepers_order_free :
    ∃ p q s t, lower (keepers "box") (.new {} .empty ⟨none, []⟩ "f") = .ok p s ∧
      lower (keepersBack "box") (.new {} .empty ⟨none, []⟩ "f") = .ok q t ∧
      p.strings ≠ q.strings ∧ ∃ ρ : Equiv.Perm String, (p.strings.map (·.rename ρ)).Perm q.strings ∧
        (p.funcs.map (·.rename ρ)).Perm q.funcs := by
  have hp : (result? (lower (keepers "box")) (.new {} .empty ⟨none, []⟩ "f")).map
      (·.strings) = some (literalsData [[104, 105], [110, 111]]) := by cbv
  have hq : (result? (lower (keepersBack "box")) (.new {} .empty ⟨none, []⟩ "f")).map
      (·.strings) = some (literalsData [[110, 111], [104, 105]]) := by cbv
  obtain ⟨p, s, hs, hps⟩ := exists_ok_of_result? hp
  obtain ⟨q, t, ht, hqs⟩ := exists_ok_of_result? hq
  obtain ⟨-, -, -, -, -, ρ, -, hstrings, -, hfuncs⟩ :=
    lower_order_free (g := keepers "box") (h := keepersBack "box") rfl
      (.swap (keeper "box" "a" "hi") (keeper "box" "b" "no") []) (by decide) hs ht
  have hnames : p.strings.map (·.name) = ["str.0", "str.1"] := by
    rw [hps]
    decide +kernel
  have hdiffer : p.strings ≠ q.strings := by
    rw [hps, hqs]
    decide +kernel
  refine ⟨p, q, s, t, hs, ht, hdiffer, ρ, hstrings, hfuncs fun f hf n hn => ?_⟩
  obtain rfl : n = "box" := by
    simp only [keepers, List.mem_cons, List.not_mem_nil, or_false] at hf
    rcases hf with rfl | rfl <;> simpa [Flow.Func.Refers, keeper] using hn
  rw [hnames]
  decide

/-- What becomes of a function that stores a literal, under the name of the literal. -/
def keeping (var name literal : String) : Ir.Func where
  name := name
  params := []
  ret := .word
  blocks :=
    [⟨"entry", [{ op := .store, ty := .word, args := [.global literal, .global var] },
      { op := .jmp, args := [.label "bb1"] }]⟩, ⟨"bb1", [{ op := .ret, args := [.const 0] }]⟩]

/-- Where the variable has the name of a literal, no renaming makes the functions the same: the name
stands for both in the one order and for the variable alone in the other. -/
theorem keepers_differ :
    Flow.build (keepersCode "str.0" [("a", "hi"), ("b", "no")]) = .ok (keepers "str.0") ∧
    Flow.build (keepersCode "str.0" [("b", "no"), ("a", "hi")]) = .ok (keepersBack "str.0") ∧
    ∃ p q s t, lower (keepers "str.0") (.new {} .empty ⟨none, []⟩ "f") = .ok p s ∧
      lower (keepersBack "str.0") (.new {} .empty ⟨none, []⟩ "f") = .ok q t ∧
      p.funcs = [keeping "str.0" "a" "str.0", keeping "str.0" "b" "str.1"] ∧
      q.funcs = [keeping "str.0" "b" "str.0", keeping "str.0" "a" "str.1"] ∧
      ∀ ρ, keeping "str.0" "a" "str.1" ≠ (keeping "str.0" "a" "str.0").rename ρ := by
  have hp : (result? (lower (keepers "str.0"))
      (.new {} .empty ⟨none, []⟩ "f")).map (·.funcs) =
      some [keeping "str.0" "a" "str.0", keeping "str.0" "b" "str.1"] := by cbv
  have hq : (result? (lower (keepersBack "str.0"))
      (.new {} .empty ⟨none, []⟩ "f")).map (·.funcs) =
      some [keeping "str.0" "b" "str.0", keeping "str.0" "a" "str.1"] := by cbv
  obtain ⟨p, s, hs, hpf⟩ := exists_ok_of_result? hp
  obtain ⟨q, t, ht, hqf⟩ := exists_ok_of_result? hq
  refine ⟨by decide +kernel, by decide +kernel, p, q, s, t, hs, ht, hpf, hqf, fun ρ h => ?_⟩
  obtain ⟨hliteral, hvar⟩ : "str.1" = ρ "str.0" ∧ "str.0" = ρ "str.0" := by
    simpa [keeping, Ir.Func.rename, Ir.Block.rename, Ir.Instr.rename, Ir.Value.rename] using h
  exact absurd (hliteral.trans hvar.symm) (by decide)

end Lowering

end Quadruple
