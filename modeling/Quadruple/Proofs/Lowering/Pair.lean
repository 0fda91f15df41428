import Quadruple.Proofs.Lowering.Twin

/-!
# A function in two programs

Main statement: `tallies_lowerFunc`. A function is lowered in two programs that declare the same
names. What other functions have left behind may differ: a name that is not declared may have been
called already, and literals have numbers in the order of their first use. `Tallies` says that this
makes no difference but for the numbers of the literals. It allows one of the two to fail, since a
reference to something that is not declared can depend on an earlier call; a strict comparison, of
tables in which the same names have a place, does not.
-/

namespace Quadruple

open List

def Flow.Func.Refers (f : Flow.Func) (n : String) : Prop :=
  ∃ b ∈ f.blocks, ∃ dst storage offset, Quad.ref dst storage n offset ∈ b.quads

def Symbols.Table.Places (T : Symbols.Table) (n : String) : Prop :=
  ∃ v p, T.global? n = some v ∧ v.handle = some p

namespace Lowering

open Symbols (Entry EntryId Table)
open Ir (Value Foreign)

/-! ## Tables that declare the same names -/

/-- What is seen of a function that is called and not declared, before it has a place and after. -/
def undeclared (n : String) (placed : Bool) (k : Int) : Entry :=
  { name := n, kind := .func, tag := .int, handle := if placed then some (.global n) else none
    elem := if placed then .word else .none, fixed := k }

/-- The globals of a table are the names of `D` and functions that are not declared. The names of a
scope are variables. -/
structure Enriches (D : List (String × Entry)) (T : Table) : Prop where
  tidy : T.Tidy
  known : ∀ n v, D.lookup n = some v → T.global? n = some v
  other : ∀ n v, D.lookup n = none → T.global? n = some v → ∃ placed k, v = undeclared n placed k
  slots : ∀ n v, T.local? n = some v → v.kind = .var ∧ ∃ name id, v.handle = some (.temp name id)

variable {D : List (String × Entry)} {T T' : Table} {name : String} {s : State} {id : EntryId}
  {b : Binding} {k : Int}

theorem Enriches.globalBinding_eq (h : Enriches D T) (n : String) :
    globalBinding n (T.global? n) = globalBinding n (D.lookup n) := by
  cases hn : D.lookup n with
  | some v => rw [h.known n v hn]
  | none =>
    cases hv : T.global? n with
    | none => rfl
    | some v =>
      obtain ⟨placed, k, rfl⟩ := h.other n v hn hv
      rfl

theorem Enriches.local?_modifyEntry (h : Enriches D T)
    (hk : (T.entry id).kind = .func) (f : Entry → Entry) (n : String) :
    (T.modifyEntry id f).local? n = T.local? n := by
  unfold Table.local?
  rw [Table.inner_modifyEntry]
  cases hid : T.inner.findSome? (·.lookup n) with
  | none => rfl
  | some j =>
    have hj : (T.entry j).kind = .var :=
      (h.slots n (T.entry j).face (by rw [Table.local?, hid]; rfl)).1
    have hne : j ≠ id := by
      rintro rfl
      rw [hk] at hj
      cases hj
    rw [Option.map_some, Option.map_some, Table.entry_modifyEntry_of_ne hne]

def Callee (D : List (String × Entry)) (name : String) (v : Entry) : Prop :=
  D.lookup name = some v ∧ v.kind = .func ∨ D.lookup name = none ∧ ∃ k, v = undeclared name true k

/-- The table in which a call has given its callee a place and finds `v` there. -/
structure Enriches.Called (D : List (String × Entry)) (T : Table) (name : String) (v : Entry)
    (T' : Table) : Prop where
  table : Enriches D T'
  inner : T'.inner = T.inner
  locals : ∀ n, T'.local? n = T.local? n
  places : ∀ n, T'.Places n ↔ T.Places n ∨ n = name
  keeps : T.Keeps T'
  callee : Callee D name v
  found : T'.global? name = some v

theorem Enriches.called_of_update (h : Enriches D T) (hD : D.lookup name = none)
    (hT : ¬T.Places name) (htidy : T'.Tidy) (hinner : T'.inner = T.inner)
    (hlocal : ∀ n, T'.local? n = T.local? n) (hglobal : ∀ n, T'.global? n =
      if n = name then some (undeclared name true k) else T.global? n) :
    Enriches.Called D T name (undeclared name true k) T' := by
  refine ⟨⟨htidy, fun n v hn => ?_, fun n v hn hv => ?_, fun n v hn => ?_⟩, hinner, hlocal,
    fun n => ?_, fun n v p hv hp => ?_, .inr ⟨hD, k, rfl⟩, by rw [hglobal, if_pos rfl]⟩
  · have hne : n ≠ name := by
      rintro rfl
      rw [hD] at hn
      cases hn
    rw [hglobal, if_neg hne, h.known n v hn]
  · rw [hglobal] at hv
    split at hv
    · next hn => exact ⟨true, k, by rw [← Option.some.inj hv, hn]⟩
    · exact h.other n v hn hv
  · exact h.slots n v ((hlocal n).symm.trans hn)
  · unfold Table.Places
    rw [hglobal]
    by_cases hn : n = name
    · rw [if_pos hn]
      exact iff_of_true ⟨_, _, rfl, rfl⟩ (.inr hn)
    · rw [if_neg hn]
      exact (or_iff_left hn).symm
  · have hne : n ≠ name := by
      rintro rfl
      exact hT ⟨v, p, hv, hp⟩
    rw [hglobal, if_neg hne, hv]

theorem Enriches.called_new (h : Enriches D T) (hD : D.lookup name = none)
    (hT : T.global? name = none) (k : Nat) :
    Enriches.Called D T name (undeclared name true k) (declareImplicit T name k) := by
  refine h.called_of_update hD ?_ (h.tidy.installAt fun _ => rfl) ?_
    (fun _ => Table.local?_installAt h.tidy _) fun n => global?_declareImplicit h.tidy name n k
  · simp [Table.Places, hT]
  · rw [declareImplicit, Table.inner_modifyEntry, Table.inner_installAt_zero]

theorem placedEntry_undeclared (name : String) (k : Int) :
    placedEntry name (undeclared name false k) = undeclared name true k := by
  have hint : machineTy Tag.int.base = .word := rfl
  simp [placedEntry, undeclared, hint]

theorem Enriches.called_unplaced (h : Enriches D T)
    (hD : D.lookup name = none) (hid : T.lookupGlobal? name = some id)
    (hv : (T.entry id).face = undeclared name false k) :
    Enriches.Called D T name (undeclared name true k) (T.modifyEntry id (placedEntry name)) := by
  refine h.called_of_update hD ?_ (h.tidy.modifyEntry fun _ => rfl) rfl
    (h.local?_modifyEntry (congrArg Entry.kind hv) _) fun n => ?_
  · simp [Table.Places, Table.global?, hid, hv, undeclared]
  · rw [Table.global?_modifyEntry h.tidy.sound hid, ← placedEntry_undeclared, ← hv]
    rfl

theorem Enriches.exists_callee (h : Enriches D s.table)
    (hD : ∀ n v, D.lookup n = some v → v.handle = some (.global n)) {callee : Temp}
    (hb : s.bindings.lookup callee = some b) (hname : b.callee = some name)
    (hfunc : ∀ v, D.lookup name = some v → v.kind = .func) (dst : Temp) (args : List Temp) :
    ∃ T r v, Enriches.Called D s.table name v T ∧
      lowerCall dst callee args s = callThrough dst (.global name) v args (s.over T r) := by
  -- a callee that has a place already
  have hplaced : ∀ v, Callee D name v → s.table.global? name = some v → v.kind = .func →
      v.handle = some (.global name) → ∃ T r v, Enriches.Called D s.table name v T ∧
        lowerCall dst callee args s = callThrough dst (.global name) v args (s.over T r) := by
    intro v hv hglobal hk hp
    refine ⟨s.table, s.report, v, ⟨h, rfl, fun _ => rfl, fun n => ?_, fun _ _ _ hw _ => hw, hv,
      hglobal⟩, run_lowerCall_known hb hname hglobal hk hp⟩
    refine ⟨.inl, fun hn => hn.elim id ?_⟩
    rintro rfl
    exact ⟨v, _, hglobal, hp⟩
  cases hlook : D.lookup name with
  | some v =>
    have hk := hfunc v hlook
    exact hplaced v (.inl ⟨hlook, hk⟩) (h.known name v hlook) hk (hD name v hlook)
  | none =>
    cases hglobal : s.table.global? name with
    | none =>
      exact ⟨_, _, _, h.called_new hlook hglobal args.length, run_lowerCall_new hb hname hglobal⟩
    | some v =>
      obtain ⟨placed, k, rfl⟩ := h.other name v hlook hglobal
      cases placed with
      | true => exact hplaced _ (.inr ⟨hlook, k, rfl⟩) hglobal rfl rfl
      | false =>
        obtain ⟨id, hid, hface, hrun⟩ :=
          @run_lowerCall_unplaced s name b _ args callee dst h.tidy hb hname hglobal rfl rfl
        rw [placedEntry_undeclared] at hrun
        exact ⟨_, _, _, h.called_unplaced hlook hid hface.symm, hrun⟩

/-! ## What corresponds -/

/-- Operands that correspond where the literals so far are `L` and `M`: names of literals with the
same content, or the same operand, which is one of the names `R` if it is a global. -/
def Corresponds (R : String → Prop) (L M : List (List UInt8)) (v w : Ir.Value) : Prop :=
  (w = v ∧ ∀ n, v = .global n → R n) ∨
    ∃ i j c, L[i]? = some c ∧ M[j]? = some c ∧ v = intern.literalName i ∧ w = intern.literalName j

variable {R : String → Prop} {L L' M M' : List (List UInt8)} {c : List UInt8} {t s' u : State}
  {n : String}

theorem corresponds_refl (v : Value) (h : ∀ n, v ≠ .global n) : Corresponds R L M v v :=
  .inl ⟨rfl, fun n hn => absurd hn (h n)⟩

theorem corresponds_global (h : R n) : Corresponds R L M (.global n) (.global n) :=
  .inl ⟨rfl, fun m hm => by cases hm; exact h⟩

theorem getElem?_of_prefix {i : Nat} (hL : L <+: L') (hi : L[i]? = some c) : L'[i]? = some c := by
  obtain ⟨rest, rfl⟩ := hL
  rwa [getElem?_append_left (List.getElem?_eq_some_iff.1 hi).1]

theorem Corresponds.grow (hL : L <+: L') (hM : M <+: M') {v w : Value}
    (h : Corresponds R L M v w) : Corresponds R L' M' v w := by
  refine h.imp_right ?_
  rintro ⟨i, j, c, hi, hj, hv, hw⟩
  exact ⟨i, j, c, getElem?_of_prefix hL hi, getElem?_of_prefix hM hj, hv, hw⟩

/-- What two lowerings of a function have in common. The literals and the foreign functions are
those that the first of the two had before the function. -/
structure Ground where
  settings : Settings
  defined : List String
  declared : List (String × Entry)
  placed : ∀ n v, declared.lookup n = some v → v.name = n ∧ v.handle = some (.global n)
  /-- The names that the function refers to. -/
  refers : String → Prop
  /-- Whether the names that are not declared have to have a place in both or in none. -/
  strict : Prop
  literals : List (List UInt8)
  foreign : List String

def Ground.Callable (G : Ground) (n : String) : Prop :=
  G.refers n ∧ ∀ v, G.declared.lookup n = some v → v.kind = .func

/-- The record of a foreign function says what is declared, or what is taken for granted of a
function that is not. -/
def Recorded (D : List (String × Entry)) (r : Ir.Foreign) : Prop :=
  (∃ v, D.lookup r.name = some v ∧ v.kind = .func ∧ r = ⟨r.name, v.elem, v.variadic, v.fixed⟩) ∨
    D.lookup r.name = none ∧ r.ret = .word ∧ r.variadic = false

/-- The table says of the functions on record that are not declared what the record says. -/
def Counted (D : List (String × Entry)) (T : Table) (rs : List Ir.Foreign) : Prop :=
  ∀ r ∈ rs, D.lookup r.name = none → T.global? r.name = some (undeclared r.name true r.fixed)

theorem Counted.keeps {rs : List Foreign} (h : Counted D T rs) (hT : T.Keeps T') :
    Counted D T' rs := fun r hr hD => hT r.name _ _ (h r hr hD) rfl

/-- What holds of a single lowering that started with the names of `D`. -/
structure Steady (D : List (String × Entry)) (s : State) : Prop where
  table : Enriches D s.table
  literals : s.literals.Nodup
  foreign : ∀ r ∈ s.foreign, Recorded D r
  counted : Counted D s.table s.foreign
  distinct : (s.foreign.map (·.name)).Nodup
  defined : ∀ n ∈ s.defined, ∃ v, D.lookup n = some v

/-- Two lowerings have used the same literals and called the same functions, and what has a place in
the one has a place in the other. -/
structure Exact (s t : State) : Prop where
  literals : t.literals = s.literals
  foreign : t.foreign.map (·.name) = s.foreign.map (·.name)
  places : ∀ n, s.table.Places n → t.table.Places n

def Scoped (T : Table) : Prop := ∃ l ls, T.inner = l :: ls ∧ ∀ m ∈ ls, m = []

structure Paired (G : Ground) (s t : State) : Prop where
  matched : Matched (Corresponds G.refers s.literals t.literals) G.Callable s t
  fst : Steady G.declared s
  snd : Steady G.declared t
  scopes : Scoped s.table ∧ Scoped t.table
  locals : ∀ n, t.table.local? n = s.table.local? n
  program : s.settings = G.settings ∧ ∀ n, n ∈ s.defined ↔ n ∈ G.defined
  defined : ∀ n, n ∈ t.defined ↔ n ∈ s.defined
  literals : ∀ c ∈ s.literals, c ∈ G.literals ∨ c ∈ t.literals
  foreign : ∀ n ∈ s.foreign.map (·.name), n ∈ G.foreign ∨ n ∈ t.foreign.map (·.name)
  alike : G.strict → Exact s t

structure Grown (s s' : State) : Prop where
  literals : s.literals <+: s'.literals
  foreign : s.foreign <+: s'.foreign
  keeps : s.table.Keeps s'.table

theorem Grown.trans (h : Grown s t) (h' : Grown t u) : Grown s u :=
  ⟨h.literals.trans h'.literals, h.foreign.trans h'.foreign, h.keeps.trans h'.keeps⟩

theorem grown_of_shared (h : s'.shared = s.shared) : Grown s s' := by
  simp only [State.shared, Prod.mk.injEq] at h
  obtain ⟨-, ht, hl, hf, -⟩ := h
  exact ⟨hl ▸ prefix_rfl, hf ▸ prefix_rfl, Table.keeps_of_global? fun _ => ht ▸ rfl⟩

theorem Grown.rfl : Grown s s := grown_of_shared (Eq.refl _)

/-- Where the first of two steps succeeds, the second does and their results correspond, or the
comparison is not strict and it fails. -/
def Tallies {α : Type} (G : Ground) (x y : LowerM α)
    (A : (Ir.Value → Ir.Value → Prop) → α → α → Prop) : Prop :=
  ∀ s t a s', Paired G s t → x s = .ok a s' → (¬G.strict ∧ ∃ e t', y t = .error e t') ∨
    ∃ b t', y t = .ok b t' ∧ Paired G s' t' ∧ A (Corresponds G.refers s'.literals t'.literals) a b ∧
      Grown s s' ∧ Grown t t'

def anyPair {α : Type} (_ : Ir.Value → Ir.Value → Prop) : α → α → Prop := anyTwo

variable {G : Ground} {V : Value → Value → Prop} {e v w : Entry} {p : Value}
  {g : Flow.Graph} {C : String → Prop}

section Tallies

variable {α β : Type} {A : (Value → Value → Prop) → α → α → Prop}
  {B : (Value → Value → Prop) → β → β → Prop} {x y : LowerM α} {f : α → LowerM β}

theorem Tallies.bind {g : α → LowerM β} (hx : Tallies G x y A)
    (hf : ∀ a b (V : Value → Value → Prop), A V a b → Tallies G (f a) (g b) fun W b' c' =>
      (∀ v w, V v w → W v w) → B W b' c') : Tallies G (x >>= f) (y >>= g) B := by
  intro s t b s2 hst h
  obtain ⟨a, s1, hxa, hfb⟩ := bind_eq_ok_iff.1 h
  rcases hx s t a s1 hst hxa with ⟨hloose, e, t', ht'⟩ | ⟨a', t1, hya, hst1, ha, hs1, ht1⟩
  · exact .inl ⟨hloose, e, t', run_bind_of_error ht'⟩
  · rcases hf a a' _ ha s1 t1 b s2 hst1 hfb with
      ⟨hloose, e, t', ht'⟩ | ⟨b', t2, hgb, hst2, hb, hs2, ht2⟩
    · exact .inl ⟨hloose, e, t', (run_bind_of_ok hya).trans ht'⟩
    · exact .inr ⟨b', t2, (run_bind_of_ok hya).trans hgb, hst2,
        hb fun _ _ hvw => hvw.grow hs2.literals ht2.literals, hs1.trans hs2, ht1.trans ht2⟩

theorem Tallies.mono {A' : (Value → Value → Prop) → α → α → Prop} (h : Tallies G x y A)
    (hA : ∀ V a b, A V a b → A' V a b) : Tallies G x y A' := by
  intro s t a s' hst hx
  refine (h s t a s' hst hx).imp_right ?_
  rintro ⟨b, t', hy, hst', hab, hgrow⟩
  exact ⟨b, t', hy, hst', hA _ _ _ hab, hgrow⟩

theorem Tallies.then {g : α → LowerM β} (hx : Tallies G x y A)
    (hf : ∀ a b (V : Value → Value → Prop), A V a b → Tallies G (f a) (g b) B) :
    Tallies G (x >>= f) (y >>= g) B :=
  hx.bind fun a b V hab => (hf a b V hab).mono fun _ _ _ h _ => h

theorem Steady.of_shared (h : Steady D s) (hs : s'.shared = s.shared) : Steady D s' := by
  simp only [State.shared, Prod.mk.injEq] at hs
  obtain ⟨-, ht, hl, hf, hd⟩ := hs
  exact ⟨ht ▸ h.table, hl ▸ h.literals, hf ▸ h.foreign, ht ▸ hf ▸ h.counted, hf ▸ h.distinct,
    hd ▸ h.defined⟩

theorem Paired.matches {a : α} {A : α → α → Prop} (hst : Paired G s t)
    (h : Matches (Corresponds G.refers s.literals t.literals) G.Callable x y A)
    (hx : x s = .ok a s') : ∃ b t', y t = .ok b t' ∧ Paired G s' t' ∧ A a b ∧
      s'.shared = s.shared ∧ t'.shared = t.shared := by
  obtain ⟨b, t', hy, hab, hmatched, hs', ht'⟩ := h s t a s' hst.matched hx
  have hs := hs'
  have ht := ht'
  simp only [State.shared, Prod.mk.injEq] at hs ht
  obtain ⟨hsS, hsT, hsL, hsF, hsD⟩ := hs
  obtain ⟨-, htT, htL, htF, htD⟩ := ht
  refine ⟨b, t', hy, ⟨?_, hst.fst.of_shared hs', hst.snd.of_shared ht', ?_, ?_, ?_, ?_, ?_, ?_, ?_⟩,
    hab, hs', ht'⟩
  · rw [hsL, htL]
    exact hmatched
  · rw [hsT, htT]
    exact hst.scopes
  · rw [hsT, htT]
    exact hst.locals
  · rw [hsS, hsD]
    exact hst.program
  · rw [hsD, htD]
    exact hst.defined
  · rw [hsL, htL]
    exact hst.literals
  · rw [hsF, htF]
    exact hst.foreign
  · intro hstrict
    obtain ⟨h1, h2, h3⟩ := hst.alike hstrict
    exact ⟨by rw [htL, hsL, h1], by rw [htF, hsF, h2], by rw [htT, hsT]; exact h3⟩

theorem literals_of_shared (h : s'.shared = s.shared) : s'.literals = s.literals :=
  congrArg (·.2.2.1) h

/-- What is needed of `V` for steps that look at neither the table nor the literals. -/
structure Ground.Suits (G : Ground) (V : Ir.Value → Ir.Value → Prop) : Prop where
  plain : ∀ v : Ir.Value, (∀ n, v ≠ .global n) → V v v
  named : ∀ n, G.refers n → V (.global n) (.global n)

theorem Ground.suits_corresponds : G.Suits (Corresponds G.refers L M) :=
  ⟨corresponds_refl, fun _ => corresponds_global⟩

theorem Tallies.bind_matches {g : α → LowerM β} (hx : Tallies G x y A)
    (hf : ∀ V, G.Suits V → ∀ a b, A V a b → Matches V G.Callable (f a) (g b) (B V)) :
    Tallies G (x >>= f) (y >>= g) B := by
  intro s t b s2 hst h
  obtain ⟨a, s1, hxa, hfb⟩ := bind_eq_ok_iff.1 h
  rcases hx s t a s1 hst hxa with ⟨hloose, e, t', ht'⟩ | ⟨a', t1, hya, hst1, ha, hs1, ht1⟩
  · exact .inl ⟨hloose, e, t', run_bind_of_error ht'⟩
  · obtain ⟨b', t2, hgb, hst2, hb, hs2, ht2⟩ :=
      hst1.matches (hf _ Ground.suits_corresponds a a' ha) hfb
    refine .inr ⟨b', t2, (run_bind_of_ok hya).trans hgb, hst2, ?_,
      hs1.trans (grown_of_shared hs2), ht1.trans (grown_of_shared ht2)⟩
    rw [literals_of_shared hs2, literals_of_shared ht2]
    exact hb

theorem Tallies.of_matches (h : ∀ V, G.Suits V → Matches V G.Callable x y (A V)) :
    Tallies G x y A := by
  intro s t a s' hst hx
  obtain ⟨b, t', hy, hst', hab, hs', ht'⟩ := hst.matches (h _ Ground.suits_corresponds) hx
  refine .inr ⟨b, t', hy, hst', ?_, grown_of_shared hs', grown_of_shared ht'⟩
  rw [literals_of_shared hs', literals_of_shared ht']
  exact hab

theorem tallies_pure {a b : α} (h : ∀ V, A V a b) : Tallies G (pure a) (pure b) A :=
  .of_matches fun _ _ => matches_pure (h _)

theorem tallies_throw (e e' : Fault) : Tallies G (throw e : LowerM α) (throw e') A :=
  .of_matches fun _ _ => matches_throw e e'

theorem tallies_mapM {f g : β → LowerM α} (bs : List β)
    (hA : ∀ V W : Value → Value → Prop, (∀ v w, V v w → W v w) → ∀ a b, A V a b → A W a b)
    (h : ∀ b ∈ bs, Tallies G (f b) (g b) A) :
    Tallies G (bs.mapM f) (bs.mapM g) fun V => Forall₂ (A V) := by
  induction bs with
  | nil => exact tallies_pure fun _ => .nil
  | cons b bs ih =>
    rw [mapM_cons, mapM_cons]
    refine (h b mem_cons_self).bind fun a a' V ha => ?_
    refine (ih fun c hc => h c (mem_cons_of_mem _ hc)).bind fun as as' W has => ?_
    refine tallies_pure fun X hWX hVX => .cons (hA V X hVX a a' ha) ?_
    exact has.imp (hA W X hWX)

theorem tallies_forM {f g : β → LowerM PUnit} (bs : List β)
    (h : ∀ b ∈ bs, Tallies G (f b) (g b) anyPair) : Tallies G (bs.forM f) (bs.forM g) anyPair := by
  induction bs with
  | nil => exact tallies_pure fun _ => trivial
  | cons b bs ih =>
    exact (h b mem_cons_self).then fun _ _ _ _ => ih fun c hc => h c (mem_cons_of_mem _ hc)

end Tallies

/-! ## Literals -/

theorem Steady.withLiteral (h : Steady D s) (c : List UInt8) :
    Steady D { s with literals := withLiteral c s.literals } :=
  ⟨h.table, nodup_withLiteral h.literals, h.foreign, h.counted, h.distinct, h.defined⟩

theorem tallies_intern (text : String) :
    Tallies G (intern text) (intern text) fun V v w => V v w := by
  intro s t v s' hst hrun
  obtain ⟨i, hi, hs⟩ := exists_intern text s
  obtain ⟨j, hj, ht⟩ := exists_intern text t
  rw [hs] at hrun
  cases hrun
  refine .inr ⟨_, _, ht, ⟨?_, hst.fst.withLiteral _, hst.snd.withLiteral _, hst.scopes, hst.locals,
    hst.program, hst.defined, fun c hc => ?_, hst.foreign, fun hstrict => ?_⟩,
    .inr ⟨i, j, _, hi, hj, rfl, rfl⟩, ⟨prefix_withLiteral _ _, prefix_rfl, .rfl⟩,
    ⟨prefix_withLiteral _ _, prefix_rfl, .rfl⟩⟩
  · have h := hst.matched.mono fun v w hvw =>
      hvw.grow (prefix_withLiteral (Text.unescape (Text.utf8Bytes text)) s.literals)
        (prefix_withLiteral (Text.unescape (Text.utf8Bytes text)) t.literals)
    exact ⟨h.settings, h.ret, h.conversions, h.fillers, h.bindings, h.instrs⟩
  · rw [mem_withLiteral] at hc ⊢
    rcases hc with hc | hc
    · exact (hst.literals c hc).imp_right .inl
    · exact .inr (.inr hc)
  · obtain ⟨hL, hF, hP⟩ := hst.alike hstrict
    exact ⟨by rw [hL], hF, hP⟩

/-! ## References -/

theorem like_globalBinding (hV : V (.global name) (.global name)) (hname : G.refers name) :
    (globalBinding name (G.declared.lookup name)).Like V G.Callable
      (globalBinding name (G.declared.lookup name)) := by
  have hfunction : (∀ v, G.declared.lookup name = some v → v.kind = .func) →
      (functionBinding name).Like V G.Callable (functionBinding name) := by
    intro hfunc
    refine ⟨hV, rfl, fun n hn => ?_⟩
    obtain rfl : name = n := by
      simp only [functionBinding] at hn
      split at hn
      · cases hn
      · exact Option.some.inj hn
    exact ⟨hname, hfunc⟩
  cases hv : G.declared.lookup name with
  | none => exact hfunction fun v hv' => by rw [hv] at hv'; cases hv'
  | some v =>
    obtain ⟨-, hp⟩ := G.placed name v hv
    simp only [globalBinding, hp]
    split
    · next hk =>
      refine hfunction fun w hw => ?_
      cases hv.symm.trans hw
      exact hk
    · cases ‹some (Value.global name) = none›
    · obtain rfl := Option.some.inj ‹some (Value.global name) = some _›
      exact ⟨hV, rfl, designates_of_none rfl⟩

/-- A name that designates storage in both lowerings is the same variable, or the same function. -/
theorem Paired.like_variableBinding (h : Paired G s t) (hname : G.refers name) {e' : Entry}
    {p' : Value} (he : (s.table.local? name).or (s.table.global? name) = some e)
    (he' : (t.table.local? name).or (t.table.global? name) = some e') (hp : e.handle = some p)
    (hp' : e'.handle = some p') :
    (variableBinding e p).Like (Corresponds G.refers s.literals t.literals) G.Callable
      (variableBinding e' p') := by
  rw [h.locals name] at he'
  cases hl : s.table.local? name with
  | some v =>
    rw [hl] at he he'
    cases he
    cases he'
    obtain ⟨-, x, id, hx⟩ := h.fst.table.slots name e hl
    cases hx.symm.trans hp
    cases hx.symm.trans hp'
    exact ⟨corresponds_refl _ (by simp [variableBinding]), rfl, designates_of_none rfl⟩
  | none =>
    rw [hl, Option.none_or] at he he'
    have hV : Corresponds G.refers s.literals t.literals (.global name) (.global name) :=
      corresponds_global hname
    cases hD : G.declared.lookup name with
    | some v =>
      obtain rfl := Option.some.inj ((h.fst.table.known name v hD).symm.trans he)
      obtain rfl := Option.some.inj ((h.snd.table.known name v hD).symm.trans he')
      obtain ⟨-, hv⟩ := G.placed name v hD
      cases hv.symm.trans hp
      cases hv.symm.trans hp'
      exact ⟨hV, rfl, designates_of_none rfl⟩
    | none =>
      obtain ⟨placed, k, rfl⟩ := h.fst.table.other name e hD he
      obtain ⟨placed', k', rfl⟩ := h.snd.table.other name e' hD he'
      cases placed with
      | false => cases hp
      | true =>
        cases placed' with
        | false => cases hp'
        | true =>
          cases hp
          cases hp'
          exact ⟨hV, rfl, designates_of_none rfl⟩

theorem Paired.exists_handle (h : Paired G s t) (hstrict : G.strict)
    (he : (s.table.local? name).or (s.table.global? name) = some e) (hp : e.handle = some p) :
    ∃ e' p', (t.table.local? name).or (t.table.global? name) = some e' ∧ e'.handle = some p' := by
  rw [h.locals name]
  cases hl : s.table.local? name with
  | some v =>
    rw [hl] at he
    cases he
    exact ⟨e, p, rfl, hp⟩
  | none =>
    rw [hl, Option.none_or] at he
    obtain ⟨e', p', he', hp'⟩ := (h.alike hstrict).places name ⟨e, p, he, hp⟩
    exact ⟨e', p', by rw [Option.none_or]; exact he', hp'⟩

theorem tallies_lowerRef (storage : Storage) (hname : G.refers name) :
    Tallies G (lowerRef storage name) (lowerRef storage name) fun V =>
      Binding.Like V G.Callable := by
  intro s t b s' hst h
  by_cases hstorage : storage = .global
  · subst hstorage
    rw [run_lowerRef_global, hst.fst.table.globalBinding_eq] at h
    cases h
    refine .inr ⟨_, t, run_lowerRef_global name t, hst, ?_, .rfl, .rfl⟩
    rw [hst.snd.table.globalBinding_eq]
    exact like_globalBinding (corresponds_global hname) hname
  · rw [run_lowerRef_local hstorage] at h
    rw [run_lowerRef_local hstorage]
    cases hb : ((s.table.local? name).or (s.table.global? name)).bind
        fun e => e.handle.map (variableBinding e) with
    | none =>
      rw [hb] at h
      cases h
    | some b' =>
      rw [hb] at h
      cases h
      obtain ⟨e, he, hbe⟩ := Option.bind_eq_some_iff.1 hb
      obtain ⟨p, hp, rfl⟩ := Option.map_eq_some_iff.1 hbe
      cases hc : ((t.table.local? name).or (t.table.global? name)).bind
          fun e => e.handle.map (variableBinding e) with
      | none =>
        refine .inl ⟨fun hstrict => ?_, _, _, rfl⟩
        obtain ⟨e', p', he', hp'⟩ := hst.exists_handle hstrict he hp
        rw [he', Option.bind_some, hp'] at hc
        cases hc
      | some c =>
        obtain ⟨e', he', hce⟩ := Option.bind_eq_some_iff.1 hc
        obtain ⟨p', hp', rfl⟩ := Option.map_eq_some_iff.1 hce
        exact .inr ⟨_, t, rfl, hst, hst.like_variableBinding hname he he' hp hp', .rfl, .rfl⟩

/-! ## Calls -/

theorem prefix_foreignWith (s : State) (e : Entry) : s.foreign <+: s.foreignWith e := by
  unfold State.foreignWith
  split
  · exact prefix_rfl
  · exact prefix_append _ _

theorem map_name_foreignWith (s : State) (e : Entry) : (s.foreignWith e).map (·.name) =
    if e.name ∈ s.defined ∨ e.name ∈ s.foreign.map (·.name) then s.foreign.map (·.name)
    else s.foreign.map (·.name) ++ [e.name] := by
  rw [s.foreignWith_eq]
  split
  · rfl
  · rw [map_append, map_singleton]

theorem Callee.name_eq (h : Callee G.declared name v) : v.name = name := by
  rcases h with ⟨h, -⟩ | ⟨-, k, rfl⟩
  · exact (G.placed name v h).1
  · rfl

theorem Callee.recorded (h : Callee G.declared name v) :
    Recorded G.declared ⟨v.name, v.elem, v.variadic, v.fixed⟩ := by
  have hname := h.name_eq
  rcases h with ⟨h, hk⟩ | ⟨hD, k, rfl⟩
  · exact .inl ⟨v, by rw [hname]; exact h, hk, rfl⟩
  · exact .inr ⟨hD, rfl, rfl⟩

theorem Callee.elem_eq (hv : Callee D name v) (hw : Callee D name w) : w.elem = v.elem := by
  rcases hv with ⟨hv, -⟩ | ⟨hD, k, rfl⟩
  · rcases hw with ⟨hw, -⟩ | ⟨hD, -⟩
    · rw [Option.some.inj (hv.symm.trans hw)]
    · rw [hD] at hv
      cases hv
  · rcases hw with ⟨hw, -⟩ | ⟨-, k', rfl⟩
    · rw [hD] at hw
      cases hw
    · rfl

theorem mem_foreignWith {r : Foreign} (h : r ∈ s.foreignWith e) :
    r ∈ s.foreign ∨ r = ⟨e.name, e.elem, e.variadic, e.fixed⟩ := by
  rw [s.foreignWith_eq] at h
  split at h
  · exact .inl h
  · simpa using h

theorem Steady.withForeign (h : Steady G.declared s) (hv : Callee G.declared name v)
    (hs : s.table.global? name = some v) : Steady G.declared { s with foreign := s.foreignWith v } := by
  refine ⟨h.table, h.literals, fun r hr => ?_, fun r hr hD => ?_, ?_, h.defined⟩
  · rcases mem_foreignWith hr with hr | rfl
    · exact h.foreign r hr
    · exact hv.recorded
  · rcases mem_foreignWith hr with hr | rfl
    · exact h.counted r hr hD
    · rcases hv with ⟨hlook, -⟩ | ⟨-, k, rfl⟩
      · rw [(G.placed name v hlook).1, hlook] at hD
        cases hD
      · exact hs
  · show ((s.foreignWith v).map (·.name)).Nodup
    rw [map_name_foreignWith]
    split
    · exact h.distinct
    · next hnew =>
      exact concat_eq_append ▸ h.distinct.concat fun hmem => hnew (.inr hmem)

theorem Paired.withForeign (hst : Paired G s t) (hv : Callee G.declared name v)
    (hw : Callee G.declared name w) (hs : s.table.global? name = some v)
    (ht : t.table.global? name = some w) :
    Paired G { s with foreign := s.foreignWith v } { t with foreign := t.foreignWith w } := by
  have hvn := hv.name_eq
  have hwn := hw.name_eq
  have hm := hst.matched
  refine ⟨⟨hm.settings, hm.ret, hm.conversions, hm.fillers, hm.bindings, hm.instrs⟩,
    hst.fst.withForeign hv hs, hst.snd.withForeign hw ht, hst.scopes, hst.locals, hst.program,
    hst.defined, hst.literals, fun n hn => ?_, fun hstrict => ?_⟩
  · change n ∈ (s.foreignWith v).map (·.name) at hn
    show n ∈ G.foreign ∨ n ∈ (t.foreignWith w).map (·.name)
    have hold : n ∈ t.foreign.map (·.name) → n ∈ (t.foreignWith w).map (·.name) :=
      fun hmem => ((prefix_foreignWith t w).map _).subset hmem
    rw [map_name_foreignWith, hvn] at hn
    split at hn
    · exact (hst.foreign n hn).imp_right hold
    · next hnew =>
      rcases mem_append.1 hn with hn | hn
      · exact (hst.foreign n hn).imp_right hold
      · obtain rfl := mem_singleton.1 hn
        refine .inr ?_
        rw [map_name_foreignWith, hwn]
        split
        · next hmem => exact hmem.resolve_left fun hd => hnew (.inl ((hst.defined n).1 hd))
        · exact mem_append_right _ mem_cons_self
  · obtain ⟨hL, hF, hP⟩ := hst.alike hstrict
    refine ⟨hL, ?_, hP⟩
    show (t.foreignWith w).map (·.name) = (s.foreignWith v).map (·.name)
    rw [map_name_foreignWith, map_name_foreignWith, hvn, hwn, hF]
    simp only [hst.defined]

theorem matches_checkCount (e e' : Entry) (k : Nat) :
    Matches V C (checkCount e k) (checkCount e' k) anyTwo := by
  have hrun : ∀ (e : Entry) (s : State), ∃ r, checkCount e k s = .ok () { s with report := r } := by
    intro e s
    show ∃ r, (ite _ _ _ : LowerM Unit) s = _
    split
    · exact ⟨_, rfl⟩
    · exact ⟨s.report, rfl⟩
  intro s t _ s' hst h
  obtain ⟨r, hs⟩ := hrun e s
  obtain ⟨r', ht⟩ := hrun e' t
  rw [hs] at h
  cases h
  exact ⟨_, _, ht, trivial, ⟨hst.settings, hst.ret, hst.conversions, hst.fillers, hst.bindings,
    hst.instrs⟩, rfl, rfl⟩

theorem matches_addCall (hV : ∀ v : Value, (∀ n, v ≠ .global n) → V v v)
    (dst : Temp) {q : Value} (hpq : V p q) (ty : Ir.Ty) (args : List Temp) :
    Matches V C (addCall dst p ty args) (addCall dst q ty args) anyTwo := by
  refine (matches_mapM matches_binding args).bind fun bs cs hbs => ?_
  have hvals : Forall₂ V (bs.map (·.val)) (cs.map (·.val)) := by
    rw [forall₂_map_left_iff, forall₂_map_right_iff]
    exact hbs.imp fun _ _ h => h.val
  have htys : cs.map (·.ty) = bs.map (·.ty) :=
    map_eq_of_forall₂ (hbs.imp fun _ _ h => congrArg (·.ty) h.rest)
  have hlike : Ir.Instr.Like V
      { op := .call, ty, args := p :: bs.map (·.val), argTys := bs.map (·.ty) }
      { op := .call, ty, args := q :: cs.map (·.val), argTys := cs.map (·.ty) } :=
    ⟨.cons hpq hvals, by rw [htys]⟩
  exact matches_ite Iff.rfl
    (fun _ => (matches_addInstr hlike).bind fun _ _ _ => matches_bindTemp dst
      (like_plain hV (by simp) rfl))
    fun _ => matches_defineTemp hV dst ty hlike

theorem Steady.over (h : Steady D s) (hT : Enriches.Called D s.table name v T)
    (r : Report) : Steady D (s.over T r) :=
  ⟨hT.table, h.literals, h.foreign, h.counted.keeps hT.keeps, h.distinct, h.defined⟩

theorem Scoped.of_inner (h : Scoped T) (hT : T'.inner = T.inner) : Scoped T' := by
  obtain ⟨l, ls, hl, hls⟩ := h
  exact ⟨l, ls, hT.trans hl, hls⟩

theorem Paired.called (h : Paired G s t) {U : Table}
    (hT : Enriches.Called G.declared s.table name v T)
    (hU : Enriches.Called G.declared t.table name w U) (r r' : Report) :
    Paired G (s.over T r) (t.over U r') := by
  have hm := h.matched
  refine ⟨⟨hm.settings, hm.ret, hm.conversions, hm.fillers, hm.bindings, hm.instrs⟩,
    h.fst.over hT r, h.snd.over hU r',
    ⟨h.scopes.1.of_inner hT.inner, h.scopes.2.of_inner hU.inner⟩, fun n => ?_, h.program, h.defined,
    h.literals, h.foreign, fun hstrict => ?_⟩
  · exact (hU.locals n).trans ((h.locals n).trans (hT.locals n).symm)
  · obtain ⟨hL, hF, hP⟩ := h.alike hstrict
    exact ⟨hL, hF, fun n hn => (hU.places n).2 (((hT.places n).1 hn).imp_left (hP n))⟩

/-- Once the callee has a place, it is taken from elsewhere and the call is the same in both. -/
theorem Paired.callThrough {a : Unit} (h : Paired G s t) (hname : G.refers name)
    (hv : Callee G.declared name v) (hw : Callee G.declared name w)
    (hs : s.table.global? name = some v) (ht : t.table.global? name = some w) {dst : Temp}
    {args : List Temp} (hrun : callThrough dst (.global name) v args s = .ok a s') :
    ∃ b t', callThrough dst (.global name) w args t = .ok b t' ∧ Paired G s' t' ∧
      Grown s s' ∧ Grown t t' := by
  have hmatches : Matches (Corresponds G.refers s.literals t.literals) G.Callable
      (checkCount v args.length >>= fun _ => addCall dst (.global name) v.elem args)
      (checkCount w args.length >>= fun _ => addCall dst (.global name) w.elem args) anyTwo := by
    rw [hv.elem_eq hw]
    exact (matches_checkCount v w args.length).bind fun _ _ _ =>
      matches_addCall corresponds_refl dst (corresponds_global hname) _ args
  have hthrough : ∀ (e : Entry) (u : State), Lowering.callThrough dst (.global name) e args u =
      (checkCount e args.length >>= fun _ => addCall dst (.global name) e.elem args)
        { u with foreign := u.foreignWith e } :=
    fun e u => run_bind_of_ok (run_declareForeign e u)
  rw [hthrough] at hrun
  obtain ⟨b, t', ht', hst', -, hs', ht''⟩ := (h.withForeign hv hw hs ht).matches hmatches hrun
  have hgrown : ∀ (e : Entry) (u : State), Grown u { u with foreign := u.foreignWith e } :=
    fun e u => ⟨prefix_rfl, prefix_foreignWith u e, .rfl⟩
  exact ⟨b, t', (hthrough w t).trans ht', hst', (hgrown v s).trans (grown_of_shared hs'),
    (hgrown w t).trans (grown_of_shared ht'')⟩

theorem lookup_of_binding {t : Temp} (h : binding t s = .ok b s') :
    s.bindings.lookup t = some b ∧ s = s' := by
  rw [run_binding] at h
  cases hl : s.bindings.lookup t with
  | none =>
    rw [hl] at h
    cases h
  | some c =>
    rw [hl] at h
    cases h
    exact ⟨rfl, rfl⟩

theorem tallies_lowerCall (dst callee : Temp) (args : List Temp) :
    Tallies G (lowerCall dst callee args) (lowerCall dst callee args) anyPair := by
  intro s t a s' hst h
  obtain ⟨b, s1, hbinding, hrest⟩ := bind_eq_ok_iff.1 h
  obtain ⟨hb, rfl⟩ := lookup_of_binding hbinding
  cases hname : b.callee with
  | none =>
    rw [hname] at hrest
    cases hrest
  | some name =>
    obtain ⟨c, hc, hlike⟩ := exists_lookup hst.matched.bindings hb
    have hcname : c.callee = some name := by rw [hlike.rest]; exact hname
    obtain ⟨hrefers, hfunc⟩ := hlike.designates name hname
    have hD := fun n v hn => (G.placed n v hn).2
    obtain ⟨T, r, v, hT, hrun⟩ := hst.fst.table.exists_callee hD hb hname hfunc dst args
    obtain ⟨U, r', w, hU, hrun'⟩ := hst.snd.table.exists_callee hD hc hcname hfunc dst args
    rw [hrun] at h
    obtain ⟨b', t', ht', hst', hgrow, hgrow'⟩ := (hst.called hT hU r r').callThrough hrefers hT.callee
      hU.callee hT.found hU.found h
    have hkeeps : ∀ {u : State} {e : Entry} {T : Table} {r : Report},
        Enriches.Called G.declared u.table name e T → Grown u (u.over T r) :=
      fun hT => ⟨prefix_rfl, prefix_rfl, hT.keeps⟩
    exact .inr ⟨b', t', hrun'.trans ht', hst', trivial, (hkeeps hT).trans hgrow,
      (hkeeps hU).trans hgrow'⟩

/-! ## Blocks -/

theorem tallies_lowerQuad {q : Quad}
    (hq : ∀ dst storage name offset, q = .ref dst storage name offset → G.refers name) :
    Tallies G (lowerQuad q) (lowerQuad q) anyPair := by
  cases q with
  | string dst text =>
    exact (tallies_intern text).bind_matches fun _ _ _ _ h =>
      matches_bindTemp dst ⟨h, rfl, designates_of_none rfl⟩
  | ref dst storage name offset =>
    exact (tallies_lowerRef storage (hq _ _ _ _ rfl)).bind_matches fun _ _ _ _ h =>
      matches_bindTemp dst h
  | call dst callee tag args => exact tallies_lowerCall dst callee args
  | _ => exact .of_matches fun _ hV => matches_lowerQuad hV.plain (by simp) (by simp) (by simp)

theorem tallies_lowerBlock (f : Flow.Func) (b : Flow.Block)
    (hb : ∀ dst storage name offset, Quad.ref dst storage name offset ∈ b.quads → G.refers name) :
    Tallies G (lowerBlock f b) (lowerBlock f b) Ir.Block.Like := by
  unfold lowerBlock
  split
  · refine .of_matches fun _ hV => matches_get fun s t hst => ?_
    rw [hst.ret]
    exact (matches_addInstr (like_defaultReturn hV.plain _)).bind fun _ _ _ => matches_takeBlock _
  · refine (tallies_forM b.quads fun q hq => tallies_lowerQuad ?_).bind_matches fun _ hV _ _ _ =>
      (matches_fillBlock hV.plain).bind fun _ _ _ =>
        (matches_closeBlock hV.plain f b).bind fun _ _ _ => matches_takeBlock _
    rintro dst storage name offset rfl
    exact hb _ _ _ _ hq

/-! ## Functions -/

theorem Enriches.declareSlot (h : Enriches D T) (hT : Scoped T) (storage : Storage) (d : Decl)
    (place : Nat) : Enriches D (declareSlot T storage d place) ∧
      Scoped (declareSlot T storage d place) ∧
      (∀ n, (declareSlot T storage d place).global? n = T.global? n) ∧
      ∀ n, (declareSlot T storage d place).local? n = if n = d.name then
        some (slotEntry storage d place { name := d.name }).face else T.local? n := by
  obtain ⟨l, ls, hl, hls⟩ := hT
  have hglobal : ∀ n, (Lowering.declareSlot T storage d place).global? n = T.global? n :=
    fun n => Table.global?_install h.tidy.sound (by simp [hl]) _
  have hlocal : ∀ n, (Lowering.declareSlot T storage d place).local? n = if n = d.name then
      some (slotEntry storage d place { name := d.name }).face else T.local? n :=
    fun n => Table.local?_install h.tidy hl _
  refine ⟨⟨h.tidy.install hl _, fun n v hn => ?_, fun n v hn hv => ?_, fun n v hn => ?_⟩,
    ⟨_, ls, Table.inner_install hl, hls⟩, hglobal, hlocal⟩
  · rw [hglobal, h.known n v hn]
  · exact h.other n v hn ((hglobal n).symm.trans hv)
  · rw [hlocal] at hn
    split at hn
    · cases hn
      exact ⟨rfl, _, _, rfl⟩
    · exact h.slots n v hn

theorem tallies_allocVariable (storage : Storage) (d : Decl) (place : Nat) :
    Tallies G (allocVariable storage d place) (allocVariable storage d place)
      fun _ v w => v = .temp d.name (-1) ∧ w = .temp d.name (-1) := by
  intro s t a s' hst h
  rw [run_allocVariable] at h
  cases h
  obtain ⟨hT, hTscope, hTglobal, hTlocal⟩ := hst.fst.table.declareSlot hst.scopes.1 storage d place
  obtain ⟨hU, hUscope, hUglobal, hUlocal⟩ := hst.snd.table.declareSlot hst.scopes.2 storage d place
  have hTkeeps := Table.keeps_of_global? hTglobal
  have hUkeeps := Table.keeps_of_global? hUglobal
  have hm := hst.matched
  refine .inr ⟨_, _, run_allocVariable storage d place t, ⟨⟨hm.settings, hm.ret, hm.conversions,
    hm.fillers, hm.bindings, .cons ⟨.cons (corresponds_refl _ (by simp)) .nil, rfl⟩ hm.instrs⟩,
    ⟨hT, hst.fst.literals, hst.fst.foreign, hst.fst.counted.keeps hTkeeps, hst.fst.distinct,
      hst.fst.defined⟩,
    ⟨hU, hst.snd.literals, hst.snd.foreign, hst.snd.counted.keeps hUkeeps, hst.snd.distinct,
      hst.snd.defined⟩,
    ⟨hTscope, hUscope⟩, fun n => ?_, hst.program, hst.defined, hst.literals, hst.foreign,
    fun hstrict => ?_⟩, ⟨rfl, rfl⟩, ⟨prefix_rfl, prefix_rfl, hTkeeps⟩,
    ⟨prefix_rfl, prefix_rfl, hUkeeps⟩⟩
  · rw [hUlocal n, hTlocal n, hst.locals n]
  · obtain ⟨hL, hF, hP⟩ := hst.alike hstrict
    refine ⟨hL, hF, fun n => ?_⟩
    simp only [Table.Places, hUglobal n, hTglobal n]
    exact hP n

theorem tallies_lowerFormal (d : Decl) (place : Nat) :
    Tallies G (lowerFormal d place) (lowerFormal d place) fun _ a b => b = a := by
  refine (tallies_allocVariable .param d place).bind_matches ?_
  rintro V hV _ _ ⟨rfl, rfl⟩
  exact (matches_addInstr ⟨.cons (hV.plain _ (by simp)) (.cons (hV.plain _ (by simp)) .nil),
    rfl⟩).bind fun _ _ _ => matches_pure rfl

theorem tallies_lowerBody (f : Flow.Func) (hf : ∀ n, f.Refers n → G.refers n) :
    Tallies G (lowerBody f) (lowerBody f) fun V a b => a.name = f.name ∧ a.Like V b := by
  unfold lowerBody
  split
  · exact (tallies_throw (A := fun _ _ _ => False) _ _).then fun _ _ _ h => h.elim
  · refine (tallies_mapM _ (fun _ _ _ _ _ h => h) fun p _ => tallies_lowerFormal p.1 p.2).then
      fun ps qs _ hps => ?_
    obtain rfl : ps = qs := forall₂_eq_eq_eq ▸ hps.imp fun _ _ h => h.symm
    refine (tallies_forM _ fun p _ => (tallies_allocVariable .stack p.1 p.2).then fun _ _ _ _ =>
      tallies_pure fun _ => trivial).then fun _ _ _ _ => ?_
    refine (tallies_mapM _ (fun _ _ hVW _ _ h => h.mono hVW) fun b hb => tallies_lowerBlock f b
      fun dst storage name offset hq => hf _ ⟨b, hb, dst, storage, offset, hq⟩).bind_matches
        fun _ _ bs cs hbs => ?_
    exact (matches_warnUnreachable f).bind fun _ _ _ => matches_pure ⟨rfl, hbs, rfl⟩

def Blank (T : Table) : Prop := ∀ l ∈ T.inner, l = []

theorem Blank.local?_eq_none (h : Blank T) (n : String) : T.local? n = none := by
  rw [Table.local?, Table.findSome?_blank h]
  rfl

/-- Lowering stands between the functions of a program that declares the names of `D`. -/
structure Pausing (D : List (String × Entry)) (s : State) : Prop where
  steady : Steady D s
  blank : Blank s.table

/-- What a function adds to the literals and foreign functions of a program is in `t` too. -/
structure Additions (s s' t : State) : Prop where
  literals : ∀ c ∈ s'.literals, c ∈ s.literals ∨ c ∈ t.literals
  foreign : ∀ n ∈ s'.foreign.map (·.name), n ∈ s.foreign.map (·.name) ∨ n ∈ t.foreign.map (·.name)

/-- Two states of lowerings of programs that define the same functions. -/
structure Akin (s t : State) : Prop where
  settings : t.settings = s.settings
  defined : ∀ n, n ∈ t.defined ↔ n ∈ s.defined

theorem Akin.trans (h : Akin s t) (h' : Akin t u) : Akin s u :=
  ⟨h'.settings.trans h.settings, fun n => (h'.defined n).trans (h.defined n)⟩

theorem Akin.symm (h : Akin s t) : Akin t s := ⟨h.settings.symm, fun n => (h.defined n).symm⟩

theorem Pausing.paired_enterFunc (hs : Pausing G.declared s) (ht : Pausing G.declared t)
    (hst : Akin s t) (hG : s.settings = G.settings ∧ ∀ n, n ∈ s.defined ↔ n ∈ G.defined)
    (hL : G.literals = s.literals) (hF : G.foreign = s.foreign.map (·.name))
    (hstrict : G.strict → Exact s t) (f : Flow.Func) :
    Paired G (enterFunc f s) (enterFunc f t) := by
  have henter : ∀ {u : State}, Pausing G.declared u → Steady G.declared (enterFunc f u) := by
    intro u hu
    obtain ⟨⟨htable, hlit, hforeign, hcounted, hdistinct, hdefined⟩, hblank⟩ := hu
    refine ⟨⟨htable.tidy.enter, htable.known, htable.other, fun n v hn => ?_⟩, hlit, hforeign,
      hcounted, hdistinct, hdefined⟩
    exact absurd ((hblank.local?_eq_none n).symm.trans hn) (by simp)
  refine ⟨⟨hst.settings, rfl, rfl, rfl, .nil, .nil⟩, henter hs, henter ht,
    ⟨⟨[], _, rfl, hs.blank⟩, ⟨[], _, rfl, ht.blank⟩⟩, fun n => ?_, hG, hst.defined,
    fun c hc => .inl (hL ▸ hc), fun n hn => .inl (hF ▸ hn), fun h => ?_⟩
  · exact (ht.blank.local?_eq_none n).trans (hs.blank.local?_eq_none n).symm
  · exact ⟨(hstrict h).literals, (hstrict h).foreign, (hstrict h).places⟩

theorem Steady.pausing_leave (h : Steady D s) (hs : Scoped s.table) :
    Pausing D { s with table := s.table.leave } := by
  obtain ⟨l, ls, hl, hls⟩ := hs
  have hblank : Blank s.table.leave := by simpa [Blank, Table.leave, hl] using hls
  refine ⟨⟨⟨h.table.tidy.leave_of_blank hl hls, h.table.known, h.table.other, fun n v hn => ?_⟩,
    h.literals, h.foreign, h.counted, h.distinct, h.defined⟩, hblank⟩
  exact absurd ((hblank.local?_eq_none n).symm.trans hn) (by simp)

/-- A function was lowered in two programs, from `s` to `s'` and from `t` to `t'`: it is the same in
both up to the numbers of the literals, and what it adds to the one it adds to the other, unless it
was there. -/
structure Agrees (D : List (String × Entry)) (f : Flow.Func) (s s' t t' : State)
    (f1 f2 : Ir.Func) : Prop where
  name : f1.name = f.name
  like : f1.Like (Corresponds f.Refers s'.literals t'.literals) f2
  fst : Pausing D s'
  snd : Pausing D t'
  kept : Akin s s'
  akin : Akin s' t'
  adds : Additions s s' t'
  grown : Grown s s' ∧ Grown t t'

theorem tallies_lowerFunc (strict : Prop) {f : Flow.Func} {f1 : Ir.Func}
    (hD : SelfNamed D) (hs : Pausing D s) (ht : Pausing D t) (hst : Akin s t)
    (hstrict : strict → Exact s t)
    (h : lowerFunc f s = .ok f1 s') :
    (¬strict ∧ ∃ e t', lowerFunc f t = .error e t') ∨ ∃ f2 t', lowerFunc f t = .ok f2 t' ∧
      Agrees D f s s' t t' f1 f2 ∧ (strict → Exact s' t') := by
  let G : Ground :=
    ⟨s.settings, s.defined, D, hD, f.Refers, strict, s.literals, s.foreign.map (·.name)⟩
  have hpaired : Paired G (enterFunc f s) (enterFunc f t) :=
    Pausing.paired_enterFunc hs ht hst ⟨rfl, fun _ => Iff.rfl⟩ rfl rfl hstrict f
  rw [run_lowerFunc] at h
  cases hbody : lowerBody f (enterFunc f s) with
  | error e s1 =>
    rw [hbody] at h
    cases h
  | ok f' s1 =>
    rw [hbody] at h
    cases h
    rcases tallies_lowerBody f (fun _ hn => hn) _ _ _ s1 hpaired hbody with
      ⟨hloose, e, t1, ht1⟩ | ⟨f2, t1, ht1, hst1, ⟨hname, hlike⟩, hgrow, hgrow'⟩
    · exact .inl ⟨hloose, e, _, by rw [run_lowerFunc, ht1]⟩
    · refine .inr ⟨f2, { t1 with table := t1.table.leave }, by rw [run_lowerFunc, ht1],
        ⟨hname, hlike, hst1.fst.pausing_leave hst1.scopes.1, hst1.snd.pausing_leave hst1.scopes.2,
          ⟨hst1.program.1, hst1.program.2⟩, ⟨hst1.matched.settings, hst1.defined⟩,
          ⟨hst1.literals, hst1.foreign⟩, ⟨hgrow.literals, hgrow.foreign, hgrow.keeps⟩,
          ⟨hgrow'.literals, hgrow'.foreign, hgrow'.keeps⟩⟩, fun hstr => ?_⟩
      obtain ⟨hL, hF, hP⟩ := hst1.alike hstr
      exact ⟨hL, hF, hP⟩

/-! ## Programs -/

theorem exists_declared_of_defined (h : n ∈ g.funcs.map (·.name)) :
    ∃ v, (declaredFaces g).lookup n = some v := by
  rw [← Option.ne_none_iff_exists', Ne, lookup_eq_none, not_not]
  simp only [declaredFaces, definedFaces, map_append, map_reverse, map_map, mem_append, mem_reverse]
  exact .inl (.inr h)

/-- Where the table knows, besides the declared names, only functions that were called, lowering
stands in front of the first function. -/
theorem pausing_declared (hT : T.Tidy) (hblank : Blank T)
    (hknown : ∀ n v, (declaredFaces g).lookup n = some v → T.global? n = some v)
    (hother : ∀ n v, (declaredFaces g).lookup n = none → T.global? n = some v →
      ∃ placed k, v = undeclared n placed k) : Pausing (declaredFaces g) (s.declared g T) := by
  refine ⟨⟨⟨hT, hknown, hother, fun n v hn => ?_⟩, nodup_nil, by simp [State.declared],
    by rintro r ⟨⟩, nodup_nil, fun n hn => exists_declared_of_defined hn⟩, hblank⟩
  exact absurd ((hblank.local?_eq_none n).symm.trans hn) (by simp)

theorem exists_pausing (htidy : s.table.Tidy) (hblank : Blank s.table)
    (hother : ∀ n v, (declaredFaces g).lookup n = none → s.table.global? n = some v →
      ∃ placed k, v = undeclared n placed k) :
    ∃ T, lower g s = lowerFuncs g (g.globals.map globalData) (s.declared g T) ∧
      Pausing (declaredFaces g) (s.declared g T) ∧
      ∀ n, T.global? n = ((declaredFaces g).lookup n).or (s.table.global? n) := by
  obtain ⟨T, hrun, hT, hinner, hglobal⟩ := exists_declared g htidy
  refine ⟨T, hrun, pausing_declared hT (by rw [Blank, hinner]; exact hblank) (fun n v hn => ?_)
    fun n v hn hv => hother n v hn ?_, hglobal⟩
  · rw [hglobal, hn, Option.some_or]
  · rwa [hglobal, hn, Option.none_or] at hv

theorem exists_pausing_new (g : Flow.Graph) (hs : s.table = .empty) :
    ∃ T, lower g s = lowerFuncs g (g.globals.map globalData) (s.declared g T) ∧
      Pausing (declaredFaces g) (s.declared g T) ∧ ∀ n, T.global? n = (declaredFaces g).lookup n := by
  obtain ⟨T, hrun, hT, hinner, hglobal⟩ := exists_declared_new g hs
  refine ⟨T, hrun, pausing_declared hT (by rw [Blank, hinner]; simp) (fun n v hn => ?_)
    fun n v hn hv => ?_, hglobal⟩
  · rw [hglobal, hn]
  · rw [hglobal, hn] at hv
    cases hv

theorem lowerFuncs_eq_ok {ds : List Ir.Data} {p : Ir.Program} (h : lowerFuncs g ds s = .ok p s') :
    ∃ fs, g.funcs.mapM lowerFunc s = .ok fs s' ∧
      p = ⟨s'.settings.wordSize, ds, s'.literals.zipIdx.map fun (b, i) => literalData i b,
        s'.foreign, fs⟩ := by
  obtain ⟨fs, s1, hfs, hrest⟩ := bind_eq_ok_iff.1 h
  cases hrest
  exact ⟨fs, hfs, rfl⟩

end Lowering

end Quadruple
