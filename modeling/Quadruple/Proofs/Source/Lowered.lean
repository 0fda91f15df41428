import Quadruple.Proofs.Lowering.Names
import Quadruple.Proofs.Source.Declared

/-!
# Lowering checked code

What lowering binds the temporaries of checked code to fits what checked code says of them, and the
table answers for the names of the program. So every instruction finds what it needs, and the types
that lowering derives are those that the tags predict.

Main statement: `lowers_gives`. A checked instruction is lowered, and nothing is reported as an
error.
-/

namespace Quadruple.Source

open List
open Lowering hiding bind
open Symbols (Entry Table)

/-! ## Types -/

def Ty.machine : Ty → Ir.Ty
  | .int => .word
  | .double => .double

theorem machineTy_tag (ty : Ty) : machineTy ty.tag = ty.machine := by cases ty <;> rfl

theorem machineTy_base (ty : Ty) : machineTy ty.tag.base = ty.machine := by cases ty <;> rfl

theorem Ty.machine_eq (ty : Ty) :
    (if ty.machine = .double then Ir.Ty.double else .word) = ty.machine := by
  cases ty <;> rfl

theorem machine_of_isDouble (ty : Ty) :
    (if ty.tag.isDouble then Ir.Ty.double else .word) = ty.machine := by
  cases ty <;> rfl

theorem isArray_tag (ty : Ty) : ty.tag.isArray = false := by cases ty <;> rfl

variable {cls : OpClass} {tag : Tag} {ts args : List Temp} {addr y : Temp} {v : Entry}

theorem exists_operation (op : Op cls) : ∃ o, operation? cls op.text = some o := by
  obtain ⟨text, hmem⟩ := op
  cases cls <;> simp only [OpClass.lexemes, mem_cons, not_mem_nil, or_false] at hmem
  · rcases hmem with rfl | rfl | rfl | rfl | rfl <;> exact ⟨_, rfl⟩
  · rcases hmem with rfl | rfl | rfl | rfl | rfl <;> exact ⟨_, rfl⟩
  · rcases hmem with rfl | rfl | rfl | rfl | rfl | rfl <;> exact ⟨_, rfl⟩

/-! ## Temporaries and names -/

def Kind.Binds : Kind → Binding → Prop
  | .value ty, b => b.ty = ty.machine
  | .place _, b => b.ty = .ptr ∧ b.callee = none ∧ b.isArray = false
  | .block, b => b.ty = .ptr ∧ b.callee = none
  | .func name, b => b.callee = some name

/-- What lowering sees of a name is right for calls with the signature. -/
def Answers (p : Program) (name : String) (sig : Signature) : Option Entry → Prop
  | none => sig.ty = .int ∧ name ∉ p.funcs.map (·.name)
  | some v => v.kind = .func ∧
    (v.handle = none → machineTy v.tag.base = sig.ty.machine) ∧
    (v.handle ≠ none → v.elem = sig.ty.machine ∨ v.elem = .none ∧ sig.ty = .int) ∧
    (name ∈ p.funcs.map (·.name) → ∃ k : Nat, sig.arity = some k ∧ v.fixed = k)

structure Offers (p : Program) (T : Table) : Prop where
  tidy : T.Tidy
  vars : ∀ x ∈ p.vars, ∃ v h, T.global? x.name = some v ∧ v.kind = .var ∧ v.tag = x.tag ∧
    v.handle = some h
  calls : ∀ n sig, p.signature? n = some sig → Answers p n sig (T.global? n)

structure Serves (p : Program) (xs : List (String × Storage × Tag)) (T : Table) : Prop
    extends Offers p T where
  scope : ∃ l, T.inner = [l]
  locals : ∀ x ∈ xs, ∃ v h, T.local? x.1 = some v ∧ v.tag = x.2.2 ∧ v.handle = some h

variable {p : Program} {xs : List (String × Storage × Tag)} {T T' : Table} {f : Func}
  {done : Program} {sig : Signature} {name n : String} {s : State}

theorem Serves.update (h : Serves p xs T) (hsig : p.signature? name = some sig) (htidy : T'.Tidy)
    (hinner : T'.inner = T.inner)
    (hlocals : ∀ x ∈ xs, ∃ v h, T'.local? x.1 = some v ∧ v.tag = x.2.2 ∧ v.handle = some h)
    (hother : ∀ n, n ≠ name → T'.global? n = T.global? n)
    (hself : Answers p name sig (T'.global? name)) : Serves p xs T' := by
  refine ⟨⟨htidy, fun x hx => ?_, fun n sig' hn => ?_⟩, hinner ▸ h.scope, hlocals⟩
  · have hne : x.name ≠ name := by
      rintro rfl
      exact Program.notMem_vars_of_signature? hsig (mem_map_of_mem hx)
    rw [hother x.name hne]
    exact h.vars x hx
  · by_cases hne : n = name
    · subst hne
      cases hsig.symm.trans hn
      exact hself
    · rw [hother n hne]
      exact h.calls n sig' hn

theorem Serves.ref (h : Serves p f.scope s.table) (hdone : done.vars ⊆ p.vars) {storage : Storage}
    (hn : (p.names done f).var? n = some (storage, tag)) :
    ∃ b, lowerRef storage n s = .ok b s ∧ b.ty = .ptr ∧ b.callee = none ∧
      b.isArray = tag.isArray := by
  have hlocals : (p.names done f).locals n = f.scope.lookup n := rfl
  cases hl : f.scope.lookup n with
  | some x =>
    rw [Names.var?, hlocals, hl] at hn
    cases hn
    obtain ⟨v, handle, hv, htag, hhandle⟩ := h.locals _ (mem_of_lookup hl)
    have hstorage := (p.names done f).inside n storage tag (hlocals.trans hl)
    refine ⟨variableBinding v handle, ?_, rfl, rfl, congrArg Tag.isArray htag⟩
    rw [run_lowerRef_local hstorage, hv, Option.some_or, Option.bind_some, hhandle]
    rfl
  | none =>
    rw [Names.var?, hlocals, hl, Option.none_or] at hn
    obtain ⟨tag', hglobal, heq⟩ := Option.map_eq_some_iff.1 hn
    cases heq
    obtain ⟨x, hx, hxn⟩ := mem_map.1 (mem_of_lookup hglobal)
    cases hxn
    obtain ⟨v, handle, hv, hk, htag, hhandle⟩ := h.vars x (hdone hx)
    refine ⟨variableBinding v handle, ?_, rfl, rfl, congrArg Tag.isArray htag⟩
    rw [run_lowerRef_global, hv]
    simp only [globalBinding, hk, hhandle]

theorem Serves.callee (h : Serves p xs s.table) (hn : p.signature? n = some sig) :
    lowerRef .global n s = .ok (functionBinding n) s := by
  have hcalls := h.calls n sig hn
  rw [run_lowerRef_global]
  cases hv : s.table.global? n with
  | none => rfl
  | some v =>
    rw [hv] at hcalls
    simp only [globalBinding, hcalls.1]

theorem Program.ne_empty_of_signature? (h : p.signature? n = some sig) : n ≠ "" := by
  rintro rfl
  cases h

/-! ## Steps -/

/-- Lowering stands in a function with the variables `xs`. The temporaries are bound as `K` says,
and `e` errors have been reported. -/
structure Bound (p : Program) (xs : List (String × Storage × Tag)) (e : Nat) (K : Kinds)
    (s : State) : Prop where
  temps : ∀ t k, K t = some k → ∃ b, s.bindings.lookup t = some b ∧ k.Binds b
  table : Serves p xs s.table
  defined : s.defined = p.funcs.map (·.name)
  errors : s.report.errorCount = e

/-- The step succeeds with a result of `V`, reports no error, and binds temporaries so that `K'`
holds if `K` does. -/
def Lowers (p : Program) (xs : List (String × Storage × Tag)) (e : Nat) (K : Kinds) {α : Type}
    (x : LowerM α) (V : α → Prop) (K' : Kinds) : Prop :=
  ∀ s, Bound p xs e K s → Yields x s fun a s' => V a ∧ Bound p xs e K' s'

variable {e : Nat} {K K1 K2 : Kinds} {k : Kind} {ty : Ty} {t dst x : Temp} {α β : Type}
  {V : α → Prop} {W : β → Prop}

theorem Bound.congr {s' : State} (h : Bound p xs e K s) (hb : s'.bindings = s.bindings)
    (ht : s'.table = s.table) (hd : s'.defined = s.defined) (hr : s'.report = s.report) :
    Bound p xs e K s' :=
  ⟨hb ▸ h.temps, ht ▸ h.table, hd.trans h.defined, hr ▸ h.errors⟩

theorem Lowers.bind {x : LowerM α} {g : α → LowerM β} (hx : Lowers p xs e K x V K1)
    (hg : ∀ a, V a → Lowers p xs e K1 (g a) W K2) : Lowers p xs e K (x >>= g) W K2 :=
  fun s hs => yields_bind.2 ((hx s hs).mono fun a s' ⟨ha, hs'⟩ => hg a ha s' hs')

theorem lowers_pure {a : α} (ha : V a) : Lowers p xs e K (pure a) V K :=
  fun _ hs => yields_pure.2 ⟨ha, hs⟩

theorem lowers_get {g : State → LowerM β} (hg : ∀ s, Lowers p xs e K (g s) W K2) :
    Lowers p xs e K (get >>= g) W K2 :=
  fun s hs => yields_bind.2 (yields_get.2 (hg s s hs))

theorem lowers_modify {g : State → State} (hg : ∀ s, (g s).bindings = s.bindings ∧
    (g s).table = s.table ∧ (g s).defined = s.defined ∧ (g s).report = s.report) :
    Lowers p xs e K (modify g) (fun _ => True) K := by
  intro s hs
  obtain ⟨hb, ht, hd, hr⟩ := hg s
  exact yields_modify.2 ⟨trivial, hs.congr hb ht hd hr⟩

theorem lowers_ite {c : Prop} [Decidable c] {x y : LowerM α} (hx : c → Lowers p xs e K x V K1)
    (hy : ¬c → Lowers p xs e K y V K1) : Lowers p xs e K (if c then x else y) V K1 := by
  split
  · exact hx ‹_›
  · exact hy ‹_›

theorem lowers_addInstr (i : Ir.Instr) : Lowers p xs e K (addInstr i) (fun _ => True) K :=
  lowers_modify fun _ => ⟨rfl, rfl, rfl, rfl⟩

theorem lowers_newConversion : Lowers p xs e K newConversion (fun _ => True) K :=
  fun _ hs => yields_modifyGet.2 ⟨trivial, hs.congr rfl rfl rfl rfl⟩

theorem lowers_warn (kind : Warning) (pos : Pos) (n : Notice) :
    Lowers p xs e K (warn kind pos n) (fun _ => True) K :=
  fun _ hs => yields_modify.2
    ⟨trivial, hs.temps, hs.table, hs.defined, (errorCount_warn _ _ _ _).trans hs.errors⟩

theorem lowers_bind {b : Binding} (hb : k.Binds b) :
    Lowers p xs e K (Lowering.bind t b) (fun _ => True) (K.add (some (t, k))) := by
  intro s hs
  refine yields_modify.2 ⟨trivial, fun u k' hu => ?_, hs.table, hs.defined, hs.errors⟩
  by_cases hne : u = t
  · subst hne
    rw [Kinds.add_self] at hu
    cases hu
    exact ⟨b, lookup_cons_self, hb⟩
  · rw [Kinds.add_of_ne hne] at hu
    obtain ⟨b', hb', hfits⟩ := hs.temps u k' hu
    refine ⟨b', ?_, hfits⟩
    rw [lookup_cons, beq_false_of_ne hne]
    exact hb'

theorem lowers_defineTemp (ty : Ty) (i : Ir.Instr) :
    Lowers p xs e K (defineTemp dst ty.machine i) (fun _ => True) (K.add (some (dst, .value ty))) :=
  have hfits : (Kind.value ty).Binds { val := tempValue dst, ty := ty.machine } := rfl
  (lowers_bind hfits).bind fun _ _ => lowers_addInstr _

theorem lowers_binding (hk : K t = some k) : Lowers p xs e K (binding t) k.Binds K := by
  intro s hs
  obtain ⟨b, hb, hfits⟩ := hs.temps t k hk
  exact ⟨b, s, by rw [run_binding, hb], hfits, hs⟩

theorem lowers_address (hk : K t = some k) (ha : ∀ b, k.Binds b → b.ty = .ptr ∧ b.callee = none) :
    Lowers p xs e K (address t) k.Binds K := by
  refine (lowers_binding hk).bind fun b hb => ?_
  obtain ⟨hty, hcallee⟩ := ha b hb
  have hc : (b.ty ≠ .ptr || b.callee.isSome : Bool) = false := by simp [hty, hcallee]
  simp only [hc, Bool.false_eq_true, if_false]
  exact lowers_pure hb

theorem lowers_coerce (b : Binding) (want : Ir.Ty) :
    Lowers p xs e K (coerce b want) (fun _ => True) K :=
  lowers_ite (fun _ => lowers_newConversion.bind fun _ _ => (lowers_addInstr _).bind fun _ _ =>
    lowers_pure trivial) fun _ => lowers_pure trivial

theorem lowers_bindings {P : Binding → Prop}
    (h : ∀ t ∈ ts, ∃ k, K t = some k ∧ ∀ b, k.Binds b → P b) :
    Lowers p xs e K (ts.mapM binding) (fun bs => bs.length = ts.length ∧ ∀ b ∈ bs, P b) K := by
  induction ts with
  | nil => exact lowers_pure ⟨rfl, by simp⟩
  | cons t ts ih =>
    obtain ⟨⟨k, hk, hP⟩, hts⟩ := forall_mem_cons.1 h
    rw [mapM_cons]
    refine (lowers_binding hk).bind fun b hb => (ih hts).bind fun bs hbs => lowers_pure ?_
    exact ⟨congrArg Nat.succ hbs.1, forall_mem_cons.2 ⟨hP b hb, hbs.2⟩⟩

theorem lowers_operandType (op : String) (hne : ts ≠ []) (h : ∀ t ∈ ts, K t = some (.value ty)) :
    Lowers p xs e K (operandType op ty.tag ts) (fun m => m = ty.machine) K := by
  have hbs : ∀ t ∈ ts, ∃ k, K t = some k ∧ ∀ b, k.Binds b → b.ty = ty.machine :=
    fun t ht => ⟨_, h t ht, fun _ hb => hb⟩
  refine (lowers_bindings hbs).bind fun bs ⟨hlen, hbs⟩ => ?_
  have hany : bs.any (fun b => decide (b.ty = .double)) = decide (ty.machine = .double) := by
    obtain ⟨b, hb⟩ : ∃ b, b ∈ bs := by
      refine exists_mem_of_length_pos ?_
      rw [hlen]
      exact length_pos_of_ne_nil hne
    rw [Bool.eq_iff_iff, any_eq_true, decide_eq_true_iff]
    constructor
    · rintro ⟨c, hc, hd⟩
      rw [← hbs c hc]
      exact of_decide_eq_true hd
    · exact fun hd => ⟨b, hb, decide_eq_true ((hbs b hb).trans hd)⟩
  have hty : (if bs.any (fun b => decide (b.ty = .double)) = true then Ir.Ty.double else .word) =
      ty.machine := by
    rw [hany]
    simpa using ty.machine_eq
  simp only [hty, machineTy_base, ne_eq, not_true_eq_false, if_false]
  exact lowers_pure rfl

/-! ## Instructions -/

theorem lowers_const {text : String} (h : IsConstant text ty) :
    Lowers p xs e K (lowerConst text ty.tag) (Kind.value ty).Binds K := by
  cases ty with
  | int =>
    obtain ⟨n, hn, rfl⟩ := h
    have hread := Numeral.readLiteral_decimalText hn
    refine lowers_ite nofun fun _ => ?_
    simp only [hread, Option.isSome_none, Bool.false_eq_true, if_false]
    exact lowers_pure rfl
  | double =>
    obtain ⟨-, x, hx⟩ := h
    refine lowers_ite (fun _ => ?_) fun hd => absurd rfl hd
    rw [hx]
    exact lowers_pure rfl

theorem lowers_intern (text : String) : Lowers p xs e K (intern text) (fun _ => True) K := by
  intro s hs
  obtain ⟨_, -, hrun⟩ := exists_intern text s
  exact ⟨_, _, hrun, trivial, hs.congr rfl rfl rfl rfl⟩

theorem lowers_load (hk : K addr = some (.place ty)) :
    Lowers p xs e K (lowerLoad dst addr ty.tag) (fun _ => True) (K.add (some (dst, .value ty))) := by
  refine (lowers_address hk fun _ hb => ⟨hb.1, hb.2.1⟩).bind fun a ha => ?_
  rw [ha.2.2, machineTy_tag]
  exact lowers_defineTemp ty _

theorem lowers_store {val : Temp} (ha : K addr = some (.place ty))
    (hv : K val = some (.value ty)) : Lowers p xs e K (lowerStore dst addr val ty.tag)
      (fun _ => True) (K.add (some (dst, .value ty))) := by
  refine (lowers_address ha fun _ hb => ⟨hb.1, hb.2.1⟩).bind fun a _ => (lowers_binding hv).bind
    fun v hv => (lowers_coerce _ _).bind fun x _ => (lowers_addInstr _).bind fun _ _ =>
      lowers_bind ?_
  split
  · exact machineTy_tag ty
  · exact hv

theorem lowers_index {base idx : Temp} (hb : K base = some .block)
    (hi : K idx = some (.value .int)) : Lowers p xs e K (lowerIndex dst base idx ty.tag)
      (fun _ => True) (K.add (some (dst, .place ty))) := by
  have hscale : ∀ (b : Binding) (i : Ir.Value), Lowers p xs e K
      (scaleIndex dst ty.tag.base b.val i) (fun _ => True) (K.add (some (dst, .place ty))) :=
    fun _ _ => lowers_newConversion.bind fun _ _ => (lowers_addInstr _).bind fun _ _ =>
      (lowers_addInstr _).bind fun _ _ => lowers_bind ⟨rfl, rfl, rfl⟩
  refine (lowers_address hb fun _ hb => hb).bind fun b _ => (lowers_binding hi).bind fun _ _ =>
    lowers_get fun s => lowers_ite (fun _ => ?_) fun _ => ?_
  · exact lowers_newConversion.bind fun _ _ => (lowers_addInstr _).bind fun _ _ =>
      (lowers_pure (V := fun _ => True) trivial).bind fun _ _ => hscale b _
  · exact (lowers_pure (V := fun _ => True) trivial).bind fun _ _ => hscale b _

theorem lowers_negate (hx : K x = some (.value ty)) :
    Lowers p xs e K (lowerUnary dst "-" x ty.tag) (fun _ => True)
      (K.add (some (dst, .value ty))) := by
  refine (lowers_operandType _ (by simp) (by simpa using hx)).bind fun m hm => ?_
  subst hm
  exact (lowers_binding hx).bind fun b _ => (lowers_coerce b _).bind fun _ _ =>
    lowers_defineTemp ty _

theorem lowers_complement (tag : Tag) (hx : K x = some (.value .int)) :
    Lowers p xs e K (lowerUnary dst "~" x tag) (fun _ => True) (K.add (some (dst, .value .int))) :=
  have htype : Lowers p xs e K (operandType "~" Ty.int.tag [x]) (fun m => m = .word) K :=
    lowers_operandType _ (by simp) (by simpa using hx)
  htype.bind fun _ _ => (lowers_binding hx).bind fun b _ => (lowers_coerce b _).bind fun _ _ =>
    lowers_defineTemp .int _

theorem lowers_operation {o : Ir.Op} {lexeme : String} {kx ky : Kind} (hx : K x = some kx)
    (hy : K y = some ky) (ty : Ty) (operandTy : Ir.Ty) :
    Lowers p xs e K (lowerOperation dst (some o) lexeme x y ty.machine operandTy) (fun _ => True)
      (K.add (some (dst, .value ty))) :=
  (lowers_binding hx).bind fun b _ => (lowers_coerce b _).bind fun _ _ =>
    (lowers_binding hy).bind fun c _ => (lowers_coerce c _).bind fun _ _ => lowers_defineTemp ty _

theorem lowers_binary (op : Op cls) (tag : Tag) {res : Ty} (hx : K x = some (.value ty))
    (hy : K y = some (.value ty)) (hcls : match cls with
      | .arith => tag = ty.tag ∧ res = ty
      | .bitwise => ty = .int ∧ res = .int
      | .compare => tag = ty.tag ∧ res = .int) :
    Lowers p xs e K (lowerBinary cls dst op.text x y tag) (fun _ => True)
      (K.add (some (dst, .value res))) := by
  obtain ⟨o, ho⟩ := exists_operation op
  have htype : Lowers p xs e K (operandType op.text ty.tag [x, y]) (fun m => m = ty.machine) K :=
    lowers_operandType _ (by simp) (by simpa using ⟨hx, hy⟩)
  cases cls with
  | arith =>
    obtain ⟨rfl, rfl⟩ := hcls
    refine htype.bind fun m hm => ?_
    subst hm
    rw [ho]
    exact lowers_operation hx hy res _
  | bitwise =>
    obtain ⟨rfl, rfl⟩ := hcls
    refine htype.bind fun _ _ => ?_
    rw [ho]
    exact lowers_operation hx hy .int _
  | compare =>
    obtain ⟨rfl, rfl⟩ := hcls
    refine htype.bind fun m _ => ?_
    rw [ho]
    exact lowers_operation hx hy .int m

theorem lowers_cast (hx : K x = some k) :
    Lowers p xs e K (lowerCast dst x ty.tag) (fun _ => True) (K.add (some (dst, .value ty))) := by
  refine (lowers_binding hx).bind fun b _ => ?_
  simp only [machine_of_isDouble]
  exact lowers_ite (fun hty => lowers_bind hty) fun _ => lowers_defineTemp ty _

theorem lowers_ret {val : Option Temp} (h : ∀ x ∈ val, ∃ ty, K x = some (.value ty)) :
    Lowers p xs e K (lowerRet val) (fun _ => True) K := by
  refine lowers_get fun s => ?_
  cases val with
  | none => exact lowers_addInstr _
  | some x =>
    obtain ⟨ty, hx⟩ := h x rfl
    exact (lowers_binding hx).bind fun _ _ => (lowers_coerce _ _).bind fun _ _ => lowers_addInstr _

/-! ## Calls -/

theorem lowers_callThrough (handle : Ir.Value)
    (helem : v.elem = ty.machine ∨ v.elem = .none ∧ ty = .int)
    (hcount : v.name ∈ p.funcs.map (·.name) → (args.length : Int) = v.fixed)
    (hargs : ∀ a ∈ args, ∃ k, K a = some k) :
    Lowers p xs e K (callThrough dst handle v args) (fun _ => True)
      (K.add (some (dst, .value ty))) := by
  have hforeign : Lowers p xs e K (declareForeign v) (fun _ => True) K := by
    refine lowers_modify fun s => ?_
    split <;> exact ⟨rfl, rfl, rfl, rfl⟩
  have hcheck : Lowers p xs e K (checkCount v args.length) (fun _ => True) K := by
    intro s hs
    have hc : (s.defined.contains v.name && !v.variadic && decide ((args.length : Int) ≠ v.fixed)) =
        false := by
      rw [hs.defined]
      by_cases hmem : v.name ∈ p.funcs.map (·.name)
      · simp [hcount hmem]
      · simp [hmem]
    refine ⟨(), s, ?_, trivial, hs⟩
    show (if (s.defined.contains v.name && !v.variadic && decide ((args.length : Int) ≠ v.fixed)) =
      true then _ else pure () : LowerM Unit) s = _
    rw [hc]
    rfl
  have hbs : ∀ a ∈ args, ∃ k, K a = some k ∧ ∀ b, k.Binds b → True :=
    fun a ha => (hargs a ha).imp fun _ hk => ⟨hk, fun _ _ => trivial⟩
  refine hforeign.bind fun _ _ => hcheck.bind fun _ _ => (lowers_bindings hbs).bind fun bs _ => ?_
  rcases helem with helem | ⟨helem, rfl⟩
  · have hne : v.elem ≠ .none := by
      rw [helem]
      cases ty <;> simp [Ty.machine]
    rw [if_neg hne, helem]
    exact lowers_defineTemp ty _
  · rw [if_pos helem]
    exact (lowers_addInstr _).bind fun _ _ => lowers_bind rfl

theorem exists_local?_placed {id : Symbols.EntryId} {handle : Ir.Value} (hid : id < T.entries.size)
    (hv : T.local? n = some v) (htag : v.tag = tag) (hhandle : v.handle = some handle) : ∃ v h,
      (T.modifyEntry id (placedEntry name)).local? n = some v ∧ v.tag = tag ∧ v.handle = some h := by
  obtain ⟨k, hk, rfl⟩ := Option.map_eq_some_iff.1 hv
  refine ⟨((T.modifyEntry id (placedEntry name)).entry k).face, ?_⟩
  have hlocal : (T.modifyEntry id (placedEntry name)).local? n =
      some ((T.modifyEntry id (placedEntry name)).entry k).face := by
    rw [Table.local?, Table.inner_modifyEntry, hk]
    rfl
  by_cases hki : k = id
  · subst hki
    refine ⟨.global name, hlocal, ?_⟩
    rw [Table.entry_modifyEntry_self hid]
    exact ⟨htag, rfl⟩
  · refine ⟨handle, hlocal, ?_⟩
    rw [Table.entry_modifyEntry_of_ne hki]
    exact ⟨htag, hhandle⟩

theorem Bound.over (h : Bound p xs e K s) {r : Report} (hT : Serves p xs T)
    (hr : r.errorCount = s.report.errorCount) : Bound p xs e K (s.over T r) :=
  ⟨h.temps, hT, h.defined, hr.trans h.errors⟩

theorem lowers_call {callee : Temp} (hcallee : K callee = some (.func name))
    (hsig : p.signature? name = some sig) (harity : ∀ n ∈ sig.arity, args.length = n)
    (hargs : ∀ a ∈ args, ∃ k, K a = some k) :
    Lowers p xs e K (lowerCall dst callee args) (fun _ => True)
      (K.add (some (dst, .value sig.ty))) := by
  intro s hs
  obtain ⟨b, hb, hname⟩ := hs.temps callee _ hcallee
  have hthrough : ∀ {v : Entry} {handle : Ir.Value} {s1 : State}, Bound p xs e K s1 →
      lowerCall dst callee args s = callThrough dst handle v args s1 →
      (v.elem = sig.ty.machine ∨ v.elem = .none ∧ sig.ty = .int) →
      (v.name ∈ p.funcs.map (·.name) → (args.length : Int) = v.fixed) →
      Yields (lowerCall dst callee args) s fun _ s' =>
        True ∧ Bound p xs e (K.add (some (dst, .value sig.ty))) s' := by
    intro v handle s1 hs1 hrun helem hcount
    obtain ⟨a, s', hx, hs'⟩ := lowers_callThrough handle helem hcount hargs s1 hs1
    exact ⟨a, s', hrun.trans hx, hs'⟩
  have hanswers := hs.table.calls name sig hsig
  cases hv : s.table.global? name with
  | none =>
    rw [hv] at hanswers
    obtain ⟨hint, hnew⟩ := hanswers
    have helem : Ir.Ty.word = sig.ty.machine := by rw [hint]; rfl
    refine hthrough (hs.over ?_ (errorCount_warn _ _ _ _)) (run_lowerCall_new hb hname hv)
      (.inl helem) fun hmem => absurd hmem hnew
    have hinner : (declareImplicit s.table name args.length).inner = s.table.inner := by
      rw [declareImplicit, Table.inner_modifyEntry, Table.inner_installAt_zero]
    refine hs.table.update hsig (hs.table.tidy.installAt fun _ => rfl) hinner (fun x hx => ?_)
      (fun n hn => ?_) ?_
    · rw [declareImplicit, Table.local?_installAt hs.table.tidy]
      exact hs.table.locals x hx
    · exact (global?_declareImplicit hs.table.tidy name n _).trans (if_neg hn)
    · rw [global?_declareImplicit hs.table.tidy, if_pos rfl]
      exact ⟨rfl, by rintro ⟨⟩, fun _ => .inl helem, fun hmem => absurd hmem hnew⟩
  | some v =>
    rw [hv] at hanswers
    obtain ⟨hk, hunplaced, hplaced, hfixed⟩ := hanswers
    have hvname : v.name = name := hs.table.tidy.name_eq hv
    have hcount : v.name ∈ p.funcs.map (·.name) → (args.length : Int) = v.fixed := by
      intro hmem
      obtain ⟨k, hk, hfix⟩ := hfixed (hvname ▸ hmem)
      rw [hfix, harity k hk]
    cases hp : v.handle with
    | some handle =>
      exact hthrough hs (run_lowerCall_known hb hname hv hk hp) (hplaced (by simp [hp])) hcount
    | none =>
      obtain ⟨id, hid, rfl, hrun⟩ := run_lowerCall_unplaced hs.table.tidy hb hname hv hk hp
      refine hthrough (hs.over ?_ rfl) hrun (.inl (hunplaced hp)) hcount
      have hglobal : ∀ n, (s.table.modifyEntry id (placedEntry name)).global? n = if n = name then
          some (placedEntry name (s.table.entry id)).face else s.table.global? n :=
        fun n => Table.global?_modifyEntry hs.table.tidy.sound hid
      refine hs.table.update hsig (hs.table.tidy.modifyEntry fun _ => rfl) rfl (fun x hx => ?_)
        (fun n hn => (hglobal n).trans (if_neg hn)) ?_
      · obtain ⟨v, h, hv, htag, hhandle⟩ := hs.table.locals x hx
        exact exists_local?_placed (hs.table.tidy.sound name id hid).1 hv htag hhandle
      · rw [hglobal, if_pos rfl]
        exact ⟨hk, by rintro ⟨⟩, fun _ => .inl (hunplaced hp), hfixed⟩

/-! ## Checked code -/

theorem lowers_gives (hdone : done.vars ⊆ p.vars) {q : Quad} {r : Option (Temp × Kind)}
    (h : Gives (p.names done f) K q r) (hq : inBlock q = true) :
    Lowers p f.scope e K (lowerQuad q) (fun _ => True) (K.add r) := by
  cases h with
  | label | patch | condJump => cases hq
  | stmtBegin line => exact lowers_modify fun _ => ⟨rfl, rfl, rfl, rfl⟩
  | jump target => exact lowers_addInstr _
  | funcEnd => exact lowers_get fun _ => lowers_addInstr _
  | branch hc => exact (lowers_binding hc).bind fun _ _ => lowers_addInstr _
  | ret hval => exact lowers_ret hval
  | arg hx => exact (lowers_binding hx).bind fun _ _ => lowers_pure trivial
  | const hc => exact (lowers_const hc).bind fun _ hb => lowers_bind hb
  | string => exact (lowers_intern _).bind fun _ _ => lowers_bind ⟨rfl, rfl⟩
  | scalar hn =>
    refine Lowers.bind (V := (Kind.place _).Binds) (fun s hs => ?_) fun _ hb => lowers_bind hb
    obtain ⟨b, hb, hty, hcallee, harray⟩ := hs.table.ref hdone hn
    exact ⟨b, s, hb, ⟨hty, hcallee, harray.trans (isArray_tag _)⟩, hs⟩
  | array hn =>
    refine Lowers.bind (V := Kind.block.Binds) (fun s hs => ?_) fun _ hb => lowers_bind hb
    obtain ⟨b, hb, hty, hcallee, -⟩ := hs.table.ref hdone hn
    exact ⟨b, s, hb, ⟨hty, hcallee⟩, hs⟩
  | func hn =>
    obtain ⟨hsig, -⟩ := Program.signature?_of_calls hn
    refine Lowers.bind (V := (Kind.func _).Binds) (fun s hs => ?_) fun _ hb => lowers_bind hb
    refine ⟨_, s, hs.table.callee hsig, ?_, hs⟩
    exact if_neg (Program.ne_empty_of_signature? hsig)
  | load ha => exact lowers_load ha
  | store ha hv => exact lowers_store ha hv
  | index hb hi => exact lowers_index hb hi
  | negate hx => exact lowers_negate hx
  | complement hx => exact lowers_complement .int hx
  | arith op hx hy | compare op hx hy => exact lowers_binary op _ hx hy ⟨rfl, rfl⟩
  | bitwise op hx hy => exact lowers_binary op .int hx hy ⟨rfl, rfl⟩
  | cast hx => exact lowers_cast hx
  | call hcallee hn harity hargs =>
    exact lowers_call hcallee (Program.signature?_of_calls hn).1 harity hargs

theorem lowers_checks (hdone : done.vars ⊆ p.vars) {qs : List Quad} {K' : Kinds}
    (h : Checks (p.names done f) K qs K') (hqs : ∀ q ∈ qs, inBlock q = true) :
    Lowers p f.scope e K (qs.forM lowerQuad) (fun _ => True) K' := by
  induction h with
  | nil => exact lowers_pure trivial
  | cons hq _ ih =>
    obtain ⟨hq', hqs⟩ := forall_mem_cons.1 hqs
    exact (lowers_gives hdone hq hq').bind fun _ _ => ih hqs

end Quadruple.Source
