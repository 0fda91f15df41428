import Quadruple.Proofs.Lowering.Names

/-!
# Two lowerings side by side

Main statement: `matches_lowerQuad`. Two lowerings may have found different places for the same
things. `V` says which operands of the one correspond to which of the other; where the states
correspond, a step that looks at neither the table nor the literals does the same in both.
-/

namespace Quadruple

open List

/-- Instructions that differ in their operands only, and these correspond. -/
structure Ir.Instr.Like (V : Ir.Value → Ir.Value → Prop) (i j : Ir.Instr) : Prop where
  args : Forall₂ V i.args j.args
  rest : j = { i with args := j.args }

structure Ir.Block.Like (V : Ir.Value → Ir.Value → Prop) (b c : Ir.Block) : Prop where
  label : c.label = b.label
  instrs : Forall₂ (Ir.Instr.Like V) b.instrs c.instrs

structure Ir.Func.Like (V : Ir.Value → Ir.Value → Prop) (f g : Ir.Func) : Prop where
  blocks : Forall₂ (Ir.Block.Like V) f.blocks g.blocks
  rest : g = { f with blocks := g.blocks }

variable {i j : Ir.Instr} {C : String → Prop} {V W : Ir.Value → Ir.Value → Prop}

section Like

variable (h : ∀ v w, V v w → W v w)

include h

theorem Ir.Instr.Like.mono (hi : i.Like V j) : i.Like W j := ⟨hi.args.imp h, hi.rest⟩

theorem Ir.Block.Like.mono {b c : Ir.Block} (hb : b.Like V c) : b.Like W c :=
  ⟨hb.label, hb.instrs.imp fun _ _ hi => hi.mono h⟩

theorem Ir.Func.Like.mono {f g : Ir.Func} (hf : f.Like V g) : f.Like W g :=
  ⟨hf.blocks.imp fun _ _ hb => hb.mono h, hf.rest⟩

end Like

namespace Lowering

open Symbols (Entry)
open Ir (Instr Value Ty)

def Designates (C : String → Prop) (b : Binding) : Prop := ∀ n, b.callee = some n → C n

variable {b : Binding} {s t : State}

theorem designates_of_none (h : b.callee = none) : Designates C b := by
  intro n hn
  rw [h] at hn
  cases hn

/-- Bindings that differ in their values only, which correspond, and that designate no function but
those of `C`. -/
structure Binding.Like (V : Ir.Value → Ir.Value → Prop) (C : String → Prop) (b c : Binding) :
    Prop where
  val : V b.val c.val
  rest : c = { b with val := c.val }
  designates : Designates C b

structure Matched (V : Ir.Value → Ir.Value → Prop) (C : String → Prop) (s t : State) : Prop where
  settings : t.settings = s.settings
  ret : t.ret = s.ret
  conversions : t.conversions = s.conversions
  fillers : t.fillers = s.fillers
  bindings : Forall₂ (fun p q => q.1 = p.1 ∧ p.2.Like V C q.2) s.bindings t.bindings
  instrs : Forall₂ (Ir.Instr.Like V) s.revInstrs t.revInstrs

def State.shared (s : State) :
    Settings × Symbols.Table × List (List UInt8) × List Ir.Foreign × List String :=
  (s.settings, s.table, s.literals, s.foreign, s.defined)

theorem Matched.mono (h : Matched V C s t) (hVW : ∀ v w, V v w → W v w) : Matched W C s t :=
  ⟨h.settings, h.ret, h.conversions, h.fillers,
    h.bindings.imp fun _ _ hp => ⟨hp.1, hVW _ _ hp.2.val, hp.2.rest, hp.2.designates⟩,
    h.instrs.imp fun _ _ hi => hi.mono hVW⟩

/-- Where the first of two steps succeeds, the second does, and their results correspond by `A`.
Neither changes what the functions share. -/
def Matches {α : Type} (V : Ir.Value → Ir.Value → Prop) (C : String → Prop) (x y : LowerM α)
    (A : α → α → Prop) : Prop :=
  ∀ s t a s', Matched V C s t → x s = .ok a s' → ∃ b t', y t = .ok b t' ∧ A a b ∧
    Matched V C s' t' ∧ s'.shared = s.shared ∧ t'.shared = t.shared

def anyTwo {α : Type} (_ _ : α) : Prop := True

section Matches

variable {α β : Type} {A : α → α → Prop} {B : β → β → Prop}

theorem Matches.bind {x y : LowerM α} {f g : α → LowerM β} (hx : Matches V C x y A)
    (hf : ∀ a b, A a b → Matches V C (f a) (g b) B) : Matches V C (x >>= f) (y >>= g) B := by
  intro s t b s2 hst h
  obtain ⟨a, s1, hxa, hfb⟩ := bind_eq_ok_iff.1 h
  obtain ⟨a', t1, hya, ha, hst1, hs1, ht1⟩ := hx s t a s1 hst hxa
  obtain ⟨b', t2, hgb, hb, hst2, hs2, ht2⟩ := hf a a' ha s1 t1 b s2 hst1 hfb
  exact ⟨b', t2, (run_bind_of_ok hya).trans hgb, hb, hst2, hs2.trans hs1, ht2.trans ht1⟩

theorem matches_pure {a b : α} (h : A a b) : Matches V C (pure a) (pure b) A := by
  rintro s t _ _ hst ⟨⟩
  exact ⟨b, t, rfl, h, hst, rfl, rfl⟩

theorem matches_throw (e e' : Fault) : Matches V C (throw e : LowerM α) (throw e') A := by
  rintro s t _ _ hst ⟨⟩

theorem matches_modify {f g : State → State} (h : ∀ s t, Matched V C s t → Matched V C (f s) (g t))
    (hf : ∀ s, (f s).shared = s.shared) (hg : ∀ s, (g s).shared = s.shared) :
    Matches V C (modify f) (modify g) anyTwo := by
  rintro s t _ _ hst ⟨⟩
  exact ⟨⟨⟩, g t, rfl, trivial, h s t hst, hf s, hg t⟩

theorem matches_get {f g : State → LowerM α}
    (h : ∀ s t, Matched V C s t → Matches V C (f s) (g t) A) :
    Matches V C (get >>= f) (get >>= g) A :=
  fun s t a s' hst hrun => h s t hst s t a s' hst hrun

theorem matches_ite {c d : Prop} [Decidable c] [Decidable d] {x y x' y' : LowerM α} (hcd : d ↔ c)
    (hx : c → Matches V C x x' A) (hy : ¬c → Matches V C y y' A) :
    Matches V C (if c then x else y) (if d then x' else y') A := by
  by_cases h : c
  · rw [if_pos h, if_pos (hcd.2 h)]
    exact hx h
  · rw [if_neg h, if_neg (mt hcd.1 h)]
    exact hy h

theorem matches_mapM {f g : β → LowerM α} (h : ∀ b, Matches V C (f b) (g b) A) (bs : List β) :
    Matches V C (bs.mapM f) (bs.mapM g) (Forall₂ A) := by
  induction bs with
  | nil => exact matches_pure .nil
  | cons b bs ih =>
    rw [mapM_cons, mapM_cons]
    exact (h b).bind fun _ _ ha => ih.bind fun _ _ has => matches_pure (.cons ha has)

theorem matches_forM {f g : β → LowerM PUnit} (h : ∀ b, Matches V C (f b) (g b) anyTwo)
    (bs : List β) : Matches V C (bs.forM f) (bs.forM g) anyTwo := by
  induction bs with
  | nil => exact matches_pure trivial
  | cons b bs ih => exact (h b).bind fun _ _ _ => ih

end Matches

/-! ## Small steps -/

theorem matches_report {f g : State → Report} :
    Matches V C (modify fun s => { s with report := f s })
      (modify fun s => { s with report := g s }) anyTwo :=
  matches_modify (fun _ _ h => ⟨h.settings, h.ret, h.conversions, h.fillers, h.bindings, h.instrs⟩)
    (fun _ => rfl) fun _ => rfl

theorem matches_addInstr (h : i.Like V j) : Matches V C (addInstr i) (addInstr j) anyTwo :=
  matches_modify (fun _ _ hst => ⟨hst.settings, hst.ret, hst.conversions, hst.fillers,
    hst.bindings, .cons h hst.instrs⟩) (fun _ => rfl) fun _ => rfl

theorem matches_bindTemp (t : Temp) {c : Binding} (h : b.Like V C c) :
    Matches V C (Lowering.bind t b) (Lowering.bind t c) anyTwo :=
  matches_modify (fun _ _ hst => ⟨hst.settings, hst.ret, hst.conversions, hst.fillers,
    .cons ⟨rfl, h⟩ hst.bindings, hst.instrs⟩) (fun _ => rfl) fun _ => rfl

theorem matches_newConversion :
    Matches V C newConversion newConversion fun v w => w = v ∧ ∃ k : Int, v = .temp "x" k := by
  rintro s t _ _ hst ⟨⟩
  refine ⟨_, _, rfl, ⟨?_, _, rfl⟩, ⟨hst.settings, hst.ret, ?_, hst.fillers, hst.bindings,
    hst.instrs⟩, rfl, rfl⟩
  · rw [hst.conversions]
  · show t.conversions + 1 = s.conversions + 1
    rw [hst.conversions]

theorem exists_lookup {bs cs : List (Temp × Binding)}
    (h : Forall₂ (fun p q => q.1 = p.1 ∧ p.2.Like V C q.2) bs cs) {t : Temp}
    (hb : bs.lookup t = some b) : ∃ c, cs.lookup t = some c ∧ b.Like V C c := by
  induction h with
  | nil => cases hb
  | @cons p q bs cs hpq _ ih =>
    obtain ⟨u, b'⟩ := p
    obtain ⟨u', c⟩ := q
    obtain ⟨hu, hlike⟩ := hpq
    obtain rfl : u' = u := hu
    rw [lookup_cons] at hb ⊢
    cases hkey : t == u' with
    | true =>
      rw [hkey] at hb
      cases hb
      exact ⟨c, rfl, hlike⟩
    | false =>
      rw [hkey] at hb
      exact ih hb

theorem matches_binding (t : Temp) :
    Matches V C (binding t) (binding t) (Binding.Like V C) := by
  intro s u b s' hsu h
  rw [run_binding] at h
  cases hl : s.bindings.lookup t with
  | none =>
    rw [hl] at h
    cases h
  | some b' =>
    rw [hl] at h
    cases h
    obtain ⟨c, hc, hlike⟩ := exists_lookup hsu.bindings hl
    exact ⟨c, u, by rw [run_binding, hc], hlike, hsu, rfl, rfl⟩

theorem matches_address (t : Temp) :
    Matches V C (address t) (address t) (Binding.Like V C) := by
  refine (matches_binding t).bind fun b c hbc => matches_ite ?_ (fun _ => ?_) fun _ => ?_
  · rw [hbc.rest]
  · exact matches_get fun _ _ _ => (matches_throw (A := anyTwo) _ _).bind fun _ _ _ =>
      matches_pure hbc
  · exact matches_pure hbc

theorem like_conversion (want : Ty) {v w : Value} (h : V v w) :
    (conversion want v).Like V (conversion want w) := by
  unfold conversion
  split <;> exact ⟨.cons h .nil, rfl⟩

theorem matches_operandType (op : String) (tag : Tag) (ts : List Temp) :
    Matches V C (operandType op tag ts) (operandType op tag ts) fun a b => b = a := by
  refine (matches_mapM matches_binding ts).bind fun bs cs hbs => ?_
  have htys : cs.any (·.ty = .double) = bs.any (·.ty = .double) := by
    induction hbs with
    | nil => rfl
    | cons hb _ ih => rw [any_cons, any_cons, ih, hb.rest]
  rw [htys]
  exact matches_ite Iff.rfl (fun _ => matches_report.bind fun _ _ _ => matches_pure rfl)
    fun _ => matches_pure rfl

theorem isEmpty_revInstrs (h : Matched V C s t) : t.revInstrs.isEmpty = s.revInstrs.isEmpty := by
  have hinstrs := h.instrs
  revert hinstrs
  generalize s.revInstrs = is, t.revInstrs = js
  rintro (_ | _) <;> rfl

theorem isTerminated_eq (h : Matched V C s t) : t.isTerminated = s.isTerminated := by
  have hinstrs := h.instrs
  unfold State.isTerminated
  revert hinstrs
  generalize s.revInstrs = is, t.revInstrs = js
  rintro (_ | ⟨hi, _⟩)
  · rfl
  · exact congrArg (·.op.isTerminator) hi.rest

section Values

variable (hV : ∀ v : Value, (∀ n, v ≠ .global n) → V v v)

include hV

theorem like_temp (name : String) (id : Int) : V (.temp name id) (.temp name id) := hV _ (by simp)

theorem like_const (n : Int) : V (.const n) (.const n) := hV _ (by simp)

theorem like_plain (hb : ∀ n, b.val ≠ .global n) (hc : b.callee = none) :
    b.Like V C b := ⟨hV _ hb, rfl, designates_of_none hc⟩

theorem matches_defineTemp (t : Temp) (ty : Ty) (h : i.Like V j) :
    Matches V C (defineTemp t ty i) (defineTemp t ty j) anyTwo := by
  refine (matches_bindTemp t (like_plain hV (by simp [tempValue]) rfl)).bind fun _ _ _ =>
    matches_addInstr ⟨h.args, ?_⟩
  rw [h.rest]

theorem matches_coerce {c : Binding} (h : b.Like V C c) (want : Ty) :
    Matches V C (coerce b want) (coerce c want) V := by
  refine matches_ite (by rw [h.rest]) (fun _ => ?_) fun _ => matches_pure h.val
  refine matches_newConversion.bind ?_
  rintro v _ ⟨rfl, k, rfl⟩
  have hconv := like_conversion want h.val
  have hlike : Instr.Like V { conversion want b.val with result := some (.temp "x" k) }
      { conversion want c.val with result := some (.temp "x" k) } := by
    refine ⟨hconv.args, ?_⟩
    rw [hconv.rest]
  exact (matches_addInstr hlike).bind fun _ _ _ => matches_pure (like_temp hV _ _)

/-! ## Single instructions of a block -/

theorem matches_lowerConst (text : String) (tag : Tag) :
    Matches V C (lowerConst text tag) (lowerConst text tag) (Binding.Like V C) := by
  have hconst : ∀ n : Int, Binding.Like V C { val := .const n, ty := .word }
      { val := .const n, ty := .word } := fun _ => like_plain hV (by simp) rfl
  refine matches_ite Iff.rfl (fun _ => ?_) fun _ => matches_ite Iff.rfl
    (fun _ => matches_report.bind fun _ _ _ => matches_pure (hconst _))
    fun _ => matches_pure (hconst _)
  split
  · exact matches_pure (like_plain hV (by simp) rfl)
  · exact matches_throw _ _

theorem matches_lowerLoad (dst addr : Temp) (tag : Tag) :
    Matches V C (lowerLoad dst addr tag) (lowerLoad dst addr tag) anyTwo :=
  (matches_address addr).bind fun b c h => matches_ite (by rw [h.rest])
    (fun _ => matches_bindTemp dst h)
    fun _ => matches_defineTemp hV _ _ ⟨.cons h.val .nil, rfl⟩

theorem matches_lowerStore (dst addr val : Temp) (tag : Tag) :
    Matches V C (lowerStore dst addr val tag) (lowerStore dst addr val tag) anyTwo := by
  refine (matches_address addr).bind fun a a' ha => (matches_binding val).bind fun b c h =>
    (matches_coerce hV h _).bind fun x y hxy =>
      (matches_addInstr ⟨.cons hxy (.cons ha.val .nil), rfl⟩).bind fun _ _ _ =>
        matches_bindTemp dst ?_
  have hty : c.ty = b.ty := by rw [h.rest]
  rw [hty]
  split
  · exact ⟨hxy, rfl, designates_of_none rfl⟩
  · exact h

theorem matches_lowerIndex (dst base idx : Temp) (tag : Tag) :
    Matches V C (lowerIndex dst base idx tag) (lowerIndex dst base idx tag) anyTwo := by
  refine (matches_address base).bind fun b c hb => (matches_binding idx).bind fun i j hi =>
    matches_get fun s t hst => ?_
  have hscale : ∀ v w : Value, V v w → Matches V C (scaleIndex dst tag.base b.val v)
      (scaleIndex dst tag.base c.val w) anyTwo := by
    intro v w hvw
    refine matches_newConversion.bind ?_
    rintro x _ ⟨rfl, k, rfl⟩
    exact (matches_addInstr ⟨.cons hvw (.cons (like_const hV _) .nil), rfl⟩).bind fun _ _ _ =>
      (matches_addInstr ⟨.cons hb.val (.cons (like_temp hV _ _) .nil), rfl⟩).bind fun _ _ _ =>
        matches_bindTemp dst (like_plain hV (by simp [tempValue]) rfl)
  refine matches_ite (by rw [hst.settings]) (fun _ => ?_) fun _ => ?_
  · refine matches_newConversion.bind ?_
    rintro x _ ⟨rfl, k, rfl⟩
    exact (matches_addInstr ⟨.cons hi.val .nil, rfl⟩).bind fun _ _ _ =>
      (matches_pure (like_temp hV "x" k)).bind hscale
  · exact (matches_pure hi.val).bind hscale

theorem matches_lowerUnary (dst : Temp) (op : String) (x : Temp) (tag : Tag) :
    Matches V C (lowerUnary dst op x tag) (lowerUnary dst op x tag) anyTwo := by
  unfold lowerUnary
  split
  · refine (matches_operandType _ _ _).bind ?_
    rintro ty _ rfl
    exact (matches_binding x).bind fun _ _ h => (matches_coerce hV h _).bind fun _ _ hvw =>
      matches_defineTemp hV _ _ ⟨.cons hvw .nil, rfl⟩
  · exact (matches_operandType _ _ _).bind fun _ _ _ => (matches_binding x).bind fun _ _ h =>
      (matches_coerce hV h _).bind fun _ _ hvw =>
        matches_defineTemp hV _ _ ⟨.cons hvw (.cons (like_const hV _) .nil), rfl⟩
  · exact matches_throw _ _

theorem matches_lowerOperation (dst : Temp) (op? : Option Ir.Op) (lexeme : String) (x y : Temp)
    (ty operandTy : Ty) :
    Matches V C (lowerOperation dst op? lexeme x y ty operandTy)
      (lowerOperation dst op? lexeme x y ty operandTy) anyTwo := by
  cases op? with
  | none => exact matches_throw _ _
  | some op =>
    exact (matches_binding x).bind fun _ _ hx => (matches_coerce hV hx _).bind fun _ _ hv =>
      (matches_binding y).bind fun _ _ hy => (matches_coerce hV hy _).bind fun _ _ hw =>
        matches_defineTemp hV _ _ ⟨.cons hv (.cons hw .nil), rfl⟩

theorem matches_lowerBinary (cls : OpClass) (dst : Temp) (op : String) (x y : Temp) (tag : Tag) :
    Matches V C (lowerBinary cls dst op x y tag) (lowerBinary cls dst op x y tag) anyTwo := by
  cases cls <;>
  · refine (matches_operandType _ _ _).bind ?_
    rintro ty _ rfl
    exact matches_lowerOperation hV _ _ _ _ _ _ _

theorem matches_lowerCast (dst x : Temp) (tag : Tag) :
    Matches V C (lowerCast dst x tag) (lowerCast dst x tag) anyTwo :=
  (matches_binding x).bind fun b c h => matches_ite (by rw [h.rest])
    (fun _ => matches_bindTemp dst h)
    fun _ => matches_defineTemp hV _ _ (like_conversion _ h.val)

theorem like_defaultReturn (ret : Ty) : (defaultReturn ret).Like V (defaultReturn ret) := by
  refine ⟨?_, rfl⟩
  unfold defaultReturn
  split
  · exact .cons (hV _ (by simp)) .nil
  · exact .nil
  · exact .cons (like_const hV _) .nil

theorem matches_lowerRet (val : Option Temp) :
    Matches V C (lowerRet val) (lowerRet val) anyTwo := by
  refine matches_get fun s t hst => ?_
  rw [hst.ret]
  cases val with
  | none => exact matches_addInstr (like_defaultReturn hV _)
  | some u =>
    exact (matches_binding u).bind fun _ _ h => (matches_coerce hV h _).bind fun _ _ hvw =>
      matches_addInstr ⟨.cons hvw .nil, rfl⟩

/-- All instructions but literals, references and calls are lowered alike. -/
theorem matches_lowerQuad {q : Quad} (hstring : ∀ dst text, q ≠ .string dst text)
    (href : ∀ dst storage name offset, q ≠ .ref dst storage name offset)
    (hcall : ∀ dst callee tag args, q ≠ .call dst callee tag args) :
    Matches V C (lowerQuad q) (lowerQuad q) anyTwo := by
  cases q with
  | string => exact absurd rfl (hstring _ _)
  | ref => exact absurd rfl (href _ _ _ _)
  | call => exact absurd rfl (hcall _ _ _ _)
  | stmtBegin line =>
    exact matches_modify (fun _ _ h => ⟨h.settings, h.ret, h.conversions, h.fillers, h.bindings,
      h.instrs⟩) (fun _ => rfl) fun _ => rfl
  | const dst text tag =>
    exact (matches_lowerConst hV text tag).bind fun _ _ h => matches_bindTemp dst h
  | load dst addr tag => exact matches_lowerLoad hV dst addr tag
  | store dst addr val tag => exact matches_lowerStore hV dst addr val tag
  | index dst base idx tag => exact matches_lowerIndex hV dst base idx tag
  | unary dst op x tag => exact matches_lowerUnary hV dst op x tag
  | binary cls dst op x y tag => exact matches_lowerBinary hV cls dst op x y tag
  | cast dst x tag => exact matches_lowerCast hV dst x tag
  | arg x tag => exact (matches_binding x).bind fun _ _ _ => matches_pure trivial
  | branch cond onTrue onFalse =>
    exact (matches_binding cond).bind fun _ _ h => matches_addInstr
      ⟨.cons h.val (.cons (hV _ (by simp [blockLabel])) (.cons (hV _ (by simp [blockLabel])) .nil)),
        rfl⟩
  | jump target => exact matches_addInstr ⟨.cons (hV _ (by simp [blockLabel])) .nil, rfl⟩
  | ret val tag => exact matches_lowerRet hV val
  | funcEnd =>
    refine matches_get fun s t hst => ?_
    rw [hst.ret]
    exact matches_addInstr (like_defaultReturn hV _)
  | globalDecl | formalDecl | localDecl | funcBegin | condJump | label | patch =>
    exact matches_throw _ _

/-! ## Blocks -/

theorem matches_fillBlock : Matches V C fillBlock fillBlock anyTwo := by
  rintro s t _ s' hst h
  change (ite (s.revInstrs.isEmpty = true) _ _ : LowerM Unit) s = _ at h
  have hrun : ∀ u : State, fillBlock u =
      (ite (u.revInstrs.isEmpty = true) _ _ : LowerM Unit) u := fun _ => rfl
  rw [hrun t, isEmpty_revInstrs hst]
  by_cases hempty : s.revInstrs.isEmpty = true
  · rw [if_pos hempty] at h ⊢
    cases h
    refine ⟨_, _, rfl, trivial, ⟨hst.settings, hst.ret, hst.conversions, ?_, hst.bindings,
      .cons ⟨.cons (like_const hV 0) .nil, ?_⟩ hst.instrs⟩, rfl, rfl⟩
    · show t.fillers + 1 = s.fillers + 1
      rw [hst.fillers]
    · rw [hst.fillers]
  · rw [if_neg hempty] at h ⊢
    cases h
    exact ⟨_, _, rfl, trivial, hst, rfl, rfl⟩

theorem matches_closeBlock (f : Flow.Func) (b : Flow.Block) :
    Matches V C (closeBlock f b) (closeBlock f b) anyTwo := by
  refine matches_get fun s t hst => ?_
  rw [isTerminated_eq hst, hst.ret]
  refine matches_ite Iff.rfl (fun _ => ?_) fun _ => matches_pure trivial
  split
  · exact matches_addInstr ⟨.cons (hV _ (by simp)) .nil, rfl⟩
  · exact matches_addInstr (like_defaultReturn hV _)

omit hV

theorem matches_takeBlock (label : String) :
    Matches V C (takeBlock label) (takeBlock label) (Ir.Block.Like V) := by
  rintro s t _ _ hst ⟨⟩
  exact ⟨_, _, rfl, ⟨rfl, rel_reverse hst.instrs⟩,
    ⟨hst.settings, hst.ret, hst.conversions, hst.fillers, hst.bindings, .nil⟩, rfl, rfl⟩

theorem matches_warnUnreachable (f : Flow.Func) :
    Matches V C (warnUnreachable f) (warnUnreachable f) anyTwo :=
  matches_forM (fun _ => matches_ite Iff.rfl (fun _ => matches_get fun _ _ _ => matches_report)
    fun _ => matches_pure trivial) _

end Values

end Lowering

end Quadruple
