import Quadruple.Proofs.Ir.Closed
import Quadruple.Proofs.Lowering.Trail

/-!
# The types of operands

An operator is lowered in one type, and its operands are converted to it. Main statement:
`operands_typed`.
-/

namespace Quadruple

open List

variable {f : Func}

variable {n : Int} {name : String} {is : List Ir.Instr} {ns : List Notice} {fn : Ir.Func} {q : Quad}

namespace Ir

def Instr.values (i : Instr) : List Value := if i.op = .store then i.args.take 1 else i.args

/-- The type that an instruction works in, in a function with results of type `ret`. -/
def Instr.workTy (ret : Ty) (i : Instr) : Ty :=
  if i.op = .ret then ret else if i.operandTy = .none then i.ty else i.operandTy

/-- The types that a value is defined with: by itself, by a parameter or by instructions. -/
def Func.types (f : Func) : Value → List Ty
  | .const _ => [.word]
  | .float _ ty => [ty]
  | v => (f.params.filter (·.val = v)).map (·.ty) ++
      (f.instrs.filter (·.result = some v)).map (·.ty)

theorem Func.mem_types {i : Instr} (hi : i ∈ f.instrs)
    (hr : i.result = some (.temp name n)) : i.ty ∈ f.types (.temp name n) :=
  mem_append_right _ (mem_map_of_mem (mem_filter.2 ⟨hi, by simpa using hr⟩))

end Ir

/-- The operands that an instruction computes with, stores or returns. -/
def Quad.computed? : Quad → Option (List Temp)
  | .unary _ _ x _ | .cast _ x _ => some [x]
  | .binary _ _ _ x y _ => some [x, y]
  | .store _ _ val _ => some [val]
  | .ret val _ => some val.toList
  | _ => none

/-- The operands that an operator is checked for, with the tag that they should have. -/
def Quad.checked? : Quad → Option (String × Tag × List Temp)
  | .unary _ op x tag => some (op, if op = "-" then tag else .int, [x])
  | .binary cls _ op x y tag => some (op, cls.required tag, [x, y])
  | _ => none

def Diagnostic.isOperandTypes (d : Diagnostic) : Bool :=
  d.isError && "operator '".toList.isPrefixOf d.message.toList

def Symbols.Table.Plain (T : Symbols.Table) : Prop :=
  ∀ n, T.callTy n ∈ [Ir.Ty.none, .word, .double, .ptr]

namespace Lowering

open Quadruple.Flow (Func Block Point)
open Ir (Instr Value Ty)
open Symbols (Entry EntryId Table)

theorem machineTy_cases (t : Tag) :
    machineTy t = .ptr ∨ machineTy t = .word ∨ machineTy t = .double := by
  unfold machineTy
  split
  · exact .inl rfl
  · split
    · exact .inr (.inr rfl)
    · exact .inr (.inl rfl)

theorem operandsTy_cases (bs : List Binding) : operandsTy bs = .word ∨ operandsTy bs = .double := by
  unfold operandsTy
  split
  · exact .inr rfl
  · exact .inl rfl

theorem castTy_cases (tag : Tag) : castTy tag = .word ∨ castTy tag = .double := by
  unfold castTy
  split
  · exact .inr rfl
  · exact .inl rfl

/-! ## Bindings -/

inductive Numeric : Ir.Value → Prop
  | const (n : Int) : Numeric (.const n)
  | float (x : Numeral.Binary64) (ty : Ir.Ty) : Numeric (.float x ty)
  | conversion (k : Nat) : Numeric (.temp "x" k)
  | temp (t : Temp) : Numeric (tempValue t)

/-- A value can be used as a word or as a double, because it is defined so. -/
structure Supplies (fn : Ir.Func) (v : Ir.Value) (ty : Ir.Ty) : Prop where
  type : ty = .word ∨ ty = .double
  value : Numeric v
  mem : ty ∈ fn.types v

def TypedIn (fn : Ir.Func) (b : Binding) : Prop := b.ty = .ptr ∨ Supplies fn b.val b.ty

variable {i : Instr} {ty : Ty} {c : Trail}

variable {new : Option (Temp × Binding)} {x : Value} {v : Visit}

section

variable {s : State} {want : Ty}

theorem supplies_const (n : Int) : Supplies fn (.const n) .word :=
  ⟨.inl rfl, .const n, mem_singleton_self _⟩

theorem supplies_computing (dst : Temp) (hi : computing dst ty i ∈ fn.instrs)
    (hty : ty = .word ∨ ty = .double) :
    Supplies fn (tempValue dst) ty := ⟨hty, .temp dst, Ir.Func.mem_types hi rfl⟩

theorem typed_computing (dst : Temp) (hi : computing dst ty i ∈ fn.instrs)
    (hty : ty = .ptr ∨ ty = .word ∨ ty = .double) :
    TypedIn fn (computed dst ty) := hty.imp_right (supplies_computing dst hi)

theorem conversion_work (h : needsConversion ty want = true) (ret : Ty) (x r : Value)
    (ty' : Ty) : let i : Instr := { conversion want x with ty := ty', result := some r }
    i.values = [x] ∧ i.workTy ret = ty ∧ (conversion want x).ty = want := by
  have hcases : (ty = .double ∧ want = .word) ∨ (ty = .word ∧ want = .double) := by
    simpa [needsConversion] using h
  rcases hcases with ⟨rfl, rfl⟩ | ⟨rfl, rfl⟩ <;> exact ⟨rfl, rfl, rfl⟩

theorem needsConversion_iff (hty : ty = .word ∨ ty = .double)
    (hwant : want = .word ∨ want = .double) : needsConversion ty want = true ↔ ty ≠ want := by
  rcases hty with rfl | rfl <;> rcases hwant with rfl | rfl <;> decide

variable {b : Binding}

theorem Coerced.supplies (h : Coerced b want is x) (hb : TypedIn fn b) (hptr : b.ty ≠ .ptr)
    (hwant : want = .word ∨ want = .double) (his : ∀ i ∈ is, i ∈ fn.instrs) :
    Supplies fn x want ∧ ∀ i ∈ is, ∀ y ∈ i.values, Supplies fn y (i.workTy fn.ret) := by
  have hb := hb.resolve_left hptr
  cases h with
  | keep hn =>
    have hty : b.ty = want := by
      by_contra hne
      rw [(needsConversion_iff hb.type hwant).2 hne] at hn
      cases hn
    exact ⟨hty ▸ hb, by simp⟩
  | convert k hn =>
    obtain ⟨hvalues, hwork, hty⟩ :=
      conversion_work hn fn.ret b.val (.temp "x" k) (conversion want b.val).ty
    have hmem := Ir.Func.mem_types (his _ (mem_singleton_self _)) rfl
    refine ⟨⟨hwant, .conversion k, ?_⟩, forall_mem_singleton.2 ?_⟩
    · rwa [← hty]
    · rw [hvalues, hwork]
      exact forall_mem_singleton.2 hb

theorem Makes.typed {t : Temp} (h : Makes s q is (some (t, b)) ns)
    (hs : ∀ t b, s.bound t = some b → TypedIn fn b) (his : ∀ i ∈ is, i ∈ fn.instrs)
    (hsound : s.table.Sound) (hplain : s.table.Plain) : TypedIn fn b := by
  have hlast : ∀ {js : List Instr} {i : Instr}, is = js ++ [i] → i ∈ fn.instrs := by
    rintro js i rfl
    exact his i (by simp)
  cases h with
  | float => exact .inr ⟨.inr rfl, .float _ _, mem_singleton_self _⟩
  | int | procedure => exact .inr (supplies_const _)
  | string | index => exact .inl rfl
  | ref hb => exact .inl hb.ty
  | array ha | same ha => exact hs _ _ ha
  | load => exact typed_computing _ (his _ (mem_singleton_self _)) (machineTy_cases _)
  | @store _ _ _ tag _ v js x _ _ hv hc =>
    unfold stored
    split
    · next hn =>
      have hty : machineTy tag = .word ∨ machineTy tag = .double := by
        rcases machineTy_cases tag with hty | hty
        · simp [needsConversion, hty] at hn
        · exact hty
      have hptr : v.ty ≠ .ptr := fun hty => by simp [needsConversion, hty] at hn
      exact .inr (hc.supplies (hs _ _ hv) hptr hty fun i hi => his i (mem_append_left _ hi)).1
    · exact hs _ _ hv
  | neg => exact typed_computing _ (hlast rfl) (.inr (operandsTy_cases _))
  | not => exact typed_computing _ (hlast rfl) (.inr (.inl rfl))
  | @binary cls =>
    refine typed_computing _ (hlast rfl) (.inr ?_)
    unfold OpClass.resultTy
    split
    · exact operandsTy_cases _
    · exact .inl rfl
  | cast => exact typed_computing _ (his _ (mem_singleton_self _)) (.inr (castTy_cases _))
  | call hi hne =>
    refine typed_computing _ (his _ (mem_singleton_self _)) ?_
    obtain ⟨_, name, _, _, hty⟩ := hi.callee
    have hmem := hplain name
    rw [← hty hsound] at hmem
    simp only [mem_cons, not_mem_nil, or_false] at hmem
    exact (hmem.resolve_left hne).elim (fun h => .inr (.inl h)) fun h =>
      h.elim (fun h => .inr (.inr h)) .inl

theorem operation?_computes {cls : OpClass} {lexeme : String} {op : Ir.Op}
    (h : operation? cls lexeme = some op) : op ≠ .store ∧ op ≠ .ret := by
  unfold operation? at h
  split at h <;> cases h <;> decide

/-- The operands of an instruction that computes, stores or returns have the type that it works
in. -/
theorem Makes.supplies (h : Makes s q is new ns) (hs : ∀ t b, s.bound t = some b → TypedIn fn b)
    (his : ∀ i ∈ is, i ∈ fn.instrs) (hret : s.ret = fn.ret)
    (hret' : fn.ret = .word ∨ fn.ret = .double)
    (hstore : ∀ dst addr val tag, q = .store dst addr val tag → tag = .int ∨ tag = .double)
    {ts : List Temp} (hts : q.computed? = some ts)
    (hptr : ∀ t ∈ ts, ∀ b, s.bound t = some b → b.ty ≠ .ptr) :
    ∀ i ∈ is, ∀ x ∈ i.values, Supplies fn x (i.workTy fn.ret) := by
  -- conversions in front of an instruction that uses what they made
  have hbehind : ∀ {js : List Instr} {i : Instr},
      (∀ j ∈ js, ∀ x ∈ j.values, Supplies fn x (j.workTy fn.ret)) →
      (∀ x ∈ i.values, Supplies fn x (i.workTy fn.ret)) →
      ∀ j ∈ js ++ [i], ∀ x ∈ j.values, Supplies fn x (j.workTy fn.ret) := fun hjs hi =>
    forall_mem_append.2 ⟨hjs, forall_mem_singleton.2 hi⟩
  cases h with
  | mark | float | int | string | ref | array | load | index | arg | call | procedure | branch
    | jump | funcEnd => cases hts
  | same => simp
  | leave =>
    refine forall_mem_singleton.2 ?_
    rw [hret]
    rcases hret' with hret' | hret' <;> rw [hret']
    · exact forall_mem_singleton.2 (supplies_const 0)
    · exact forall_mem_singleton.2 ⟨.inr rfl, .float _ _, mem_singleton_self _⟩
  | @store dst addr val tag _ v js x _ _ hv hc =>
    cases hts
    have hty : machineTy tag = .word ∨ machineTy tag = .double := by
      rcases hstore _ _ _ _ rfl with rfl | rfl
      · exact .inl (by decide)
      · exact .inr rfl
    have hx := hc.supplies (hs _ _ hv) (hptr _ (mem_singleton_self _) _ hv) hty
      fun i hi => his i (mem_append_left _ hi)
    exact hbehind hx.2 (forall_mem_singleton.2 hx.1)
  | ret hb hc =>
    cases hts
    rw [hret] at hc
    have hx := hc.supplies (hs _ _ hb) (hptr _ (mem_singleton_self _) _ hb) hret'
      fun i hi => his i (mem_append_left _ hi)
    exact hbehind hx.2 (forall_mem_singleton.2 hx.1)
  | neg hb hc =>
    cases hts
    have hx := hc.supplies (hs _ _ hb) (hptr _ (mem_singleton_self _) _ hb) (operandsTy_cases _)
      fun i hi => his i (mem_append_left _ hi)
    exact hbehind hx.2 (forall_mem_singleton.2 hx.1)
  | not hb hc =>
    cases hts
    have hx := hc.supplies (hs _ _ hb) (hptr _ (mem_singleton_self _) _ hb) (.inl rfl)
      fun i hi => his i (mem_append_left _ hi)
    exact hbehind hx.2 (forall_mem_cons.2 ⟨hx.1, forall_mem_singleton.2 (supplies_const _)⟩)
  | @binary cls _ x y _ op _ a b js ks v w ha hb hop hc hc' =>
    cases hts
    have hwork : cls.workTy (operandsTy [a, b]) = .word ∨
        cls.workTy (operandsTy [a, b]) = .double := by
      unfold OpClass.workTy
      split
      · exact .inl rfl
      · exact operandsTy_cases _
    have hx := hc.supplies (hs _ _ ha) (hptr _ mem_cons_self _ ha) hwork
      fun i hi => his i (mem_append_left _ (mem_append_left _ hi))
    have hy := hc'.supplies (hs _ _ hb) (hptr _ (by simp) _ hb) hwork
      fun i hi => his i (mem_append_left _ (mem_append_right _ hi))
    refine hbehind (forall_mem_append.2 ⟨hx.2, hy.2⟩) ?_
    obtain ⟨hne, hne'⟩ := operation?_computes hop
    have hnone : cls.workTy (operandsTy [a, b]) ≠ .none := by
      rcases hwork with h | h <;> rw [h] <;> decide
    simp only [Instr.values, Instr.workTy, computing, hne, hne', hnone, if_false]
    exact forall_mem_cons.2 ⟨hx.1, forall_mem_singleton.2 hy.1⟩
  | @cast _ x tag b hb hne =>
    cases hts
    have hb' := (hs _ _ hb).resolve_left (hptr _ (mem_singleton_self _) _ hb)
    obtain ⟨hvalues, hwork, -⟩ := conversion_work
      ((needsConversion_iff hb'.1 (castTy_cases tag)).2 hne) fn.ret b.val (tempValue _) (castTy tag)
    refine forall_mem_singleton.2 ?_
    unfold computing
    rw [hvalues, hwork]
    exact forall_mem_singleton.2 hb'

end

/-! ## Functions -/

theorem Trail.Of.instrs_mem (h : c.Of f) (hv : v ∈ c.visits) (hi : i ∈ v.instrs) :
    i ∈ c.func.instrs := by
  obtain ⟨seg, hseg, hpos⟩ := h.placed hv
  obtain ⟨b, -, hcovers⟩ := h.covers hseg
  refine mem_flatMap.2 ⟨seg.block, ?_, ?_⟩
  · rw [h.func]
    exact mem_map_of_mem (mem_of_getElem? hseg)
  · rw [hcovers.instrs]
    exact mem_append_right _ (mem_append_left _ (mem_flatMap.2 ⟨v, mem_of_getElem? hpos, hi⟩))

theorem opening_result (hi : i ∈ opening f) :
    i.result = none ∨ ∃ d ∈ f.formals ++ f.locals, i.result = some (.temp d.name (-1)) := by
  simp only [opening, formalInstrs, mem_append, mem_flatMap, mem_map, mem_cons,
    not_mem_nil, or_false] at hi
  rcases hi with ⟨p, hp, rfl | rfl⟩ | ⟨d, hd, rfl⟩
  · exact .inr ⟨p.1, mem_append_left _ (fst_mem_of_mem_zipIdx hp), rfl⟩
  · exact .inl rfl
  · exact .inr ⟨d, mem_append_right _ hd, rfl⟩

/-- An instruction that was not made at a visit has no result, reserves the slot of a variable or
fills an empty block. -/
theorem Trail.Of.result (h : c.Of f) (hi : i ∈ c.func.instrs) : i.result = none ∨
      (∃ d ∈ f.formals ++ f.locals, i.result = some (.temp d.name (-1))) ∨
      (∃ k : Nat, i.result = some (.temp "noop" k)) ∨ ∃ v ∈ c.visits, i ∈ v.instrs := by
  obtain ⟨b, hb, hi⟩ := mem_flatMap.1 hi
  rw [h.func] at hb
  obtain ⟨seg, hseg, rfl⟩ := mem_map.1 hb
  obtain ⟨n, hn⟩ := getElem?_of_mem hseg
  obtain ⟨b, -, hcovers⟩ := h.covers hn
  rw [hcovers.instrs] at hi
  rcases mem_append.1 hi with hi | hi
  · split at hi
    · exact (opening_result hi).imp_right .inl
    · cases hi
  · rcases mem_append.1 hi with hi | hi
    · obtain ⟨v, hv, hi⟩ := mem_flatMap.1 hi
      exact .inr (.inr (.inr ⟨v, mem_flatMap.2 ⟨seg, hseg, hv⟩, hi⟩))
    · exact (hcovers.tail i hi).imp_right fun hfill => .inr (.inl hfill)

theorem Trail.Of.conversion_unique (h : c.Of f) {j : Instr} (hi : i ∈ c.func.instrs)
    (hj : j ∈ c.func.instrs) {k : Nat} (hik : i.result = some (.temp "x" k))
    (hjk : j.result = some (.temp "x" k)) : i = j := by
  have hvisited : ∀ {i : Instr}, i ∈ c.func.instrs → i.result = some (.temp "x" k) →
      i ∈ c.visits.flatMap Visit.instrs := by
    intro i hi hik
    rcases h.result hi with hnone | ⟨d, -, hd⟩ | ⟨m, hm⟩ | hvisit
    · simp [hnone] at hik
    · have hneg : (-1 : Int) = k := by simpa [hik] using hd.symm.trans hik
      omega
    · simp [hm] at hik
    · exact mem_flatMap.2 hvisit
  exact h.run.numbered.unique (hvisited hi hik) (hvisited hj hjk) hik hjk

theorem Trail.Of.exists_instr (h : c.Of f) (hname : name ≠ "arg")
    (hty : ty ∈ c.func.types (.temp name n)) :
    ∃ i ∈ c.func.instrs, i.result = some (.temp name n) ∧ i.ty = ty := by
  rcases mem_append.1 hty with hty | hty
  · obtain ⟨p, hp, -⟩ := mem_map.1 hty
    obtain ⟨hp, hval⟩ := mem_filter.1 hp
    rw [h.func] at hp
    obtain ⟨d, -, rfl⟩ := mem_map.1 hp
    exact absurd (Value.temp.inj (of_decide_eq_true hval)).1.symm hname
  · obtain ⟨i, hi, rfl⟩ := mem_map.1 hty
    obtain ⟨hi, hr⟩ := mem_filter.1 hi
    exact ⟨i, hi, of_decide_eq_true hr, rfl⟩

/-- A value has one type, unless it is a temporary that some instruction computes in another. -/
theorem Trail.Of.types_eq_iff (h : c.Of f) (hx : Supplies c.func x ty) :
    (∀ ty' ∈ c.func.types x, ty' = ty) ↔
      ∀ t, x = tempValue t → ∀ i ∈ c.func.instrs, i.result = some x → i.ty = ty := by
  constructor
  · rintro hall t rfl i hi hr
    exact hall _ (Ir.Func.mem_types hi hr)
  · intro hall ty' hty'
    obtain ⟨-, hvalue, hmem⟩ := hx
    cases hvalue with
    | const | float => exact (mem_singleton.1 hty').trans (mem_singleton.1 hmem).symm
    | conversion k =>
      obtain ⟨i, hi, hr, rfl⟩ := h.exists_instr (by decide) hmem
      obtain ⟨j, hj, hr', rfl⟩ := h.exists_instr (by decide) hty'
      rw [h.conversion_unique hi hj hr hr']
    | temp t =>
      obtain ⟨i, hi, hr, rfl⟩ := h.exists_instr (by decide) hty'
      exact hall t rfl i hi hr

/-- In front of each instruction, every temporary is bound to an address or to a value of the type
it says. -/
theorem Runs.typed {s s' : State} {vs : List Visit} (h : Runs s vs s')
    (hs : ∀ t b, s.bound t = some b → TypedIn fn b) (hsound : s.table.Sound)
    (hplain : s.table.Plain) (his : ∀ v ∈ vs, ∀ i ∈ v.instrs, i ∈ fn.instrs) :
    ∀ t b, s'.bound t = some b → TypedIn fn b := by
  induction h with
  | nil hr =>
    rw [hr.bound]
    exact hs
  | @cons s s' v vs hr hran hrest ih =>
    obtain ⟨new, ns, hmakes, hafter, hgiven, -⟩ := hran.makes
    have hcalls := (hr.unmoved.trans hafter.unmoved).calls hsound
    have hbefore := hr.unmoved.calls hsound
    have hplain' : v.before.table.Plain := fun n => (hbefore.2 n).symm ▸ hplain n
    rw [← hr.bound] at hs
    refine ih (fun t b hb => ?_) hcalls.1 (fun n => (hcalls.2 n).symm ▸ hplain n)
      fun w hw => his w (mem_cons_of_mem _ hw)
    rw [hran.bound t] at hb
    split at hb
    · next hd =>
      rw [hgiven] at hb
      obtain ⟨x, rfl, rfl⟩ := Option.map_eq_some_iff.1 hb
      exact hmakes.typed hs (his v mem_cons_self) hbefore.1 hplain'
    · exact hs t b hb

/-! ## Errors -/

theorem not_isPrefixOf_operator {a : String} {c : Char} (ha : a.toList.head? = some c)
    (hc : c ≠ 'o') (b : String) : "operator '".toList.isPrefixOf (a ++ b).toList = false := by
  obtain ⟨cs, ha⟩ := head?_eq_some_iff.1 ha
  have ho : "operator '".toList = 'o' :: "perator '".toList := by decide
  have hne : ('o' == c) = false := beq_false_of_ne (Ne.symm hc)
  rw [String.toList_append, ha, ho, cons_append, isPrefixOf, hne, Bool.false_and]

section

variable (s : State)

theorem isOperandTypes_operandTypes (op : String) (expected got : Ty) :
    (s.complaint (.operandTypes op expected got)).isOperandTypes = true := by
  have h : ∀ a b c d e : String,
      "operator '".toList.isPrefixOf ("operator '" ++ a ++ b ++ c ++ d ++ e).toList = true := by
    intro a b c d e
    simp only [String.toList_append, append_assoc]
    exact isPrefixOf_iff_prefix.2 (prefix_append _ _)
  exact h _ _ _ _ _

theorem isOperandTypes_constantRange (text : String) :
    (s.complaint (.constantRange text)).isOperandTypes = false := by
  have h : ∀ a b : String,
      "operator '".toList.isPrefixOf ("integer constant '" ++ a ++ b).toList = false := by
    intro a b
    rw [String.append_assoc]
    exact not_isPrefixOf_operator (c := 'i') rfl (by decide) _
  exact h _ _

theorem isOperandTypes_argumentCount (name : String) (given : Nat) (expected : Int) :
    (s.complaint (.argumentCount name given expected)).isOperandTypes = false := by
  have h : ∀ a b c d e f : String, "operator '".toList.isPrefixOf
      ("function '" ++ a ++ b ++ c ++ d ++ e ++ f).toList = false := by
    intro a b c d e f
    simp only [String.append_assoc]
    exact not_isPrefixOf_operator (c := 'f') rfl (by decide) _
  exact h _ _ _ _ _ _

end

/-- What is reported of the operands of an operator, in terms of what they are bound to. -/
def Visit.mismatches (v : Visit) : List Diagnostic :=
  match v.quad.checked? with
  | none => []
  | some (op, tag, ts) =>
    (mismatch op tag (operandsTy (ts.filterMap v.before.bound))).map v.before.complaint

theorem Makes.mismatches {s : State}
    (h : Makes s q is new ns) :
    (ns.map s.complaint).filter Diagnostic.isOperandTypes = match q.checked? with
      | none => []
      | some (op, tag, ts) =>
        (mismatch op tag (operandsTy (ts.filterMap s.bound))).map s.complaint := by
  have hmismatch : ∀ (op : String) (tag : Tag) (ty : Ty),
      ((mismatch op tag ty).map s.complaint).filter Diagnostic.isOperandTypes =
        (mismatch op tag ty).map s.complaint := by
    intro op tag ty
    refine filter_eq_self.2 fun d hd => ?_
    obtain ⟨n, hn, rfl⟩ := mem_map.1 hd
    unfold mismatch at hn
    split at hn
    · rw [mem_singleton.1 hn]
      exact isOperandTypes_operandTypes s _ _ _
    · cases hn
  have hcount : ∀ {callee : Temp} {args : List Temp} {ty : Ty} {bs : List Binding},
      Invokes s callee args ty bs ns →
        (ns.map s.complaint).filter Diagnostic.isOperandTypes = [] := by
    intro callee args ty bs hi
    refine filter_eq_nil_iff.2 fun d hd => ?_
    obtain ⟨n, hn, rfl⟩ := mem_map.1 hd
    obtain ⟨name, given, expected, rfl⟩ := hi.notices n hn
    simp [isOperandTypes_argumentCount]
  cases h with
  | mark | float | string | ref | array | load | store | index | same | cast | arg | branch | jump
    | ret | leave | funcEnd => rfl
  | int =>
    unfold outOfRange
    split
    · simp [isOperandTypes_constantRange, Quad.checked?]
    · rfl
  | call hi | procedure hi => exact hcount hi
  | neg hb | not hb =>
    rw [hmismatch]
    simp [Quad.checked?, hb]
  | binary ha hb =>
    rw [hmismatch]
    simp [Quad.checked?, ha, hb]

theorem Visit.Ran.mismatches (h : v.Ran) :
    v.errors.filter Diagnostic.isOperandTypes = v.mismatches := by
  obtain ⟨_, _, hmakes, -, -, herrors⟩ := h.makes
  rw [herrors, hmakes.mismatches]
  rfl

/-! ## Programs -/

theorem plain_empty : Table.Plain .empty := fun _ => mem_cons_of_mem _ mem_cons_self

theorem plain_callType {g : Flow.Graph} {T : Table} (hT : T.Plain) (n : String) :
    callType g T n ∈ [Ty.none, .word, .double, .ptr] := by
  have hmachine : ∀ t : Tag, machineTy t ∈ [Ty.none, .word, .double, .ptr] := by
    intro t
    rcases machineTy_cases t with h | h | h <;> simp [h]
  unfold callType
  cases hv : (declaredFaces g).lookup n with
  | none =>
    rw [Option.none_or, ← callTy_eq_global?]
    exact hT n
  | some v =>
    rw [Option.some_or, Option.elim_some]
    have hm := mem_of_lookup hv
    simp only [declaredFaces, builtinFaces, definedFaces, variableFaces, mem_append,
      mem_reverse, mem_map] at hm
    rcases hm with (⟨b, hb, heq⟩ | ⟨f, -, heq⟩) | ⟨d, -, heq⟩ <;> cases heq
    · have hret : ∀ b ∈ builtins, b.ret ∈ [Ty.none, .word, .double, .ptr] := by decide
      exact hret b (mem_of_mem_filter hb)
    · exact hmachine _
    · simp [Entry.callTy, Entry.face, variableEntry]

/-- The types of operands. In the code of an operator, a conversion, a store or a return without
addresses among its operands, each operand can be used in the type that its instruction works in,
and it has no other type unless it is a temporary that some instruction computes in another. The
errors about operands are those of the operators whose tag differs from the type of their operands,
each once and in order. -/
theorem operands_typed {g : Flow.Graph} {s s' : State} {p : Ir.Program} (htidy : s.table.Tidy)
    (hplain : s.table.Plain) (hfuncs : ∀ f ∈ g.funcs, f.tag = .int ∨ f.tag = .double)
    (hstores : ∀ f ∈ g.funcs, ∀ x dst addr val tag,
      f.quadAt? x = some (.store dst addr val tag) → tag = .int ∨ tag = .double)
    (h : lower g s = .ok p s') : ∃ cs : List Trail, cs.map (·.func) = p.funcs ∧
      List.Forall₂ (fun f c => c.Of f ∧ ∀ v ∈ c.visits, ∀ ts, v.quad.computed? = some ts →
        (∀ t ∈ ts, ∀ b, v.before.bound t = some b → b.ty ≠ .ptr) →
        ∀ i ∈ v.instrs, ∀ x ∈ i.values,
          Supplies c.func x (i.workTy c.func.ret) ∧
          ((∀ ty ∈ c.func.types x, ty = i.workTy c.func.ret) ↔
            ∀ t, x = tempValue t → ∀ j ∈ c.func.instrs, j.result = some x →
              j.ty = i.workTy c.func.ret)) g.funcs cs ∧
      s'.errors.filter Diagnostic.isOperandTypes = s.errors.filter Diagnostic.isOperandTypes ++
        cs.flatMap (·.visits.flatMap Visit.mismatches) := by
  obtain ⟨cs, hcs, hall, htables⟩ := trails_of_lower h
  obtain ⟨herrors, hcalls⟩ := htables htidy
  refine ⟨cs, hcs, forall₂_of_mem hall fun f hf c hc hof => ⟨hof, ?_⟩, ?_⟩
  · intro v hv ts hts hptr i hi x hx
    obtain ⟨hsound, hty⟩ := hcalls c hc
    have hplain' : c.first.table.Plain := fun n => (hty n).symm ▸ plain_callType hplain n
    obtain ⟨vs, ws, hvs, hrun⟩ := hof.run.visited hv
    have hinstrs : ∀ v ∈ c.visits, ∀ i ∈ v.instrs, i ∈ c.func.instrs := fun v hv i hi =>
      hof.instrs_mem hv hi
    have htyped : ∀ t b, v.before.bound t = some b → TypedIn c.func b :=
      hrun.typed (by simp [State.bound, hof.bindings]) hsound hplain'
        fun w hw => hinstrs w (hvs ▸ List.mem_append_left _ hw)
    have hret : c.func.ret = machineTy f.tag.base := by rw [hof.func]
    have hret' : c.func.ret = .word ∨ c.func.ret = .double := by
      rw [hret]
      rcases hfuncs f hf with h | h <;> rw [h]
      · exact .inl (by decide)
      · exact .inr (by decide)
    obtain ⟨_, _, hmakes, -⟩ := (hof.run.ran v hv).makes
    have hgives := hmakes.supplies htyped (hinstrs v hv)
      (hrun.unmoved.ret.trans (hof.ret.trans hret.symm)) hret'
      (fun dst addr val tag hq => hstores f hf v.point dst addr val tag (hq ▸ hof.quadAt? hv))
      hts hptr i hi x hx
    exact ⟨hgives, hof.types_eq_iff hgives⟩
  · have hvisits : ∀ c ∈ cs, ∀ v ∈ c.visits, v.Ran := by
      intro c hc
      obtain ⟨f, -, hf⟩ := exists_of_forall₂ hall hc
      exact hf.run.ran
    rw [herrors, List.filter_append, List.filter_flatMap]
    congr 1
    refine List.flatMap_congr fun c hc => ?_
    rw [List.filter_flatMap]
    exact List.flatMap_congr fun v hv => (hvisits c hc v hv).mismatches

def mixedFunc : Func where
  name := "main"
  tag := .int
  formals := []
  locals := []
  blocks :=
    [⟨"entry", [.const ⟨1⟩ "1" .int, .cast ⟨2⟩ ⟨1⟩ .double,
        .binary .arith ⟨3⟩ "+" ⟨1⟩ ⟨2⟩ .double, .ret (some ⟨3⟩) .int], [], some 1⟩,
      ⟨"bb1", [.funcEnd], [], none⟩]

def mixedLowered : Ir.Func where
  name := "main"
  params := []
  ret := .word
  blocks :=
    [⟨"entry",
        [{ op := .swtof, ty := .double, operandTy := .word, result := some (.temp "t" 2),
           args := [.const 1] },
          { op := .swtof, ty := .double, operandTy := .word, result := some (.temp "x" 1),
            args := [.const 1] },
          { op := .add, ty := .double, operandTy := .double, result := some (.temp "t" 3),
            args := [.temp "x" 1, .temp "t" 2] },
          { op := .ftosi, ty := .word, operandTy := .double, result := some (.temp "x" 2),
            args := [.temp "t" 3] },
          { op := .ret, args := [.temp "x" 2] }]⟩,
      ⟨"bb1", [{ op := .ret, args := [.const 0] }]⟩]

theorem mixed_typed : Table.Tidy .empty ∧ Table.Plain .empty ∧
    ∃ (p : Ir.Program) (s' : State) (c : Trail) (v : Visit),
      lower ⟨[], [mixedFunc]⟩ (.new {} .empty ⟨none, []⟩ "f") = .ok p s' ∧ p.funcs = [c.func] ∧
      c.Of mixedFunc ∧ v ∈ c.visits ∧ v.quad = .binary .arith ⟨3⟩ "+" ⟨1⟩ ⟨2⟩ .double ∧
      (∀ i ∈ v.instrs, ∀ x ∈ i.values, Supplies c.func x (i.workTy c.func.ret) ∧
        ∀ ty ∈ c.func.types x, ty = i.workTy c.func.ret) ∧
      c.visits.flatMap Visit.mismatches = [] := by
  have hok : (outcome? (lower ⟨[], [mixedFunc]⟩) (.new {} .empty ⟨none, []⟩ "f")).map
      (fun r => (r.1.funcs, r.2.report.diagnostics)) = some ([mixedLowered], []) := by cbv
  obtain ⟨p, s', hs', hr⟩ := exists_ok_of_outcome? hok
  obtain ⟨hfuncs, hreport⟩ := Prod.mk.inj hr
  have hstores : ∀ x ∈ mixedFunc.points,
      ∀ dst addr val tag, x.2 ≠ .store dst addr val tag := by
    simp [mixedFunc, Func.points]
  have hone : ∀ i ∈ mixedLowered.instrs, ∀ x ∈ i.values, ∀ j ∈ mixedLowered.instrs,
      j.result = some x → j.ty = i.workTy mixedLowered.ret := by decide +kernel
  obtain ⟨cs, hcs, hall, hfilter⟩ := operands_typed Table.tidy_empty plain_empty
    (by simp [mixedFunc]) (fun f hf x dst addr val tag hq => by
      obtain rfl := List.mem_singleton.1 hf
      exact absurd rfl (hstores _ (Func.mem_points.2 hq) dst addr val tag)) hs'
  obtain ⟨c, _, ⟨hc, htyped⟩, hnil, rfl⟩ := List.forall₂_cons_left_iff.1 hall
  obtain rfl := List.forall₂_nil_left_iff.1 hnil
  have hlowered : c.func = mixedLowered := List.singleton_inj.1 (hcs.trans hfuncs)
  obtain ⟨v, hv, hpoint, hquad⟩ := hc.exists_visit (p := ⟨0, 2⟩) rfl
  have hnumbers : ∀ t ∈ [(⟨1⟩ : Temp), ⟨2⟩], ∀ b, v.before.bound t = some b → b.ty ≠ .ptr := by
    intro t ht b hb
    obtain ⟨e, he, b', hlatest, hgiven, hb'⟩ := hc.bound_use hv (by rwa [hquad])
    obtain rfl := Option.some.inj (hb.symm.trans hb')
    obtain ⟨new, ns, hmakes, -, hnew, -⟩ := (hc.run.ran e he).makes
    rw [hgiven] at hnew
    have hdouble : castTy .double ≠ .ptr := by decide
    have hdefined : ∀ t ∈ [(⟨1⟩ : Temp), ⟨2⟩],
        mixedFunc.latest? ⟨0, 2⟩ t = some (⟨0, 0⟩, .const t "1" .int) ∨
        mixedFunc.latest? ⟨0, 2⟩ t = some (⟨0, 1⟩, .cast t ⟨1⟩ .double) := by decide
    rw [hpoint] at hlatest
    generalize e.instrs = is, e.quad = q, e.point = p₀ at hmakes hlatest
    rcases hdefined t ht with hq | hq <;> cases hlatest.symm.trans hq <;> cases hmakes <;>
      cases hnew
    · simp
    · simp
    · next hty => exact hty ▸ hdouble
    · exact hdouble
  have hinstrs := fun i hi => hlowered ▸ hc.instrs_mem hv (i := i) hi
  rw [List.flatMap_singleton, State.errors, hreport] at hfilter
  refine ⟨Table.tidy_empty, plain_empty, p, s', c, v, hs', hcs.symm, hc, hv, hquad,
    fun i hi x hx => ?_, hfilter.symm⟩
  obtain ⟨hgives, hiff⟩ := htyped v hv _ (hquad ▸ rfl) hnumbers i hi x hx
  refine ⟨hgives, hiff.2 fun t _ => ?_⟩
  rw [hlowered]
  exact hone i (hinstrs i hi) x hx

/-- A temporary is stored and then defined again, with another type. -/
def recast : List Quad :=
  [.funcBegin "main" .int, .localDecl ⟨"x", .int, 4⟩, .ref ⟨1⟩ .stack "x" 0, .load ⟨2⟩ ⟨1⟩ .int,
    .store ⟨3⟩ ⟨1⟩ ⟨2⟩ .int, .load ⟨2⟩ ⟨1⟩ .double, .binary .arith ⟨4⟩ "+" ⟨3⟩ ⟨3⟩ .int,
    .ret (some ⟨4⟩) .int, .funcEnd]

def recastFunc : Func where
  name := "main"
  tag := .int
  formals := []
  locals := [⟨"x", .int, 4⟩]
  blocks :=
    [⟨"entry", [.ref ⟨1⟩ .stack "x" 0, .load ⟨2⟩ ⟨1⟩ .int, .store ⟨3⟩ ⟨1⟩ ⟨2⟩ .int,
        .load ⟨2⟩ ⟨1⟩ .double, .binary .arith ⟨4⟩ "+" ⟨3⟩ ⟨3⟩ .int, .ret (some ⟨4⟩) .int], [],
        some 1⟩,
      ⟨"bb1", [.funcEnd], [], none⟩]

def recastLowered : Ir.Func where
  name := "main"
  params := []
  ret := .word
  blocks :=
    [⟨"entry",
        [{ op := .alloc, ty := .ptr, result := some (.temp "x" (-1)), args := [.const 4],
           align := 4 },
          { op := .load, ty := .word, result := some (.temp "t" 2), args := [.temp "x" (-1)] },
          { op := .store, ty := .word, args := [.temp "t" 2, .temp "x" (-1)] },
          { op := .load, ty := .double, result := some (.temp "t" 2), args := [.temp "x" (-1)] },
          { op := .add, ty := .word, operandTy := .word, result := some (.temp "t" 4),
            args := [.temp "t" 2, .temp "t" 2] },
          { op := .ret, args := [.temp "t" 4] }]⟩,
      ⟨"bb1", [{ op := .ret, args := [.const 0] }]⟩]

/-- The sum of what was stored works in words, and its operand is a word and a double. -/
theorem recast_mistyped : Flow.build recast = .ok ⟨[], [recastFunc]⟩ ∧
    ∃ p s', lower ⟨[], [recastFunc]⟩ (.new {} .empty ⟨none, []⟩ "f") = .ok p s' ∧
      s'.report.diagnostics = [] ∧ p.funcs = [recastLowered] ∧
      ∃ i ∈ recastLowered.instrs, i.result = some (tempValue ⟨4⟩) ∧
        i.workTy recastLowered.ret = .word ∧ i.values = [tempValue ⟨2⟩, tempValue ⟨2⟩] ∧
        recastLowered.types (tempValue ⟨2⟩) = [.word, .double] := by
  have hok : (outcome? (lower ⟨[], [recastFunc]⟩) (.new {} .empty ⟨none, []⟩ "f")).map
      (fun r => (r.1.funcs, r.2.report.diagnostics)) = some ([recastLowered], []) := by cbv
  obtain ⟨p, s', hs', hr⟩ := exists_ok_of_outcome? hok
  obtain ⟨hfuncs, hreport⟩ := Prod.mk.inj hr
  exact ⟨by decide +kernel, p, s', hs', hreport, hfuncs, by decide⟩

end Lowering

end Quadruple
