import Quadruple.Proofs.Ir.Machine
import Quadruple.Proofs.Lowering.Image

/-!
# Lowering keeps the meaning of integer code

The machine for flow graphs and the machine for the intermediate form run side by side, one block
at a time. `Rel` says how their states agree at a point: every variable holds the same words, and
every temporary whose definition dominates the point has the value that its binding computes.
-/

namespace Quadruple.Lowering

open List
open Quadruple.Flow (Var Func Block Point)
open Ir.Machine (Datum Memory wordOp? compute execAll)

/-! ## Agreement of states -/

variable {x : Var}

theorem place_injective {y : Var} (h : place x = place y) : x = y := by
  cases x <;> cases y <;> simp_all [place]

def Agree (cells : Flow.Machine.Cells) (m : Ir.Machine.Memory) : Prop :=
  ∀ x i, cells x i = m.word (place x) (4 * i)

theorem Agree.set {cells : Flow.Machine.Cells} {m : Memory} (h : Agree cells m)
    (x : Var) (i : Int) (w : Word) :
    Agree (cells.set x i w) (m.setWord (place x) (4 * i) w) := by
  intro y j
  by_cases hy : y = x ∧ j = i
  · obtain ⟨rfl, rfl⟩ := hy
    rw [Flow.Machine.Cells.set, if_pos ⟨rfl, rfl⟩, Memory.word_setWord]
  · rw [Flow.Machine.Cells.set, if_neg hy, h y j, Memory.word_setWord_of_disjoint]
    intro hp
    have hj : j ≠ i := fun hj => hy ⟨place_injective hp, hj⟩
    omega

def InScope (f : Func) (p : Point) (t : Temp) : Prop := ∃ d, f.Defines d t ∧ f.Dominates d p ∧ d ≠ p

/-- The binding of a temporary computes its value. An address that is not that of a whole array is
one of a word inside its variable. -/
def Computes (globals : List Decl) (f : Func) (st : Ir.Machine.State) (t : Temp) (b : Binding) :
    Flow.Machine.Value → Prop
  | .word w => b.ty = .word ∧ st.word? b.val = some w ∧ st.number? b.val = some w.toInt
  | .cell x i => b.ty = .ptr ∧ st.addr? b.val = some (place x, 4 * i) ∧
      (f.NamesArray globals t ∨ (0 ≤ i ∧ i < f.wordCount globals x))

structure Rel (globals : List Decl) (f : Func) (B : Temp → Option Binding) (p : Point)
    (s : Flow.Machine.State) (st : Ir.Machine.State) : Prop where
  reached : f.Reached p
  cells : Agree s.cells st.mem
  slots : ∀ name d, f.decl? globals (.slot name) = some d →
    st.regs (.temp name (-1)) = some (.addr (.temp name (-1)) 0)
  sizes : ∀ x d, f.decl? globals x = some d → 4 * f.wordCount globals x ≤ st.size (place x)
  temps : ∀ t b, B t = some b → InScope f p t →
    ∃ v, s.temps t = some v ∧ Computes globals f st t b v

variable {globals : List Decl} {f : Func} {B : Temp → Option Binding} {p p' : Point}
  {s : Flow.Machine.State} {st : Ir.Machine.State} {q : Quad} {b : Binding} {t : Temp} {i : Int}
  {v : Ir.Value} {name : String}

def Kept (globals : List Decl) (f : Func) (q : Quad) (v : Ir.Value) : Prop :=
  (∃ n, v = .const n) ∨ (∃ x d, f.decl? globals x = some d ∧ v = place x) ∨
    ∃ d, v = tempValue d ∧ q.dst? ≠ some d

variable {st' : Ir.Machine.State} {d : Datum} {op : Ir.Op} {dst : Temp}

section

variable (hf : f.IntegerCode globals) (h : Rel globals f B p s st) (hq : f.quadAt? p = some q)
include hf h hq

theorem Rel.advance (hB : ∀ t b, B t = some b → Fits globals f t b) (he : f.Edge p p')
    {s' : Flow.Machine.State} (hcells : Agree s'.cells st'.mem) (hsize : st'.size = st.size)
    (htemps : ∀ u, q.dst? ≠ some u → s'.temps u = s.temps u)
    (hregs : ∀ v, Kept globals f q v → st'.operand v = st.operand v)
    (hnew : ∀ t b, q.dst? = some t → B t = some b →
      ∃ v, s'.temps t = some v ∧ Computes globals f st' t b v) :
    Rel globals f B p' s' st' := by
  refine ⟨h.reached.edge he, hcells, fun name d hd => ?_, ?_, fun t b hb hscope => ?_⟩
  · have hkept := hregs (.temp name (-1)) (.inr (.inl ⟨.slot name, d, hd, rfl⟩))
    exact hkept.trans (h.slots name d hd)
  · rw [hsize]
    exact h.sizes
  · obtain ⟨d, hd, hdom, hne⟩ := hscope
    by_cases hdp : d = p
    · subst hdp
      obtain ⟨q', hq', hdst⟩ := hd
      cases hq.symm.trans hq'
      exact hnew t b hdst hb
    · -- the definition lies further back, so the value is still there
      have hdom' : f.Dominates d p := hdom.of_edge he (Ne.symm hne)
      obtain ⟨v, hv, hcomp⟩ := h.temps t b hb ⟨d, hd, hdom', hdp⟩
      have hdst : q.dst? ≠ some t := fun hdst => hdp (hf.once d p t hd ⟨q, hq, hdst⟩)
      have hkept : Kept globals f q b.val := by
        rcases (hB t b hb).val with hn | hx | ⟨u, hu, hfeeds⟩
        · exact .inl hn
        · exact .inr (.inl hx)
        · refine .inr (.inr ⟨u, hu, fun hdu => ?_⟩)
          obtain ⟨pu, hpu, hdomu⟩ := hfeeds d hd
          obtain rfl : pu = p := hf.once pu p u hpu ⟨q, hq, hdu⟩
          exact hdp (hdom'.antisymm hdomu h.reached)
      refine ⟨v, (htemps t hdst).trans hv, ?_⟩
      cases v with
      | word w =>
        rw [Computes, Ir.Machine.State.word?, Ir.Machine.State.number?, hregs _ hkept]
        exact hcomp
      | cell x i =>
        rw [Computes, Ir.Machine.State.addr?, hregs _ hkept]
        exact hcomp

/-! ## Operands -/

theorem Rel.use (hown : ∀ t ∈ q.uses, q.dst? ≠ some t) (ht : t ∈ q.uses) (hb : B t = some b) :
    ∃ v, s.temps t = some v ∧ Computes globals f st t b v := by
  obtain ⟨d, hd, hdom⟩ := hf.dominated p q hq t ht
  refine h.temps t b hb ⟨d, hd, hdom, ?_⟩
  rintro rfl
  obtain ⟨q', hq', hdst⟩ := hd
  cases hq.symm.trans hq'
  exact hown t ht hdst

theorem Rel.word (hB : ∀ t b, B t = some b → Fits globals f t b)
    (hown : ∀ t ∈ q.uses, q.dst? ≠ some t) (ht : t ∈ q.words) (hb : B t = some b) :
    ∃ w, s.word t = .ok w ∧ Computes globals f st t b (.word w) := by
  have huse : t ∈ q.uses := by simp [Quad.uses, ht]
  obtain ⟨v, hv, hc⟩ := h.use hf hq hown huse hb
  cases v with
  | word w => exact ⟨w, by rw [Flow.Machine.State.word, hv], hc⟩
  | cell x i =>
    -- an address is not used as a word
    rcases (hB t b hb).ty with ⟨-, p', q', hq', hdst, haddr⟩ | ⟨hty, -⟩
    · rw [hf.words p q hq t ht p' q' hq' hdst] at haddr
      cases haddr
    · exact absurd (hc.1.symm.trans hty) (by decide)

theorem Rel.cell (hown : ∀ t ∈ q.uses, q.dst? ≠ some t) (ht : t ∈ q.uses) (hb : B t = some b)
    (hty : b.ty = .ptr) : ∃ x i, s.cell t = .ok (x, i) ∧ Computes globals f st t b (.cell x i) := by
  obtain ⟨v, hv, hc⟩ := h.use hf hq hown ht hb
  cases v with
  | word w => exact absurd (hty.symm.trans hc.1) (by decide)
  | cell x i => exact ⟨x, i, by rw [Flow.Machine.State.cell, hv], hc⟩

theorem Rel.wordAddr (ht : t ∈ q.accesses) (hc : Computes globals f st t b (.cell x i)) :
    st.wordAddr? b.val = some (place x, 4 * i) := by
  obtain ⟨-, haddr, harr | ⟨hlo, hhi⟩⟩ := hc
  · exact absurd harr (hf.accesses p q hq t ht)
  · cases hd : f.decl? globals x with
    | none =>
      simp only [Func.wordCount, hd] at hhi
      omega
    | some d =>
      have hsize := h.sizes x d hd
      rw [Ir.Machine.State.wordAddr?, haddr, Option.filter_some, if_pos]
      exact decide_eq_true (show 0 ≤ 4 * i ∧ 4 * i + 4 ≤ st.size (place x) by omega)

end

/-! ## Registers -/

theorem operand_setReg_of_ne {r : Ir.Value} (h : v ≠ r) :
    (st.setReg r d).operand v = st.operand v := by
  cases v with
  | temp name id => exact if_neg h
  | _ => rfl

theorem operand_setReg_self {id : Int} :
    (st.setReg (.temp name id) d).operand (.temp name id) = some d := if_pos rfl

theorem Kept.ne_result (hf : f.IntegerCode globals) (hq : f.quadAt? p = some q)
    (h : Kept globals f q v) (hdst : q.dst? = some t) : v ≠ tempValue t := by
  rintro rfl
  rcases h with ⟨n, hn⟩ | ⟨x, d, hd, hx⟩ | ⟨d, hd, hne⟩
  · cases hn
  · cases x with
    | global name => cases hx
    | slot name =>
      obtain ⟨rfl, hid⟩ := Ir.Value.temp.inj hx
      have hname : d.name = "t" := by simpa using find?_some hd
      exact hf.slots p t ⟨q, hq, hdst⟩ hid d (mem_of_find?_eq_some hd) hname
  · obtain rfl : t = d := congrArg Temp.mk (Ir.Value.temp.inj hd).2
    exact hne hdst

theorem ne_auxiliary (h : (∃ n, v = .const n) ∨ (∃ x, v = place x) ∨ ∃ d, v = tempValue d)
    (hname : name ≠ "t") (k : Nat) : v ≠ .temp name k := by
  rintro rfl
  rcases h with ⟨n, hn⟩ | ⟨x, hx⟩ | ⟨d, hd⟩
  · cases hn
  · cases x with
    | global name => cases hx
    | slot name =>
      obtain ⟨-, hid⟩ := Ir.Value.temp.inj hx
      omega
  · exact hname (Ir.Value.temp.inj hd).1

theorem Kept.ne_conversion (h : Kept globals f q v) (k : Nat) : v ≠ .temp "x" k :=
  ne_auxiliary (h.imp_right (Or.imp (fun ⟨x, _, _, hx⟩ => ⟨x, hx⟩)
    fun ⟨d, hd, _⟩ => ⟨d, hd⟩)) (by decide) k

theorem Fits.ne_auxiliary (h : Fits globals f t b) (hname : name ≠ "t") (k : Nat) :
    b.val ≠ .temp name k :=
  Lowering.ne_auxiliary (h.val.imp_right (Or.imp (fun ⟨x, _, _, hx⟩ => ⟨x, hx⟩)
    fun ⟨d, hd, _⟩ => ⟨d, hd⟩)) hname k

theorem operand_setWord {base : Ir.Value} {k : Int} {w : Word} :
    (st.setWord base k w).operand v = st.operand v := by
  cases v <;> rfl

/-! ## One instruction -/

theorem wordOp?_of_operation? {cls : OpClass} {lexeme : String}
    (h : operation? cls lexeme = some op) (hl : lexeme ∈ Quad.isInteger.operators cls) :
    ∃ F, wordOp? op = some F ∧ ∀ x y, cls.value? lexeme x y = some (F x y) := by
  cases cls <;> simp only [Quad.isInteger.operators, OpClass.lexemes, mem_cons,
    not_mem_nil, or_false] at hl <;>
  rcases hl with rfl | rfl | rfl | rfl | rfl | rfl <;> cases h <;>
  exact ⟨_, rfl, fun _ _ => rfl⟩

theorem exec_wordInstr {w : Ir.Value} {x y : Word} {F : Word → Word → Word}
    (hF : wordOp? op = some F) (hx : st.word? v = some x) (hy : st.word? w = some y)
    (ty : Ir.Ty) : Ir.Machine.exec st (wordInstr dst op ty [v, w]) =
      some (st.setReg (tempValue dst) (.word (F x y))) := by
  cases op <;> simp only [wordOp?, reduceCtorEq, Option.some.injEq] at hF <;>
  · subst hF
    simp [Ir.Machine.exec, compute, wordInstr, wordOp?, hx, hy]

section

variable (hf : f.IntegerCode globals) (hB : ∀ t b, B t = some b → Fits globals f t b)
  (h : Rel globals f B p s st) (hq : f.quadAt? p = some q) (he : f.Edge p p')
  (hdst : q.dst? = some t)
include hf hB h hq he hdst

/-- An instruction with the result `y`. -/
theorem Rel.define {s' : Flow.Machine.State} {y : Flow.Machine.Value} (ht : B t = some b)
    (htemps : s'.temps = s.temps) (hcells : Agree s'.cells st'.mem) (hsize : st'.size = st.size)
    (hregs : ∀ v, Kept globals f q v → st'.operand v = st.operand v)
    (hy : Computes globals f st' t b y) : Rel globals f B p' (s'.setTemp t y) st' := by
  refine h.advance hf hq hB he hcells hsize (fun u hu => ?_) hregs fun u b hu hb => ?_
  · rw [← htemps]
    exact if_neg fun hut : u = t => hu (hut ▸ hdst)
  · cases hdst.symm.trans hu
    cases ht.symm.trans hb
    exact ⟨y, if_pos rfl, hy⟩

theorem Rel.defineWord (ht : B t = some (wordBinding t)) (w : Word) :
    Rel globals f B p' (s.setTemp t (.word w)) (st.setReg (tempValue t) (.word w)) := by
  have hop : (st.setReg (tempValue t) (.word w)).operand (tempValue t) = some (.word w) :=
    operand_setReg_self
  refine h.define hf hB hq he hdst ht rfl h.cells rfl (fun v hv => ?_) ⟨rfl, ?_, ?_⟩
  · exact operand_setReg_of_ne (hv.ne_result hf hq hdst)
  · simp [Ir.Machine.State.word?, wordBinding, hop, Datum.word?]
  · simp [Ir.Machine.State.number?, wordBinding, hop, Datum.number?]

theorem Rel.defineCell (ht : B t = some { val := tempValue t, ty := .ptr, elem := .word })
    (hlo : 0 ≤ i) (hhi : i < f.wordCount globals x) (hmem : st'.mem = st.mem)
    (hsize : st'.size = st.size) (hregs : ∀ v, Kept globals f q v → st'.operand v = st.operand v) :
    Rel globals f B p' (s.setTemp t (.cell x i))
      (st'.setReg (tempValue t) (.addr (place x) (4 * i))) := by
  have hop : (st'.setReg (tempValue t) (.addr (place x) (4 * i))).operand (tempValue t) =
      some (.addr (place x) (4 * i)) := operand_setReg_self
  refine h.define hf hB hq he hdst ht rfl (hmem ▸ h.cells) hsize (fun v hv => ?_)
    ⟨rfl, ?_, .inr ⟨hlo, hhi⟩⟩
  · rw [operand_setReg_of_ne (hv.ne_result hf hq hdst), hregs v hv]
  · simp [Ir.Machine.State.addr?, hop, Datum.addr?]

end

theorem ofInt_wrap32 (n : Int) : BitVec.ofInt 32 (Numeral.wrap32 n) = BitVec.ofInt 32 n := by
  refine BitVec.eq_of_toInt_eq ?_
  simp [Numeral.wrap32, BitVec.toInt_ofInt]

theorem toInt_ofInt_wrap32 (n : Int) :
    (BitVec.ofInt 32 n).toInt = Numeral.wrap32 n := by
  simp [Numeral.wrap32, BitVec.toInt_ofInt]

def elementInstrs (dst : Temp) (base v : Ir.Value) (k : Nat) : List Ir.Instr :=
  [{ op := .mul, ty := .ptr, result := some (.temp "x" k), args := [v, .const 4] },
    { op := .add, ty := .ptr, result := some (tempValue dst), args := [base, .temp "x" k] }]

theorem exec_element {a : Binding} (hfits : Fits globals f t a) {n : Int}
    (ha : st.addr? a.val = some (place x, 4 * i)) (hv : st.number? v = some n) (k : Nat) :
    execAll st (elementInstrs dst a.val v k) =
      some ((st.setReg (.temp "x" k) (.number (n * 4))).setReg (tempValue dst)
        (.addr (place x) (4 * (i + n)))) := by
  have hfour : st.number? (.const 4) = some 4 := rfl
  have haddr : (st.setReg (.temp "x" k) (.number (n * 4))).addr? a.val = some (place x, 4 * i) := by
    rw [Ir.Machine.State.addr?, operand_setReg_of_ne (hfits.ne_auxiliary (by decide) k)]
    exact ha
  have hnum : (st.setReg (.temp "x" k) (.number (n * 4))).number? (.temp "x" k) = some (n * 4) := by
    rw [Ir.Machine.State.number?, operand_setReg_self]
    rfl
  have hsum : 4 * i + n * 4 = 4 * (i + n) := by omega
  simp [elementInstrs, Ir.Machine.exec, compute, hv, hfour, haddr, hnum, hsum]

/-- The same with an index that is made as wide as an address first. -/
theorem exec_wideElement {a : Binding} (hfits : Fits globals f t a) {w : Word}
    (ha : st.addr? a.val = some (place x, 4 * i)) (hv : st.word? v = some w) (k l : Nat) :
    execAll st
      ({ op := .extsw, ty := .ptr, operandTy := .word, result := some (.temp "x" l), args := [v] }
        :: elementInstrs dst a.val (.temp "x" l) k) =
      some (((st.setReg (.temp "x" l) (.number w.toInt)).setReg (.temp "x" k)
        (.number (w.toInt * 4))).setReg (tempValue dst) (.addr (place x) (4 * (i + w.toInt)))) := by
  have hwide : (st.setReg (.temp "x" l) (.number w.toInt)).number? (.temp "x" l) =
      some w.toInt := by
    rw [Ir.Machine.State.number?, operand_setReg_self]
    rfl
  have haddr : (st.setReg (.temp "x" l) (.number w.toInt)).addr? a.val = some (place x, 4 * i) := by
    rw [Ir.Machine.State.addr?, operand_setReg_of_ne (hfits.ne_auxiliary (by decide) l)]
    exact ha
  rw [Ir.Machine.execAll_cons]
  simp only [Ir.Machine.exec, compute, hv, Option.map_some]
  exact exec_element hfits haddr hwide k

/-- An instruction goes well on both machines, or it is an index that leaves its variable, which
stops the first. -/
def Steps (globals : List Decl) (f : Func) (B : Temp → Option Binding) (p' : Point)
    (s : Flow.Machine.State) (st : Ir.Machine.State) (q : Quad) (is : List Ir.Instr) : Prop :=
  Flow.Machine.exec (f.wordCount globals) s q = .error .outside ∨
    ∃ s' st', Flow.Machine.exec (f.wordCount globals) s q = .ok s' ∧
      execAll st is = some st' ∧ Rel globals f B p' s' st'

section

variable (hf : f.IntegerCode globals) (hB : ∀ t b, B t = some b → Fits globals f t b)
  (h : Rel globals f B p s st)
include hf h

theorem Rel.computes_ref {storage : Storage} {offset : Int}
    (hq : f.quadAt? p = some (.ref dst storage name offset))
    (hr : RefersTo (f.decl? globals) (.ofRef storage name) b) :
    Computes globals f st dst b (.cell (.ofRef storage name) 0) := by
  obtain ⟨d, hdecl, hint, -⟩ := hf.refs p dst storage name offset hq
  refine ⟨hr.ty, ?_, ?_⟩
  · rw [Ir.Machine.State.addr?, hr.val]
    cases hx : Var.ofRef storage name with
    | global x => rfl
    | slot x =>
      rw [hx] at hdecl
      simp [place, Ir.Machine.State.operand, h.slots x d hdecl, Datum.addr?]
  · rcases hint with ⟨-, hwidth⟩ | ⟨htag, -⟩
    · refine .inr ⟨Int.le_refl 0, ?_⟩
      simp [Func.wordCount, hdecl, hwidth]
    · exact .inl ⟨p, storage, name, offset, d, hq, hdecl, by rw [htag]; decide⟩

include hB

/-- An index, given the instructions that turn it into an address. -/
theorem Rel.step_index {base idx : Temp} {tag : Tag} {a b : Binding} {is : List Ir.Instr}
    (hq : f.quadAt? p = some (.index dst base idx tag)) (he : f.Edge p p')
    (hown : ∀ t ∈ Quad.uses (.index dst base idx tag), some dst ≠ some t)
    (hnew : B dst = some { val := tempValue dst, ty := .ptr, elem := .word })
    (ha : B base = some a) (hty : a.ty = .ptr) (hi : B idx = some b)
    (his : ∀ x i w, st.addr? a.val = some (place x, 4 * i) →
      Computes globals f st idx b (.word w) → ∃ st1 : Ir.Machine.State,
        execAll st is = some (st1.setReg (tempValue dst) (.addr (place x) (4 * (i + w.toInt)))) ∧
        st1.mem = st.mem ∧ st1.size = st.size ∧
        ∀ v, Kept globals f (.index dst base idx tag) v → st1.operand v = st.operand v) :
    Steps globals f B p' s st (.index dst base idx tag) is := by
  obtain ⟨x, i, hcell, hc⟩ := h.cell hf hq hown (by simp [Quad.uses]) ha hty
  obtain ⟨w, hw, hcw⟩ := h.word hf hq hB hown (by simp [Quad.words]) hi
  obtain ⟨st1, hexec, hmem, hsize, hregs⟩ := his x i w hc.2.1 hcw
  rw [Steps, Flow.Machine.exec_index hcell hw]
  by_cases hin : 0 ≤ i + w.toInt ∧ i + w.toInt < f.wordCount globals x
  · exact .inr ⟨_, _, if_pos hin, hexec,
      h.defineCell hf hB hq he rfl hnew hin.1 hin.2 hmem hsize hregs⟩
  · exact .inl (if_neg hin)

end

/-- One instruction on both machines. -/
theorem Rel.step (hf : f.IntegerCode globals) (hB : ∀ t b, B t = some b → Fits globals f t b)
    (h : Rel globals f B p s st) (hq : f.quadAt? p = some q) (hends : q.endsBlock = false)
    (he : f.Edge p p') {is : List Ir.Instr} (his : Became (f.decl? globals) B q is) :
    Steps globals f B p' s st q is := by
  obtain ⟨new, ht, hnew, hown⟩ := his
  cases ht with
  | mark =>
    refine .inr ⟨s, st, rfl, rfl, ?_⟩
    exact h.advance hf hq hB he h.cells rfl (fun _ _ => rfl) (fun _ _ => rfl)
      fun _ _ hd => by cases hd
  | @const dst text tag =>
    refine .inr ⟨_, st, rfl, rfl, h.define hf hB hq he rfl (hnew _ rfl) rfl h.cells rfl
      (fun _ _ => rfl) ⟨rfl, ?_, ?_⟩⟩
    · exact congrArg some (ofInt_wrap32 _)
    · exact congrArg some (toInt_ofInt_wrap32 _).symm
  | @ref dst storage name offset b hr =>
    exact .inr ⟨_, st, rfl, rfl, h.define hf hB hq he rfl (hnew _ rfl) rfl h.cells rfl
      (fun _ _ => rfl) (h.computes_ref hf hq hr)⟩
  | @array dst addr tag a ha harr =>
    exact absurd ((hB _ _ ha).array harr) (hf.accesses p _ hq addr (by simp [Quad.accesses]))
  | @load dst addr tag a ha hty =>
    obtain ⟨x, i, hcell, hc⟩ := h.cell hf hq hown (by simp [Quad.uses, Quad.accesses]) ha hty
    have haddr := h.wordAddr hf hq (by simp [Quad.accesses]) hc
    refine .inr ⟨_, _, Flow.Machine.exec_load hcell, ?_,
      h.defineWord hf hB hq he rfl (hnew _ rfl) (s.cells x i)⟩
    simp [Ir.Machine.exec, compute, wordInstr, haddr, h.cells x i]
  | @store dst addr val tag a v ha hty hv =>
    obtain ⟨x, i, hcell, hc⟩ := h.cell hf hq hown (by simp [Quad.uses, Quad.accesses]) ha hty
    obtain ⟨w, hw, hcw⟩ := h.word hf hq hB hown (by simp [Quad.words]) hv
    have haddr := h.wordAddr hf hq (by simp [Quad.accesses]) hc
    refine .inr ⟨_, st.setWord (place x) (4 * i) w, Flow.Machine.exec_store hcell hw, ?_,
      h.define hf hB hq he rfl (hnew _ rfl) rfl (h.cells.set x i w) rfl
        (fun _ _ => operand_setWord) ?_⟩
    · simp [Ir.Machine.exec, haddr, hcw.2.1]
    · rw [Computes, Ir.Machine.State.word?, Ir.Machine.State.number?, operand_setWord]
      exact hcw
  | @index dst base idx tag a b k ha hty hi =>
    refine h.step_index hf hB hq he hown (hnew _ rfl) ha hty hi fun x i w haddr hw =>
      ⟨_, exec_element (hB _ _ ha) haddr hw.2.2 k, rfl, rfl, fun v hv => ?_⟩
    exact operand_setReg_of_ne (hv.ne_conversion k)
  | @wideIndex dst base idx tag a b k l ha hty hi =>
    refine h.step_index hf hB hq he hown (hnew _ rfl) ha hty hi fun x i w haddr hw =>
      ⟨_, exec_wideElement (hB _ _ ha) haddr hw.2.1 k l, rfl, rfl, fun v hv => ?_⟩
    rw [operand_setReg_of_ne (hv.ne_conversion k), operand_setReg_of_ne (hv.ne_conversion l)]
  | @neg dst x tag v hv =>
    obtain ⟨w, hw, hc⟩ := h.word hf hq hB hown (by simp [Quad.words]) hv
    refine .inr ⟨_, _, Flow.Machine.exec_unary hw rfl, ?_,
      h.defineWord hf hB hq he rfl (hnew _ rfl) (-w)⟩
    simp [Ir.Machine.exec, compute, wordInstr, hc.2.1]
  | @not dst x tag v hv =>
    obtain ⟨w, hw, hc⟩ := h.word hf hq hB hown (by simp [Quad.words]) hv
    refine .inr ⟨_, _, Flow.Machine.exec_unary hw rfl, ?_,
      h.defineWord hf hB hq he rfl (hnew _ rfl) (~~~w)⟩
    have hones : st.word? (.const (-1)) = some (BitVec.allOnes 32) := rfl
    have hxor : Ir.Machine.exec st (wordInstr dst .xor .none [v.val, .const (-1)]) =
        some (st.setReg (tempValue dst) (.word (w ^^^ BitVec.allOnes 32))) :=
      exec_wordInstr rfl hc.2.1 hones .none
    rw [BitVec.xor_allOnes] at hxor
    simp [hxor]
  | @binary cls dst x y lexeme tag op v w ho hv hw =>
    obtain ⟨a, ha, hca⟩ := h.word hf hq hB hown (by simp [Quad.words]) hv
    obtain ⟨b, hb, hcb⟩ := h.word hf hq hB hown (by simp [Quad.words]) hw
    have hmem : lexeme ∈ Quad.isInteger.operators cls := by
      have := hf.quads p _ hq
      simp only [Quad.isInteger, Bool.and_eq_true, contains_iff_mem] at this
      exact this.2
    obtain ⟨F, hF, hval⟩ := wordOp?_of_operation? ho hmem
    refine .inr ⟨_, _, Flow.Machine.exec_binary ha hb (hval a b), ?_,
      h.defineWord hf hB hq he rfl (hnew _ rfl) (F a b)⟩
    simp [exec_wordInstr hF hca.2.1 hcb.2.1]
  | branch | jump | ret | retNone | funcEnd => cases hends

end Quadruple.Lowering
