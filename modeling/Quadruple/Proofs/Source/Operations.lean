import Quadruple.Proofs.Ensures
import Quadruple.Proofs.Source.Checked

/-!
# Operations on typed operands

The emitter's operations, given operands of the right kinds, emit checked code and report nothing.
`Inv` is what holds of the emitter inside a function: the code of the function so far is checked,
no error was added, and the table still has the variables and functions that it had at the head of
the function. `Gets` says of an operation that it keeps this, and of what kind its result is.
-/

namespace Quadruple.Source

open List
open Emit
open Symbols (Entry EntryId Table)

/-! ## Tags -/

section Tags

variable (ty : Ty)

@[simp] theorem isDouble_tag : ty.tag.isDouble = decide (ty = .double) := by cases ty <;> rfl

@[simp] theorem base_tag : ty.tag.base = ty.tag := by cases ty <;> rfl

@[simp] theorem without_address_tag : ty.tag.without .address = ty.tag := by cases ty <;> rfl

@[simp] theorem base_place : (ty.tag.union .address).base = ty.tag := by cases ty <;> rfl

@[simp] theorem without_address_place : (ty.tag.union .address).without .address = ty.tag := by
  cases ty <;> rfl

@[simp] theorem without_array_place :
    (ty.tag.union .address).without .array = ty.tag.union .address := by cases ty <;> rfl

@[simp] theorem isArray_place : (ty.tag.union .address).isArray = false := by cases ty <;> rfl

@[simp] theorem base_array : ((ty.tag.union .array).union .address).base = ty.tag := by
  cases ty <;> rfl

@[simp] theorem isArray_array : ((ty.tag.union .array).union .address).isArray = true := by
  cases ty <;> rfl

end Tags

theorem isFloatNumeral_decimalText (n : Nat) :
    isFloatNumeral (Numeral.decimalText n) = false := by
  have hany : ((Numeral.decimalText n).toList.any fun c => c == '.' || c == 'e' || c == 'E') =
      false := by
    refine any_eq_false.2 fun c hc => ?_
    have hmem : c ∈ Nat.toDigits 10 n := by simpa [Numeral.decimalText] using hc
    have hdigit := Nat.isDigit_of_mem_toDigits (by decide) (by decide) hmem
    simp only [Bool.or_eq_true, beq_iff_eq]
    rintro ((rfl | rfl) | rfl) <;> cases hdigit
  simp only [isFloatNumeral, hany, Bool.and_false]

theorem errorCount_warn (r : Report) (kind : Warning) (pos : Pos) (message : String) :
    (r.warn kind pos message).errorCount = r.errorCount := by
  unfold Report.warn
  split
  · simp [Report.errorCount, Diagnostic.isError]
  · rfl

/-! ## The table -/

def implicitEntry (name : String) : Entry :=
  { name, level := 0, kind := .func, storage := .global, tag := .int, implicit := true }

/-- Inside `k` loops, `T'` knows what `T` knows, and in addition int functions that were
called. -/
structure Grows (Γ : Names) (k : Nat) (T T' : Table) : Prop where
  inner : T'.inner = List.replicate k [] ++ T.inner
  size : T.entries.size ≤ T'.entries.size
  entry : ∀ id < T.entries.size, T'.entry id = T.entry id
  global : ∀ n, T'.lookupGlobal? n = T.lookupGlobal? n ∨
    T.lookupGlobal? n = none ∧ (∃ sig, Γ.calls n = some sig ∧ sig.ty = .int) ∧
      ∃ id, T'.lookupGlobal? n = some id ∧ id < T'.entries.size ∧ T'.entry id = implicitEntry n

variable {sig : Signature} {id : EntryId}

namespace Grows

variable {Γ : Names} {k : Nat} {T T' : Table} {n : String}

theorem refl (Γ : Names) (T : Table) : Grows Γ 0 T T :=
  ⟨rfl, le_rfl, fun _ _ => rfl, fun _ => .inl rfl⟩

theorem lookup? (h : Grows Γ k T T') (hid : T.lookup? n = some id) : T'.lookup? n = some id := by
  have hloops : (replicate k ([] : Symbols.Level)).findSome? (·.lookup n) = none := by
    simp [findSome?_eq_none_iff]
  rw [Table.lookup?, findSome?_append] at hid ⊢
  rw [h.inner, findSome?_append, hloops, Option.none_or]
  cases hin : T.inner.findSome? (·.lookup n) with
  | some i => simpa [hin] using hid
  | none =>
    have hglobal : T.lookupGlobal? n = some id := by simpa [hin, Table.lookupGlobal?] using hid
    rcases h.global n with hsame | ⟨hnone, -⟩
    · simpa [Table.lookupGlobal?] using hsame.trans hglobal
    · simp [hnone] at hglobal

theorem enter (h : Grows Γ k T T') : Grows Γ (k + 1) T T'.enter :=
  ⟨by simp [Table.enter, h.inner, replicate_succ], h.size, h.entry, h.global⟩

theorem leave (h : Grows Γ (k + 1) T T') : Grows Γ k T T'.leave :=
  ⟨by simp [Table.leave, h.inner, replicate_succ], h.size, h.entry, h.global⟩

theorem call (h : Grows Γ k T T') (hn : Γ.calls n = some sig) (hty : sig.ty = .int)
    (hnone : T'.lookupGlobal? n = none) {f : Entry → Entry}
    (hf : f { name := n, level := 0 } = implicitEntry n) :
    Grows Γ k T ((T'.installAt n 0).2.modifyEntry T'.entries.size f) := by
  have hsize : ((T'.installAt n 0).2.modifyEntry T'.entries.size f).entries.size =
      T'.entries.size + 1 := by rw [Table.size_modifyEntry, Table.size_installAt]
  have hold : ∀ id < T'.entries.size,
      ((T'.installAt n 0).2.modifyEntry T'.entries.size f).entry id = T'.entry id := by
    intro id hid
    rw [Table.entry_modifyEntry_of_ne hid.ne, Table.entry_installAt_of_lt _ hid]
  have hnew : ((T'.installAt n 0).2.modifyEntry T'.entries.size f).entry T'.entries.size =
      implicitEntry n := by
    rw [Table.entry_modifyEntry_self (by rw [Table.size_installAt]; exact Nat.lt_succ_self _),
      Table.entry_installAt_self, Table.clampLevel_zero, hf]
  refine ⟨?_, by rw [hsize]; exact Nat.le_succ_of_le h.size, fun id hid => ?_, fun m => ?_⟩
  · rw [Table.inner_modifyEntry, Table.inner_installAt_zero, h.inner]
  · rw [hold id (hid.trans_le h.size), h.entry id hid]
  · rw [Table.lookupGlobal?_modifyEntry, Table.lookupGlobal?_installAt_zero]
    by_cases hm : m = n
    · subst hm
      rw [if_pos rfl]
      have hT : T.lookupGlobal? m = none := by
        rcases h.global m with hsame | ⟨hT, -⟩
        · exact hsame.symm.trans hnone
        · exact hT
      exact .inr ⟨hT, ⟨sig, hn, hty⟩, _, rfl, by rw [hsize]; exact Nat.lt_succ_self _, hnew⟩
    · rw [if_neg hm]
      refine (h.global m).imp_right ?_
      rintro ⟨hT, hcall, id, hid, hlt, hentry⟩
      exact ⟨hT, hcall, id, hid, by rw [hsize]; exact Nat.lt_succ_of_lt hlt,
        (hold id hlt).trans hentry⟩

end Grows

/-! ## The invariant -/

/-- A function at its head: the names in it, the table that knows them, the code before its body,
the number of errors, and its own entry and type. -/
structure Frame where
  names : Names
  table : Table
  before : List Quad
  errors : Nat
  func : EntryId
  ret : Ty
  vars : ∀ n storage tag, names.var? n = some (storage, tag) →
    ∃ id, table.lookup? n = some id ∧ id < table.entries.size ∧ (table.entry id).name = n ∧
      (table.entry id).storage = storage ∧ (table.entry id).tag = tag
  calls : ∀ n sig, names.calls n = some sig →
    table.lookupGlobal? n = none ∧ sig.ty = .int ∨
      ∃ id, table.lookupGlobal? n = some id ∧ id < table.entries.size ∧
        (table.entry id).name = n ∧ (table.entry id).tag = sig.ty.tag
  owner : func < table.entries.size ∧ (table.entry func).tag = ret.tag

/-- Where emission stands in a function: how many loops are open, which labels can have been
declared, and the argument lists that have to stay. -/
structure Spot where
  depth : Nat
  declared : List String
  rows : Array ArgRow

structure Inv (c : Frame) (a : Spot) (K : Kinds) (s : State) : Prop where
  code : ∃ qs, s.code.toList = c.before ++ qs ∧ Checks c.names .none qs K
  fresh : ∀ t k, K t = some k → t.number ≤ s.temps
  errors : s.report.errorCount = c.errors
  table : Grows c.names a.depth c.table s.table
  depth : s.loops.length = a.depth
  declared : ∀ n, (s.declared.lookup n).isSome = true → n ∈ a.declared
  rows : a.rows.size ≤ s.rows.size ∧ ∀ i < a.rows.size, s.rows[i]? = a.rows[i]?
  func : s.func = some c.func

variable {c : Frame} {a : Spot} {K : Kinds} {s s' : State} {α β : Type} {q : Quad} {tag : Tag}
  {Q : α → Kinds → Prop}

structure Sight where
  code : Array Quad
  temps : Nat
  errors : Nat
  table : Table
  depth : Nat
  declared : List (String × Nat)
  rows : Array ArgRow
  func : Option EntryId

def sight (s : State) : Sight where
  code := s.code
  temps := s.temps
  errors := s.report.errorCount
  table := s.table
  depth := s.loops.length
  declared := s.declared
  rows := s.rows
  func := s.func

variable {storage : Storage} {R : β → Kinds → Prop} {quad : Temp → Quad}

namespace Inv

theorem congr (h : Inv c a K s) (hs : sight s' = sight s) : Inv c a K s' := by
  simp only [sight, Sight.mk.injEq] at hs
  obtain ⟨hcode, htemps, herrors, htable, hdepth, hdeclared, hrows, hfunc⟩ := hs
  exact ⟨hcode ▸ h.code, htemps ▸ h.fresh, herrors ▸ h.errors, htable ▸ h.table,
    hdepth ▸ h.depth, hdeclared ▸ h.declared, hrows ▸ h.rows, hfunc ▸ h.func⟩

theorem pass (h : Inv c a K s) (hq : Gives c.names K q none) (m : Bool) :
    Inv c a K { s with code := s.code.push q, marked := m } := by
  obtain ⟨qs, hcode, hqs⟩ := h.code
  exact ⟨⟨qs ++ [q], by simp [hcode], hqs.append (.single hq)⟩, h.fresh, h.errors, h.table,
    h.depth, h.declared, h.rows, h.func⟩

theorem new_temp (h : Inv c a K s) : K ⟨(s.temps + 1 : Nat)⟩ = none := by
  cases hk : K ⟨(s.temps + 1 : Nat)⟩ with
  | none => rfl
  | some k =>
    have := h.fresh _ k hk
    simp only at this
    omega

theorem define (h : Inv c a K s) {k : Kind}
    (hq : Gives c.names K q (some (⟨(s.temps + 1 : Nat)⟩, k))) (m : Bool) :
    Inv c a (K.add (some (⟨(s.temps + 1 : Nat)⟩, k)))
      { s with temps := s.temps + 1, code := s.code.push q, marked := m } := by
  obtain ⟨qs, hcode, hqs⟩ := h.code
  refine ⟨⟨qs ++ [q], by simp [hcode], hqs.append (.single hq)⟩, fun t k' ht => ?_, h.errors,
    h.table, h.depth, h.declared, h.rows, h.func⟩
  by_cases hte : t = ⟨(s.temps + 1 : Nat)⟩
  · subst hte
    exact Int.le_refl _
  · rw [Kinds.add_of_ne hte] at ht
    have := h.fresh t k' ht
    simp only
    omega

theorem lookup? (h : Inv c a K s) {n : String} (hn : c.names.var? n = some (storage, tag)) :
    ∃ id, s.table.lookup? n = some id ∧ (s.table.entry id).name = n ∧
      (s.table.entry id).storage = storage ∧ (s.table.entry id).tag = tag := by
  obtain ⟨id, hid, hlt, hentry⟩ := c.vars n storage tag hn
  rw [← h.table.entry id hlt] at hentry
  exact ⟨id, h.table.lookup? hid, hentry⟩

theorem lookupGlobal? (h : Inv c a K s) {n : String} (hn : c.names.calls n = some sig) :
    s.table.lookupGlobal? n = none ∧ sig.ty = .int ∨
      ∃ id, s.table.lookupGlobal? n = some id ∧ (s.table.entry id).name = n ∧
        (s.table.entry id).tag = sig.ty.tag := by
  rcases h.table.global n with hsame | ⟨-, ⟨sig', hsig', hty⟩, id, hid, hlt, hentry⟩
  · rw [hsame]
    refine (c.calls n sig hn).imp_right ?_
    rintro ⟨id, hid, hlt, hentry⟩
    rw [← h.table.entry id hlt] at hentry
    exact ⟨id, hid, hentry⟩
  · cases hsig'.symm.trans hn
    refine .inr ⟨id, hid, ?_⟩
    rw [hentry, hty]
    exact ⟨rfl, rfl⟩

end Inv

/-! ## Operations -/

def Gets (c : Frame) (a : Spot) (x : EmitM α) (K : Kinds) (s : State) (Q : α → Kinds → Prop) :
    Prop :=
  Ensures x s fun v s' => ∃ K', Inv c a K' s' ∧ K.Le K' ∧ Q v K'

theorem Gets.mono {x : EmitM α} {R : α → Kinds → Prop} (h : Gets c a x K s Q)
    (hQ : ∀ v K', Q v K' → R v K') : Gets c a x K s R :=
  Ensures.mono h fun v _ ⟨K', hinv, hle, hq⟩ => ⟨K', hinv, hle, hQ v K' hq⟩

theorem Gets.bind {x : EmitM α} {f : α → EmitM β} (hx : Gets c a x K s Q)
    (hf : ∀ v K' s', Inv c a K' s' → K.Le K' → Q v K' → Gets c a (f v) K' s' R) :
    Gets c a (x >>= f) K s R := by
  refine ensures_bind.2 (Ensures.mono hx fun v s' ⟨K', hinv, hle, hq⟩ => ?_)
  exact Ensures.mono (hf v K' s' hinv hle hq) fun w s'' ⟨K'', hinv', hle', hr⟩ =>
    ⟨K'', hinv', hle.trans hle', hr⟩

theorem gets_pure {v : α} (h : Inv c a K s) (hv : Q v K) :
    Gets c a (pure v) K s Q := ensures_pure.2 ⟨K, h, .refl K, hv⟩

theorem gets_modify {f : State → State} (h : Inv c a K s) (hf : sight (f s) = sight s) :
    Gets c a (modify f) K s fun _ _ => True := ensures_modify.2 ⟨K, h.congr hf, .refl K, trivial⟩

theorem gets_modifyGet {f : State → α × State} (h : Inv c a K s)
    (hf : sight (f s).2 = sight s) : Gets c a (modifyGet f) K s fun _ _ => True :=
  ensures_modifyGet.2 ⟨K, h.congr hf, .refl K, trivial⟩

theorem gets_emit (h : Inv c a K s) (hq : Gives c.names K q none) :
    Gets c a (emit q) K s fun _ _ => True :=
  ensures_modify.2 ⟨K, h.pass hq _, .refl K, trivial⟩

theorem gets_new {k : Kind} {f : Temp → EmitM β} (h : Inv c a K s)
    (hq : ∀ t, Gives c.names K (quad t) (some (t, k)))
    (hf : ∀ t K' s', Inv c a K' s' → K.Le K' → K' t = some k → Gets c a (f t) K' s' R) :
    Gets c a (do
      let dst ← newTemp
      emit (quad dst)
      f dst) K s R := by
  simp only [Gets, newTemp, emit, ensures_bind, ensures_modifyGet, ensures_modify]
  have hle := Kinds.le_add h.new_temp k
  refine Ensures.mono (hf _ _ _ (h.define (hq _) _) hle (Kinds.add_self K _ k)) ?_
  rintro v s' ⟨K', h', hle', hv⟩
  exact ⟨K', h', hle.trans hle', hv⟩

theorem gets_define {k : Kind} (h : Inv c a K s)
    (hq : ∀ t, Gives c.names K (quad t) (some (t, k))) :
    Gets c a (define tag quad) K s fun v K' => K' v.place = some k ∧ v.tag = tag :=
  gets_new h hq fun _ _ _ h' _ ht => gets_pure h' ⟨ht, rfl⟩

/-! ### Kinds of operands -/

def HasValue (K : Kinds) (v : Value) (ty : Ty) : Prop :=
  K v.place = some (.value ty) ∧ v.tag = ty.tag

def HasPlace (K : Kinds) (v : Value) (ty : Ty) : Prop :=
  K v.place = some (.place ty) ∧ v.tag = ty.tag.union .address

def HasArray (K : Kinds) (v : Value) (ty : Ty) : Prop :=
  K v.place = some .block ∧ v.tag = (ty.tag.union .array).union .address

variable {K' : Kinds} {x y : Value} {t u ty : Ty} {name : String}

theorem HasValue.mono (h : HasValue K x ty) (hle : K.Le K') : HasValue K' x ty := ⟨hle _ _ h.1, h.2⟩

theorem HasPlace.mono (h : HasPlace K x ty) (hle : K.Le K') : HasPlace K' x ty := ⟨hle _ _ h.1, h.2⟩

theorem HasArray.mono (h : HasArray K x ty) (hle : K.Le K') : HasArray K' x ty := ⟨hle _ _ h.1, h.2⟩

/-! ### Constants and variables -/

section

variable (h : Inv c a K s)
include h

theorem gets_constant {text : String} (ht : IsConstant text ty) :
    Gets c a (constant text) K s fun v K' => HasValue K' v ty := by
  have htag : (if isFloatNumeral text then Tag.double else Tag.int) = ty.tag := by
    cases ty with
    | int =>
      obtain ⟨n, -, rfl⟩ := ht
      rw [isFloatNumeral_decimalText]
      rfl
    | double =>
      rw [ht.1]
      rfl
  simp only [constant, htag]
  exact gets_define h fun _ => .const ht

theorem gets_stringLiteral (text : String) :
    Gets c a (stringLiteral text) K s fun v K' => K' v.place = some .block :=
  (gets_define h fun _ => .string).mono fun _ _ hv => hv.1

theorem gets_variableRef {k : Kind} (hn : c.names.var? name = some (storage, tag))
    (hk : ∀ dst offset, Gives c.names K (.ref dst storage name offset) (some (dst, k))) :
    Gets c a (variableRef name) K s fun v K' =>
      K' v.place = some k ∧ v.tag = tag.union .address := by
  obtain ⟨id, hid, hname, hstorage, htag⟩ := h.lookup? hn
  simp only [Gets, variableRef, ensures_bind, ensures_get, hid, ensures_pure]
  rw [hname, hstorage, htag]
  exact gets_define h fun dst => hk dst _

theorem gets_scalar (hn : c.names.Scalar name ty) :
    Gets c a (variableRef name) K s fun v K' => HasPlace K' v ty := by
  obtain ⟨storage, hvar⟩ := hn
  exact gets_variableRef h hvar fun _ _ => .scalar hvar

theorem gets_array (hn : c.names.Array name ty) :
    Gets c a (variableRef name) K s fun v K' => HasArray K' v ty := by
  obtain ⟨storage, hvar⟩ := hn
  exact gets_variableRef h hvar fun _ _ => .array hvar

/-! ### Conversions -/

theorem gets_cast (hx : HasValue K x t) (ty : Ty) :
    Gets c a (cast x ty.tag) K s fun v K' => HasValue K' v ty :=
  gets_define h fun _ => .cast hx.1

theorem gets_truncated (hx : HasValue K x t) :
    Gets c a (truncated x) K s fun v K' => HasValue K' v .int := by
  unfold truncated
  rw [hx.2, isDouble_tag]
  cases t with
  | int => exact gets_pure h hx
  | double => exact gets_cast h hx .int

theorem gets_promoted (hx : HasValue K x t) (hy : HasValue K y u) :
    Gets c a (promoted x y) K s fun p K' =>
      HasValue K' p.1 (t.join u) ∧ HasValue K' p.2 (t.join u) := by
  have hwarn : ∀ n, Gets c a (warn .type n) K s fun _ _ => True := fun n =>
    gets_modify h (by simp [sight, errorCount_warn])
  unfold promoted
  rw [hx.2, hy.2, isDouble_tag, isDouble_tag]
  cases t with
  | int =>
    cases u with
    | int => exact gets_pure h ⟨hx, hy⟩
    | double =>
      refine (hwarn .converted).bind fun _ K1 s1 h1 hle1 _ => ?_
      refine (gets_cast h1 (hx.mono hle1) .double).bind fun v K2 s2 h2 hle2 hv => ?_
      exact gets_pure h2 ⟨hv, (hy.mono hle1).mono hle2⟩
  | double =>
    cases u with
    | int =>
      refine (hwarn .converted).bind fun _ K1 s1 h1 hle1 _ => ?_
      refine (gets_cast h1 (hy.mono hle1) .double).bind fun v K2 s2 h2 hle2 hv => ?_
      exact gets_pure h2 ⟨(hx.mono hle1).mono hle2, hv⟩
    | double => exact gets_pure h ⟨hx, hy⟩

theorem gets_converted (hy : HasValue K y u) (t : Ty) :
    Gets c a (converted t.tag y) K s fun v K' => HasValue K' v t := by
  unfold converted
  rw [hy.2, isDouble_tag, isDouble_tag]
  cases t with
  | int =>
    cases u with
    | int => exact gets_pure h hy
    | double => exact gets_cast h hy .int
  | double =>
    cases u with
    | int => exact gets_cast h hy .double
    | double => exact gets_pure h hy

/-! ### Operators -/

theorem gets_element {i : Value} (hx : HasArray K x ty) (hi : HasValue K i t) :
    Gets c a (element x i) K s fun v K' => HasPlace K' v ty := by
  unfold element
  rw [hx.2, base_array]
  exact (gets_truncated h hi).bind fun i K1 s1 h1 hle1 hi =>
    gets_define h1 fun _ => .index (hle1 _ _ hx.1) hi.1

theorem gets_read (hx : HasPlace K x ty) :
    Gets c a (unaryOp "@" x) K s fun v K' => HasValue K' v ty := by
  simp only [unaryOp, hx.2, isArray_place, without_address_place]
  exact gets_define h fun _ => .load hx.1

theorem gets_whole (hx : HasArray K x ty) :
    Gets c a (unaryOp "@" x) K s fun v K' => K' v.place = some .block := by
  simp only [unaryOp, hx.2, isArray_array, if_true]
  exact gets_pure h hx.1

theorem gets_negate (hx : HasValue K x ty) :
    Gets c a (unaryOp "-" x) K s fun v K' => HasValue K' v ty := by
  simp only [unaryOp, hx.2, without_address_tag]
  exact gets_define h fun _ => .negate hx.1

theorem gets_complement (hx : HasValue K x t) :
    Gets c a (unaryOp "~" x) K s fun v K' => HasValue K' v .int := by
  simp only [unaryOp, hx.2, without_address_tag, isDouble_tag]
  cases t with
  | int => exact gets_define h fun _ => .complement hx.1
  | double =>
    exact (gets_cast h hx .int).bind fun v K1 s1 h1 _ hv => gets_define h1 fun _ => .complement hv.1

end

theorem gets_arithOp (op : Op .arith) (h : Inv c a K s) (hx : HasValue K x t)
    (hy : HasValue K y u) (hrem : op.text = "%" → t.join u = .int) :
    Gets c a (arithOp op.text x y) K s fun v K' => HasValue K' v (t.join u) := by
  simp only [arithOp, op.mem, not_true, if_false]
  refine (gets_promoted h hx hy).bind ?_
  rintro p K1 s1 h1 - ⟨hp1, hp2⟩
  simp only [hp1.2, base_tag, isDouble_tag]
  have hnone : ¬ (decide (op.text = "%") && decide (t.join u = .double)) = true := by
    simp only [Bool.and_eq_true, decide_eq_true_eq]
    rintro ⟨hop, hdouble⟩
    rw [hrem hop] at hdouble
    cases hdouble
  rw [if_neg hnone]
  exact gets_define h1 fun _ => .arith op hp1.1 hp2.1

theorem gets_bitwiseOp (op : Op .bitwise) (h : Inv c a K s) (hx : HasValue K x t)
    (hy : HasValue K y u) :
    Gets c a (bitwiseOp op.text x y) K s fun v K' => HasValue K' v .int := by
  simp only [bitwiseOp, op.mem, not_true, if_false]
  refine (gets_truncated h hx).bind fun x K1 s1 h1 hle1 hx => ?_
  refine (gets_truncated h1 (hy.mono hle1)).bind fun y K2 s2 h2 hle2 hy => ?_
  exact gets_define h2 fun _ => .bitwise op (hx.mono hle2).1 hy.1

/-! ### Assignments -/

section

variable (op : AssignOp) (h : Inv c a K s) (hx : HasPlace K x t) (hy : HasValue K y u)
  (hrem : op.text = "%" → t.join u = .int)
include op h hx hy hrem

theorem gets_assigned : Gets c a (assigned op.text x y) K s fun v K' => ∃ ty, HasValue K' v ty := by
  have hcurrent : Gets c a (unaryOp "@" { place := x.place, tag := x.tag.without .array }) K s
      fun v K' => HasValue K' v t := by
    rw [hx.2, without_array_place]
    exact gets_read h ⟨hx.1, rfl⟩
  cases op with
  | plain => exact gets_pure h ⟨u, hy⟩
  | arith op =>
    have hmem := op.mem
    have hne : op.text ≠ "" := fun he => absurd (he ▸ hmem) (by decide)
    have hbit : op.text ∉ OpClass.bitwise.lexemes := by
      simp only [OpClass.lexemes, mem_cons, not_mem_nil, or_false] at hmem ⊢
      rcases hmem with he | he | he | he | he <;> rw [he] <;> decide
    simp only [AssignOp.text, assigned, hne, if_false, hbit]
    refine hcurrent.bind fun v K1 s1 h1 hle1 hv => ?_
    exact (gets_arithOp op h1 hv (hy.mono hle1) hrem).mono fun _ _ hv => ⟨_, hv⟩
  | bitwise op =>
    have hne : op.text ≠ "" := fun he => absurd (he ▸ op.mem) (by decide)
    simp only [AssignOp.text, assigned, hne, if_false, op.mem, if_true]
    refine hcurrent.bind fun v K1 s1 h1 hle1 hv => ?_
    exact (gets_bitwiseOp op h1 hv (hy.mono hle1)).mono fun _ _ hv => ⟨_, hv⟩

theorem gets_assign : Gets c a (assign op.text x y) K s fun _ _ => True := by
  unfold assign
  refine (gets_assigned op h hx hy hrem).bind fun v K1 s1 h1 hle1 ⟨_, hv⟩ => ?_
  simp only [hx.2, base_place]
  refine (gets_converted h1 hv t).bind fun w K2 s2 h2 hle2 hw => ?_
  refine (gets_define h2 fun _ => .store (hle2 _ _ (hle1 _ _ hx.1)) hw.1).mono fun _ _ _ => trivial

end

/-! ### Arguments and calls -/

def Lists (a : Spot) (K : Kinds) (s : State) : ArgList → Nat → Prop
  | .empty, n => n = 0
  | .span row size, n => size = n ∧ a.rows.size ≤ row ∧ ∃ r, s.rows[row]? = some r ∧
      size ≤ r.values.length ∧ ∀ v ∈ r.values.take size, ∃ k, K v.place = some k

variable {l : ArgList} {n : Nat}

theorem Lists.args (h : Lists a K s l n) :
    (s.argsOf l).length = n ∧ ∀ v ∈ s.argsOf l, ∃ k, K v.place = some k := by
  cases l with
  | empty =>
    obtain rfl : n = 0 := h
    simp [State.argsOf]
  | span row size =>
    obtain ⟨rfl, -, r, hr, hsize, hknown⟩ := h
    simp only [State.argsOf, hr]
    exact ⟨length_take_of_le hsize, hknown⟩

theorem Lists.keep (h : Lists a K s l n) (hle : K.Le K')
    (hrows : ∀ i < s.rows.size, s'.rows[i]? = s.rows[i]?) : Lists a K' s' l n := by
  cases l with
  | empty => exact h
  | span row size =>
    obtain ⟨hn, hrow, r, hr, hsize, hknown⟩ := h
    have hlt : row < s.rows.size := (Array.getElem?_eq_some_iff.1 hr).1
    refine ⟨hn, hrow, r, (hrows row hlt).trans hr, hsize, fun v hv => ?_⟩
    obtain ⟨k, hk⟩ := hknown v hv
    exact ⟨k, hle _ _ hk⟩

theorem Inv.setRows (h : Inv c a K s) {rows : Array ArgRow} (hsize : s.rows.size ≤ rows.size)
    (hrows : ∀ i < a.rows.size, rows[i]? = s.rows[i]?) (m : Bool) :
    Inv c a K { s with rows := rows, marked := m } :=
  ⟨h.code, h.fresh, h.errors, h.table, h.depth, h.declared,
    ⟨le_trans h.rows.1 hsize, fun i hi => (hrows i hi).trans (h.rows.2 i hi)⟩, h.func⟩

theorem ensures_newRow (room : Nat) {vs : List Value} {m : Bool} (h : Inv c a K s)
    (hvs : ∀ v ∈ vs, ∃ k, K v.place = some k) :
    Ensures (newRow room vs) { s with marked := m } fun l' s' =>
      Inv c a K s' ∧ Lists a K s' l' vs.length := by
  refine ensures_modifyGet.2 ⟨?_, rfl, h.rows.1, ⟨room, vs⟩, by simp, le_rfl, by simpa⟩
  refine h.setRows (by simp) (fun i hi => ?_) m
  have hlt := hi.trans_le h.rows.1
  simp [Array.getElem?_push, hlt.ne]

theorem ensures_appendArg {v : Value} {k : Kind} (h : Inv c a K s) (hl : Lists a K s l n)
    (hv : K v.place = some k) :
    Ensures (appendArg l v) s fun l' s' => Inv c a K s' ∧ Lists a K s' l' (n + 1) := by
  simp only [appendArg, unmark, ensures_bind, ensures_modify]
  cases l with
  | empty =>
    obtain rfl : n = 0 := hl
    exact ensures_newRow _ h (by simpa using ⟨k, hv⟩)
  | span row size =>
    obtain ⟨rfl, hrow, r, hr, hsize, hknown⟩ := hl
    simp only [ensures_bind, ensures_get, hr, Option.getD_some]
    have hlen : (r.values.take size).length = size := length_take_of_le hsize
    have hmore : ∀ w ∈ r.values.take size ++ [v], ∃ k, K w.place = some k :=
      forall_mem_append.2 ⟨hknown, by simpa using ⟨k, hv⟩⟩
    split
    · simp only [ensures_bind, ensures_modify, ensures_pure]
      refine ⟨h.setRows (by simp) (fun i hi => ?_) false, rfl, hrow, r.put size v, ?_, ?_, ?_⟩
      · have hne : row ≠ i := fun he => hrow.not_gt (he ▸ hi)
        simp [Array.getElem?_modify, hne]
      · simp [Array.getElem?_modify, hr]
      · simp only [ArgRow.put, length_append, hlen, length_cons]
        omega
      · have htake : (r.put size v).values.take (size + 1) = r.values.take size ++ [v] := by
          simp [ArgRow.put, take_append, take_take, hlen]
        rw [htake]
        exact hmore
    · have hnew := ensures_newRow (m := false) (nextRoom r.room) h hmore
      rw [length_append, hlen] at hnew
      exact hnew

theorem ensures_getEntry {Q : Entry → State → Prop} :
    Ensures (getEntry id) s Q ↔ Q (s.table.entry id) s := by
  simp [getEntry]

theorem ensures_calleeEntry (h : Inv c a K s) (hsig : c.names.calls name = some sig) :
    Ensures (calleeEntry name) s fun id s' => Inv c a K s' ∧ s'.rows = s.rows ∧
      (s'.table.entry id).name = name ∧ (s'.table.entry id).tag = sig.ty.tag := by
  simp only [calleeEntry, ensures_bind, ensures_get]
  rcases h.lookupGlobal? hsig with ⟨hnone, hty⟩ | ⟨id, hid, hentry⟩
  · simp only [hnone, ensures_bind, warn, installAt, setEntry, ensures_modify, ensures_modifyGet,
      ensures_pure]
    have hgrows := h.table.call hsig hty hnone (f := fun e =>
      { e with kind := .func, storage := .global, tag := .int, implicit := true }) rfl
    have hnew := Table.entry_modifyEntry_self (T := (s.table.installAt name 0).2)
      (Table.size_lt_installAt _) fun e =>
        { e with kind := .func, storage := .global, tag := .int, implicit := true }
    refine ⟨⟨h.code, h.fresh, ?_, hgrows, h.depth, h.declared, h.rows, h.func⟩, trivial, ?_, ?_⟩
    · rw [errorCount_warn]
      exact h.errors
    · refine (congrArg Entry.name hnew).trans ?_
      rw [Table.entry_installAt_self]
    · exact (congrArg Entry.tag hnew).trans (hty ▸ rfl)
  · simp only [hid, ensures_pure]
    exact ⟨h, trivial, hentry⟩

theorem gets_call (h : Inv c a K s) (hl : Lists a K s l n) (hsig : c.names.calls name = some sig)
    (hn : ∀ m ∈ sig.arity, n = m) :
    Gets c a (call name l) K s fun v K' => HasValue K' v sig.ty := by
  refine ensures_bind.2 ((ensures_calleeEntry h hsig).mono fun id s1 ⟨h1, hrows, hname, htag⟩ => ?_)
  rw [ensures_bind, ensures_getEntry, ensures_bind, ensures_get, hname, htag, base_tag]
  obtain ⟨hlen, hknown⟩ := Lists.args (hl.keep (.refl K) fun i _ => by rw [hrows])
  generalize s1.argsOf l = args at hlen hknown
  have hargs : Ensures (args.forM fun v => emit (.arg v.place v.tag.base)) s1
      fun _ s' => Inv c a K s' := by
    refine (ensures_forM (I := fun vs s' => vs ⊆ args ∧ Inv c a K s') ⟨fun _ hv => hv, h1⟩ ?_).mono
      fun _ _ h' => h'.2
    rintro v vs s' ⟨hsub, h'⟩
    obtain ⟨k, hk⟩ := hknown v (hsub mem_cons_self)
    exact ensures_modify.2 ⟨fun w hw => hsub (mem_cons_of_mem _ hw), h'.pass (.arg hk) _⟩
  refine ensures_bind.2 (hargs.mono fun _ s2 h2 => ?_)
  refine gets_new h2 (fun _ => .func hsig) fun callee K3 s3 h3 hle hcallee => ?_
  refine gets_define h3 fun dst => .call hcallee hsig (by simpa [hlen] using hn) fun t ht => ?_
  obtain ⟨v, hv, rfl⟩ := mem_map.1 ht
  obtain ⟨k, hk⟩ := hknown v hv
  exact ⟨k, hle _ _ hk⟩

/-! ### Tests -/

theorem gets_relation (op : Op .compare) (h : Inv c a K s) (hx : HasValue K x t)
    (hy : HasValue K y u) : Gets c a (relation op.text x y) K s fun _ _ => True := by
  simp only [relation, op.mem, not_true, if_false]
  refine (gets_promoted h hx hy).bind ?_
  rintro p K1 s1 h1 - ⟨hp1, hp2⟩
  simp only [hp1.2, base_tag]
  refine gets_new h1 (fun _ => .compare op hp1.1 hp2.1) fun dst K2 s2 h2 _ hdst => ?_
  have hblank : ∀ {K s}, Inv c a K s → Gets c a newBlank K s fun _ _ => True :=
    fun h => gets_modifyGet h rfl
  have hsingle : ∀ {K s}, Inv c a K s → ∀ b, Gets c a (single b) K s fun _ _ => True :=
    fun h _ => gets_modifyGet h rfl
  refine (hblank h2).bind fun onTrue K3 s3 h3 hle3 _ => ?_
  refine (gets_emit h3 (.condJump (hle3 _ _ hdst))).bind fun _ K4 s4 h4 _ _ => ?_
  refine (hblank h4).bind fun onFalse K5 s5 h5 _ _ => ?_
  refine (gets_emit h5 (.jump _)).bind fun _ K6 s6 h6 _ _ => ?_
  refine (hsingle h6 onTrue).bind fun _ K7 s7 h7 _ _ => ?_
  exact (hsingle h7 onFalse).bind fun _ K8 s8 h8 _ _ => gets_pure h8 trivial

theorem gets_condition (h : Inv c a K s) (hx : HasValue K x t) :
    Gets c a (condition x) K s fun _ _ => True := by
  have hzero : IsConstant "0" .int := ⟨0, by decide, rfl⟩
  have hunmark : Gets c a unmark K s fun _ _ => True := gets_modify h rfl
  refine hunmark.bind fun _ K1 s1 h1 hle1 _ => ?_
  refine (gets_constant h1 hzero).bind fun zero K2 s2 h2 hle2 hz => ?_
  exact gets_relation ⟨"!=", by decide⟩ h2 ((hx.mono hle1).mono hle2) hz

end Quadruple.Source
