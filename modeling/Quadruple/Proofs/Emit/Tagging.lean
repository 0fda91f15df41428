import Quadruple.Proofs.Code.Tag
import Quadruple.Proofs.Emit.Actions

/-!
# The types of operators

A value says of its place whether it holds a double. Main statement: `operators_tagged`. Indices and
the operands of bitwise operators are no doubles, and bitwise operators are of type `int`. A
complement is of the type of its operand, or `int` where that is a double, so the complement of a
text is a text: `text_complemented`.
-/

namespace Quadruple

open List

/-- The type of an instruction fits its operands and what it defines, where `D` says of the places
of values whether they hold doubles. -/
def Quad.Tagged (D : Temp → Option Bool) : Quad → Prop
  | .binary .arith dst _ x y tag =>
    D x = some tag.isDouble ∧ D y = some tag.isDouble ∧ D dst = some tag.isDouble
  | .binary .compare dst _ x y tag =>
    D x = some tag.isDouble ∧ D y = some tag.isDouble ∧ D dst = some false
  | .binary .bitwise dst _ x y tag =>
    tag = .int ∧ D x = some false ∧ D y = some false ∧ D dst = some false
  | .unary dst op x tag =>
    D x = some tag.isDouble ∧ D dst = some tag.isDouble ∧ (op = "~" → tag.isDouble = false)
  | .store dst _ y tag => D y = some tag.isDouble ∧ D dst = some tag.isDouble
  | .index dst _ i tag => D i = some false ∧ D dst = some tag.isDouble
  | .const dst _ tag | .load dst _ tag | .cast dst _ tag | .call dst _ tag _ =>
    D dst = some tag.isDouble
  | .ret x tag => ∀ y ∈ x, D y = some tag.isDouble
  | _ => True

def Enlarges (D D' : Temp → Option Bool) : Prop := ∀ t b, D t = some b → D' t = some b

variable {D D' D'' : Temp → Option Bool}

theorem Enlarges.refl (D : Temp → Option Bool) : Enlarges D D := fun _ _ => id

theorem Enlarges.trans (h : Enlarges D D') (h' : Enlarges D' D'') : Enlarges D D'' :=
  fun t b ht => h' t b (h t b ht)

variable {t : Temp} {q : Quad}

theorem enlarges_update (ht : D t = none) (b : Bool) :
    Enlarges D (Function.update D t (some b)) := by
  intro u c hu
  rw [Function.update_of_ne, hu]
  rintro rfl
  cases ht.symm.trans hu

theorem Quad.Tagged.mono (h : q.Tagged D) (hD : Enlarges D D') : q.Tagged D' := by
  cases q with
  | binary cls =>
    cases cls with
    | arith | compare => exact ⟨hD _ _ h.1, hD _ _ h.2.1, hD _ _ h.2.2⟩
    | bitwise => exact ⟨h.1, hD _ _ h.2.1, hD _ _ h.2.2.1, hD _ _ h.2.2.2⟩
  | unary => exact ⟨hD _ _ h.1, hD _ _ h.2.1, h.2.2⟩
  | store | index => exact ⟨hD _ _ h.1, hD _ _ h.2⟩
  | const | load | cast | call => exact hD _ _ h
  | ret => exact fun y hy => hD _ _ (h y hy)
  | _ => trivial

namespace Emit

/-! ## Acts -/

@[simp]
def Item.Tagged (D : Temp → Option Bool) : Item → Prop
  | .value x a => D x = some a.isDouble
  | _ => True

theorem Item.Tagged.mono {i : Item} (h : i.Tagged D) (hD : Enlarges D D') : i.Tagged D' := by
  cases i with
  | value => exact hD _ _ h
  | _ => trivial

structure State.Tagged (D : Temp → Option Bool) (s : State) : Prop where
  fresh : ∀ t : Temp, s.temps < t.number → D t = none
  rows : ∀ r ∈ s.rows.toList, ∀ v ∈ r.values, v.item.Tagged D
  code : ∀ q ∈ s.code.toList, q.Tagged D

variable {g d c : Bool} {I I' : List Item} {s s' : State}

theorem Defines.tagged {tag : Tag} {quad : Temp → Quad} (h : Defines I s tag quad)
    (hI : ∀ i ∈ I, i.Tagged D) (ht : D t = some tag.isDouble) : (quad t).Tagged D := by
  cases h with
  | index _ hi hb => exact ⟨hb ▸ hI _ hi, by simpa using ht⟩
  | negate hy => exact ⟨by simpa using hI _ hy, ht, by simp⟩
  | complement hy hb => exact ⟨by simpa using hI _ hy, ht, fun _ => hb⟩
  | arith _ hx hy hab | compare _ hx hy hab =>
    exact ⟨by simpa using hI _ hx, by simpa [hab] using hI _ hy, ht⟩
  | bitwise _ hx hy ha hb => exact ⟨rfl, ha ▸ hI _ hx, hb ▸ hI _ hy, ht⟩
  | store _ hy hab => exact ⟨hab ▸ hI _ hy, ht⟩
  | string | ref | callee => trivial
  | _ => exact ht

theorem Writes.tagged (h : Writes I s q) (hI : ∀ i ∈ I, i.Tagged D) : q.Tagged D := by
  cases h with
  | ret => exact nofun
  | retValue hx htag =>
    rintro y ⟨⟩
    rw [htag]
    exact hI _ hx
  | storage hq => exact forall_mem_storage (fun _ => trivial) (fun _ => trivial) q hq
  | _ => trivial

theorem tagged_push {code : Array Quad} (h : ∀ r ∈ code.toList, r.Tagged D)
    (hq : q.Tagged D) : ∀ r ∈ (code.push q).toList, r.Tagged D := by
  rw [Array.toList_push]
  exact forall_mem_append.2 ⟨h, forall_mem_singleton.2 hq⟩

variable {a b : List Item × State} {op : Op}

theorem Act.tagged (h : Act g d c a b) (hI : ∀ i ∈ a.1, i.Tagged D)
    (hs : a.2.Tagged D) : ∃ D', Enlarges D D' ∧ (∀ i ∈ b.1, i.Tagged D') ∧ b.2.Tagged D' := by
  cases h with
  | @define I s tag quad h =>
    -- a new temporary is the place of no value yet
    have hnew : (s.temps : Int) < (s.temps + 1 : Nat) := by omega
    have hext := enlarges_update (hs.fresh ⟨(s.temps + 1 : Nat)⟩ hnew) tag.isDouble
    have hI' : ∀ i ∈ I, i.Tagged _ := fun i hi => (hI i hi).mono hext
    refine ⟨_, hext, forall_mem_cons.2 ⟨Function.update_self .., hI'⟩, fun u hu => ?_,
      fun r hr v hv => (hs.rows r hr v hv).mono hext,
      tagged_push (fun q hq => (hs.code q hq).mono hext) (h.tagged hI' (Function.update_self ..))⟩
    rw [Function.update_of_ne (by rintro rfl; exact Int.lt_irrefl _ hu)]
    exact hs.fresh u (Int.lt_trans hnew hu)
  | emit h => exact ⟨D, .refl D, hI, hs.fresh, hs.rows, tagged_push hs.code (h.tagged hI)⟩
  | patch => exact ⟨D, .refl D, hI, hs.fresh, hs.rows, tagged_push hs.code trivial⟩
  | branch hq =>
    refine ⟨D, .refl D, forall_mem_cons.2 ⟨trivial, hI⟩, hs.fresh, hs.rows, tagged_push hs.code ?_⟩
    rcases hq with rfl | ⟨x, a, -, rfl⟩ <;> trivial
  | label =>
    exact ⟨D, .refl D, forall_mem_cons.2 ⟨trivial, hI⟩, hs.fresh, hs.rows,
      tagged_push hs.code trivial⟩
  | rows h =>
    exact ⟨D, .refl D, hI, hs.fresh, fun r hr v hv => (h r hr v hv).elim (hI _)
      fun ⟨r', hr', hv'⟩ => hs.rows r' hr' v hv', hs.code⟩
  | fetch hr hv => exact ⟨D, .refl D, forall_mem_cons.2 ⟨hs.rows _ hr _ hv, hI⟩, hs⟩
  | view hx => exact ⟨D, .refl D, forall_mem_cons.2 ⟨by simpa using hI _ hx, hI⟩, hs⟩
  | marked | look | find | declare | redeclare =>
    exact ⟨D, .refl D, forall_mem_cons.2 ⟨trivial, hI⟩, hs.fresh, hs.rows, hs.code⟩
  | _ => exact ⟨D, .refl D, hI, hs.fresh, hs.rows, hs.code⟩

theorem Acts.tagged (h : Acts g d c a b) (hI : ∀ i ∈ a.1, i.Tagged D)
    (hs : a.2.Tagged D) : ∃ D', Enlarges D D' ∧ (∀ i ∈ b.1, i.Tagged D') ∧ b.2.Tagged D' := by
  induction h with
  | refl => exact ⟨D, .refl D, hI, hs⟩
  | tail _ hact ih =>
    obtain ⟨D1, hext, hI1, hs1⟩ := ih
    obtain ⟨D2, hext', hI2, hs2⟩ := hact.tagged hI1 hs1
    exact ⟨D2, hext.trans hext', hI2, hs2⟩

/-! ## Runs -/

def Op.value? : Op → State → Option Value
  | .constant text => result? (Emit.constant text)
  | .stringLiteral text => result? (Emit.stringLiteral text)
  | .variableRef name => result? (Emit.variableRef name)
  | .element x i => result? (Emit.element x i)
  | .unaryOp op y => result? (Emit.unaryOp op y)
  | .arithOp op x y => result? (Emit.arithOp op x y)
  | .bitwiseOp op x y => result? (Emit.bitwiseOp op x y)
  | .relation op x y => result? (Emit.relation op x y)
  | .assign op x y => result? (Emit.assign op x y)
  | .cast x tag => result? (Emit.cast x tag)
  | .call name args => result? (Emit.call name args)
  | .condition v => result? (Emit.condition v)
  | .both x m y => result? (Emit.both x m y)
  | .either x m y => result? (Emit.either x m y)
  | .negated v => result? (Emit.negated v)
  | _ => fun _ => none

def given (s : State) : List Op → List Value
  | [] => []
  | op :: ops => (op.value? s).toList ++ given (after op.perform s) ops

/-- Whether a run is only given the values `vs` and those that it gives itself. -/
def supplied (s : State) (vs : List Value) : List Op → Bool
  | [] => true
  | op :: ops => op.values.all (decide <| · ∈ vs) &&
      supplied (after op.perform s) ((op.value? s).toList ++ vs) ops

theorem Does.value {K : List Item} {x : EmitM Value} (h : Does g d c K x fun v => [v.item])
    (hI : K ⊆ I) (s : State) : ∃ I', Acts g d c (I, s) (I', after (discard x) s) ∧
      ∀ v ∈ result? x s, v.item ∈ I' := by
  obtain ⟨I', hacts, hv⟩ := h s I hI
  refine ⟨I', by rwa [after_discard], fun v hresult => ?_⟩
  obtain ⟨s', hx⟩ := eq_ok_of_result? hresult
  exact hv v s' hx mem_cons_self

/-- A condition that is made of others has no place of its own, and is no double. -/
theorem acts_value (hop : op.table? = none) (s : State)
    (hI : .value ⟨0⟩ ⟨0⟩ :: op.items ⊆ I) : ∃ I',
      Acts op.jumps (!op.isQuiet) op.links (I, s) (I', after op.perform s) ∧
      ∀ v ∈ op.value? s, v.item ∈ I' := by
  cases op with
  | constant => exact (does_constant (.inr (by simp))).value hI s
  | stringLiteral => exact (does_define fun _ => .string (by simp)).value hI s
  | variableRef => exact (does_variableRef (by simp)).value hI s
  | element => exact (does_element (by simp) (by simp)).value hI s
  | unaryOp => exact (does_unaryOp _ (by simp)).value hI s
  | arithOp => exact (does_arithOp _ (by simp) (by simp)).value hI s
  | bitwiseOp => exact (does_bitwiseOp _ (by simp) (by simp)).value hI s
  | relation => exact (does_relation _ (by simp) (by simp)).value hI s
  | assign => exact (does_assign _ (by simp) (by simp)).value hI s
  | cast => exact (does_cast (by simp) _).value hI s
  | call => exact (does_call (by simp) _).value hI s
  | condition => exact (does_condition (by simp)).value hI s
  | both | either =>
    exact Does.value (does_unmark.bind fun _ => (does_resolve _ (by simp)).bind fun _ =>
      (does_merge _ _).bind fun _ => does_pure (by simp [Value.item])) hI s
  | negated => exact Does.value (does_unmark.bind fun _ => does_pure (by simp [Value.item])) hI s
  | _ =>
    obtain ⟨I', hacts, -⟩ := does_perform hop s I (cons_subset.1 hI).2
    exact ⟨I', hacts, fun v hv => absurd hv (Option.not_mem_none v)⟩

theorem tagged_perform (hs : s.Tagged D) (hzero : D ⟨0⟩ = some false)
    (hop : ∀ v ∈ op.values, v.item.Tagged D) : ∃ D', Enlarges D D' ∧
      (∀ v ∈ op.value? s, v.item.Tagged D') ∧ (after op.perform s).Tagged D' := by
  cases htable : op.table? with
  | some table =>
    cases op <;> cases htable
    exact ⟨D, .refl D, nofun, hs.fresh, hs.rows, hs.code⟩
  | none =>
    have hI : ∀ i ∈ .value ⟨0⟩ ⟨0⟩ :: op.items, i.Tagged D := by
      simp only [Op.items, forall_mem_cons, forall_mem_append, forall_mem_map]
      exact ⟨hzero, ⟨⟨⟨⟨⟨hop, fun _ _ => trivial⟩, fun _ _ => trivial⟩, fun _ _ => trivial⟩,
        fun _ _ => trivial⟩, fun _ _ => trivial⟩, fun _ _ => trivial⟩
    obtain ⟨I', hacts, hvalue⟩ := acts_value htable s fun _ => id
    obtain ⟨D', hext, hI', hs'⟩ := Acts.tagged hacts hI hs
    exact ⟨D', hext, fun v hv => hI' _ (hvalue v hv), hs'⟩

theorem tagged_run {vs : List Value} {ops : List Op} (h : supplied s vs ops = true)
    (hs : s.Tagged D) (hzero : D ⟨0⟩ = some false) (hvs : ∀ v ∈ vs, v.item.Tagged D) :
    ∃ D', Enlarges D D' ∧ (∀ v ∈ given s ops, v.item.Tagged D') ∧ (s.run ops).Tagged D' := by
  induction ops generalizing s vs D with
  | nil => exact ⟨D, .refl D, nofun, hs⟩
  | cons op ops ih =>
    obtain ⟨hop, hops⟩ := Bool.and_eq_true_iff.1 h
    obtain ⟨D1, hext, hvalue, hs1⟩ := tagged_perform hs hzero fun v hv =>
      hvs v (of_decide_eq_true (all_eq_true.1 hop v hv))
    obtain ⟨D2, hext', hgiven, hs2⟩ := ih hops hs1 (hext _ _ hzero) (forall_mem_append.2
      ⟨fun v hv => hvalue v (Option.mem_toList.1 hv), fun v hv => (hvs v hv).mono hext⟩)
    refine ⟨D2, hext.trans hext', forall_mem_append.2 ⟨fun v hv => ?_, hgiven⟩, hs2⟩
    exact (hvalue v (Option.mem_toList.1 hv)).mono hext'

theorem complement_tag {y v : Value} (h : unaryOp "~" y s = .ok v s') :
    v.tag = (if y.tag.isDouble then .int else y.tag.without .address) ∧
      ∃ x, s'.code.back? = some (.unary v.place "~" x v.tag) := by
  simp only [unaryOp, Tag.isDouble_without_address] at h
  split at h <;> cases h
  · next hd => exact ⟨(if_pos hd).symm, _, Array.back?_push⟩
  · next hd => exact ⟨(if_neg hd).symm, _, Array.back?_push⟩

/-- Where a run is given no values but its own, `D` says of the place of each value whether it is a
double, and every operator is of the type of its operands and of the value that it gives. A
complement takes its type from its operand. -/
theorem operators_tagged (settings : Settings) (table : Symbols.Table) (report : Report)
    {ops : List Op} (h : supplied (State.new settings table report) [] ops = true) :
    (∃ D : Temp → Option Bool,
      (∀ v ∈ given (State.new settings table report) ops, D v.place = some v.tag.isDouble) ∧
      ∀ q ∈ ((State.new settings table report).run ops).code.toList, q.Tagged D) ∧
    ∀ (y v : Value) (s s' : State), unaryOp "~" y s = .ok v s' →
      v.tag = (if y.tag.isDouble then .int else y.tag.without .address) ∧
        ∃ x, s'.code.back? = some (.unary v.place "~" x v.tag) := by
  refine ⟨?_, fun y v s s' => complement_tag⟩
  obtain ⟨D, -, hgiven, hrun⟩ := tagged_run h (D := fun t => if t = ⟨0⟩ then some false else none)
    ⟨fun t ht => if_neg (by rintro rfl; cases ht), nofun, nofun⟩ rfl nofun
  exact ⟨D, hgiven, hrun.code⟩

def complementedText : List Op :=
  [.constant "1.5", .stringLiteral "x", .unaryOp "~" { place := ⟨2⟩, tag := .string },
    .arithOp "+" { place := ⟨1⟩, tag := .double } { place := ⟨3⟩, tag := .string }]

theorem complementedText_tagged :
    supplied (State.new {} .empty ⟨none, []⟩) [] complementedText = true ∧
    ∃ D : Temp → Option Bool,
      (∀ v ∈ given (State.new {} .empty ⟨none, []⟩) complementedText,
        D v.place = some v.tag.isDouble) ∧
      ∀ q ∈ ((State.new {} .empty ⟨none, []⟩).run complementedText).code.toList, q.Tagged D :=
  have h : supplied (State.new {} .empty ⟨none, []⟩) [] complementedText = true := by
    decide +kernel
  ⟨h, (operators_tagged {} .empty ⟨none, []⟩ h).1⟩

/-- The complement of a text is not of type `int`. -/
theorem text_complemented :
    supplied (State.new {} .empty ⟨none, []⟩) [] complementedText = true ∧
    .unary ⟨3⟩ "~" ⟨2⟩ .string ∈
      ((State.new {} .empty ⟨none, []⟩).run complementedText).code.toList ∧
    Tag.string ≠ .int := by
  decide +kernel

end Emit

end Quadruple
