import Quadruple.Proofs.Flow.Built
import Quadruple.Proofs.Lowering.Trail

/-!
# The flow of a lowered program

Main statement: `lower_keeps_flow`. Lowering takes every block of a built graph to one block of the
program, with the same label and in the same place. The block ends in its only terminator, and the
labels of that are those of the successors. All but the last instruction of a block become
instructions that are no terminators, and no temporary is bound to a label.
-/

namespace Quadruple

open List

def Ir.Value.label? : Ir.Value → Option String
  | .label name => some name
  | _ => none

def Ir.Instr.labels (i : Ir.Instr) : List String := i.args.filterMap Ir.Value.label?

/-- An instruction that ends a block and goes on at one of the labels: at none when it returns, at
the one of a jump, at the first or the second of a branch. -/
inductive Ir.Instr.LeadsTo (i : Ir.Instr) : List String → Prop
  | ret : i.op = .ret → i.LeadsTo []
  | jump {l : String} : i.op = .jmp → i.args = [.label l] → i.LeadsTo [l]
  | branch {c : Ir.Value} {l m : String} : i.op = .jnz → i.args = [c, .label l, .label m] →
      i.LeadsTo [l, m]

variable {ls : List String}

theorem Ir.Instr.LeadsTo.isTerminator {i : Ir.Instr} (h : i.LeadsTo ls) :
    i.op.isTerminator = true := by
  cases h with
  | ret hop | jump hop | branch hop => rw [hop]; rfl

def Flow.Func.successors (f : Flow.Func) (b : Flow.Block) : List (Option String) :=
  b.succs.map fun j => (f.blocks[j]?).map (·.label)

def Symbols.Table.LabelFree (T : Symbols.Table) : Prop :=
  ∀ id v, (T.entry id).handle = some v → v.label? = none

def Quad.goals (q : Quad) : List String := q.targets.map fun t => labelName t.number

namespace Lowering

open Quadruple.Flow (Func Block)
open Ir (Value Instr Ty)
open Symbols (Entry EntryId Table)

variable {s s1 : State} {T : Table} {vs : List Visit} {is : List Instr} {f : Func}

/-! ## Labels -/

structure LabelFree (s : State) : Prop where
  places : s.table.LabelFree
  bindings : ∀ p ∈ s.bindings, p.2.val.label? = none

theorem LabelFree.binding (h : LabelFree s) {t : Temp} {b : Binding}
    (hb : s.bindings.lookup t = some b) : b.val.label? = none :=
  h.bindings _ (mem_of_lookup hb)

theorem label?_of_global {name : String} {v : Value} (h : some (Value.global name) = some v) :
    v.label? = none := by
  cases h
  rfl

theorem lasting_labelFree : Lasting Table.LabelFree :=
  lasting_all (E := fun e => ∀ v, e.handle = some v → v.label? = none) (by simp)
    (by simp [slotEntry, Value.label?]) (fun _ _ _ _ => label?_of_global)
    fun _ _ _ _ _ => label?_of_global

theorem labelFree_declaredTable (g : Flow.Graph) (h : T.LabelFree) :
    (declaredTable g T).LabelFree := by
  refine all_declaredTable (E := fun e => ∀ v, e.handle = some v → v.label? = none) (by simp)
    (fun d hd e _ => ?_) h
  simp only [declarations, mem_append, mem_map] at hd
  rcases hd with ⟨x, -, rfl⟩ | ⟨f, -, rfl⟩ | ⟨b, -, rfl⟩ <;> exact fun _ => label?_of_global

section Makes

variable {q : Quad} {new : Option (Temp × Binding)} {ns : List Notice}

theorem Makes.labelFree (h : Makes s q is new ns) (hs : LabelFree s) :
    ∀ p ∈ new.toList, p.2.val.label? = none := by
  cases h with
  | ref hb =>
    cases hb with
    | func => simp [functionBinding, Value.label?]
    | global _ _ _ hh | slot _ _ hh => simpa [variableBinding] using hs.places _ _ hh
  | array ha => simpa using hs.binding ha
  | same hb => simpa using hs.binding hb
  | store _ _ hv hx =>
    cases hx with
    | keep hn => simpa [stored, hn] using hs.binding hv
    | convert k hn => simp [stored, hn, Value.label?]
  | _ => simp [computed, tempValue, intern.literalName, Value.label?]

theorem Runs.labelFree (h : Runs s vs s1) (hs : LabelFree s) : ∀ v ∈ vs, LabelFree v.before := by
  have htables := (lasting_labelFree.runs h hs.places).1
  refine fun v hv => ⟨htables v hv, (h.invariant
    (I := fun t => ∀ p ∈ t.bindings, p.2.val.label? = none) (fun t t' hr ht => ?_)
    (fun w hw hran ht => ?_) hs.bindings).1 v hv⟩
  · rw [hr]
    exact ht
  · obtain ⟨_, _, hmakes, hafter, -⟩ := hran.makes
    rw [hafter.bindings]
    exact forall_mem_append.2 ⟨hmakes.labelFree ⟨htables w hw, ht⟩, ht⟩

/-! ## Terminators -/

theorem conversion_not_terminator (want : Ty) (x : Value) :
    (conversion want x).op.isTerminator = false := by
  unfold conversion
  split <;> rfl

theorem operation?_not_terminator {cls : OpClass} {lexeme : String} {op : Ir.Op}
    (h : operation? cls lexeme = some op) : op.isTerminator = false := by
  unfold operation? at h
  split at h <;> cases h <;> rfl

theorem Coerced.plain {b : Binding} {want : Ty} {x : Value} (h : Coerced b want is x) :
    ∀ i ∈ is, i.op.isTerminator = false := by
  cases h with
  | keep => simp
  | convert k => simpa using conversion_not_terminator want b.val

theorem Makes.plain (h : Makes s q is new ns) (hq : q.endsBlock = false) :
    ∀ i ∈ is, i.op.isTerminator = false := by
  cases h with
  | store _ _ _ hx | neg _ hx | not _ hx =>
    exact forall_mem_append.2 ⟨hx.plain, by simp [computing, Ir.Op.isTerminator]⟩
  | index _ _ _ _ hx => cases hx <;> simp [computing, Ir.Op.isTerminator]
  | binary _ _ hop hv hw =>
    refine forall_mem_append.2 ⟨forall_mem_append.2 ⟨hv.plain, hw.plain⟩, ?_⟩
    simpa [computing] using operation?_not_terminator hop
  | cast => simpa [computing] using conversion_not_terminator _ _
  | branch | jump | ret | leave | funcEnd => cases hq
  | _ => simp [computing, callInstr, Ir.Op.isTerminator]

theorem labels_defaultReturn (ret : Ty) : (defaultReturn ret).labels = [] := by cases ret <;> rfl

theorem Makes.ends (h : Makes s q is new ns) (hq : q.endsBlock = true) : ∃ js i, is = js ++ [i] ∧
    (∀ j ∈ js, j.op.isTerminator = false) ∧ i.LeadsTo q.goals ∧
      (LabelFree s → i.labels = q.goals) := by
  cases h with
  | branch hc =>
    refine ⟨[], _, rfl, by simp, .branch rfl rfl, fun hs => ?_⟩
    rw [Instr.labels, filterMap_cons_none (hs.binding hc)]
    rfl
  | jump => exact ⟨[], _, rfl, by simp, .jump rfl rfl, fun _ => rfl⟩
  | ret hb hx =>
    refine ⟨_, _, rfl, hx.plain, .ret rfl, fun hs => ?_⟩
    cases hx with
    | keep => simp [Instr.labels, hs.binding hb, Quad.goals, Quad.targets]
    | convert => rfl
  | leave | funcEnd => exact ⟨[], _, rfl, by simp, .ret rfl, fun _ => labels_defaultReturn _⟩
  | _ => cases hq

end Makes

/-! ## Blocks -/

/-- What stands behind the instructions that those of a block became: nothing when a transfer ends
it, and a jump to the next block otherwise. -/
inductive Tail (f : Func) (b : Block) : List Ir.Instr → Prop
  | transfer {inner : List Quad} {q : Quad} : b.quads = inner ++ [q] →
      (∀ p ∈ inner, p.endsBlock = false) → q.endsBlock = true →
      f.successors b = q.goals.map some → Tail f b []
  | next {fill : List Ir.Instr} {next : Block} : (∀ q ∈ b.quads, q.endsBlock = false) →
      b.down.bind (f.blocks[·]?) = some next → f.successors b = [some next.label] →
      (fill = [] ∨ ∃ k, fill = [filler k]) →
      Tail f b (fill ++ [{ op := .jmp, args := [.label next.label] }])

section Blocks

variable {i : Nat} {b : Block} {seg : Segment} {ret : Ty}

theorem successors_of_blockEnd {inner : List Quad} (h : f.BlockEnd i b inner) :
    (∃ q, b.quads = inner ++ [q] ∧ q.endsBlock = true ∧ f.successors b = q.goals.map some) ∨
      (b.quads = inner ∧ ∃ next, b.down.bind (f.blocks[·]?) = some next ∧
        f.successors b = [some next.label]) := by
  have hlabel : ∀ {n : Int} {j : Nat}, f.IsTarget n j →
      (f.blocks[j]?).map (·.label) = some (labelName n) := by
    intro n j hj
    obtain ⟨bj, hbj, hname⟩ := hj.block
    rw [hbj, ← hname]
    rfl
  unfold Func.successors
  cases h with
  | branch hq hsuccs hj hk =>
    refine .inl ⟨_, hq, rfl, ?_⟩
    simp [hsuccs, hlabel hj, hlabel hk, Quad.goals, Quad.targets, Target.number]
  | jump hq hsuccs hj =>
    refine .inl ⟨_, hq, rfl, ?_⟩
    simp [hsuccs, hlabel hj, Quad.goals, Quad.targets, Target.number]
  | ret hq hsuccs
  | done hq hsuccs => exact .inl ⟨_, hq, rfl, by simp [hsuccs, Quad.goals, Quad.targets]⟩
  | fall hq hdown hsuccs hlt =>
    refine .inr ⟨hq, f.blocks.get ⟨i + 1, hlt⟩, ?_, ?_⟩ <;> simp [hdown, hsuccs, hlt]

theorem plain_visits (hran : ∀ v ∈ vs, v.Ran) (h : ∀ v ∈ vs, v.quad.endsBlock = false) :
    ∀ i ∈ vs.flatMap Visit.instrs, i.op.isTerminator = false := by
  intro i hi
  obtain ⟨v, hv, hi⟩ := mem_flatMap.1 hi
  obtain ⟨_, _, hmakes, -⟩ := (hran v hv).makes
  exact hmakes.plain (h v hv) i hi

theorem plain_before (f : Func) (i : Nat) :
    ∀ j ∈ if i = 0 then opening f else [], j.op.isTerminator = false := by
  split
  · exact opening_plain f
  · simp

theorem tail_of_built (hbuilt : f.Built) (hb : f.blocks[i]? = some b) (hcovers : seg.Covers f i b)
    (hcloses : seg.Closes f ret i b) (hran : ∀ v ∈ seg.visits, v.Ran) : Tail f b seg.tail := by
  obtain ⟨inner, hinner, hend⟩ := hbuilt.block i b hb
  have hclosing := hcloses.tail
  rcases successors_of_blockEnd hend with ⟨q, hquads, hends, hsuccs⟩ | ⟨hquads, next, hnext, hsuccs⟩
  · -- the instructions of the block end in a terminator, so nothing is put behind them
    obtain ⟨vs, w, hvisits, -, hw⟩ := map_eq_append_iff.1 (hcovers.quads.trans hquads)
    obtain ⟨v, rfl, rfl⟩ := map_eq_singleton_iff.1 hw
    obtain ⟨_, _, hmakes, -⟩ := (hran v (by simp [hvisits])).makes
    obtain ⟨js, i', hinstrs, -, hleads, -⟩ := hmakes.ends hends
    have hlast : (if i = 0 then opening f else []) ++ seg.visits.flatMap Visit.instrs =
        (if i = 0 then opening f else []) ++ (vs.flatMap Visit.instrs ++ js) ++ [i'] := by
      simp [hvisits, hinstrs]
    rw [hlast] at hclosing
    generalize hcode : _ ++ [i'] = code, seg.tail = tail at hclosing
    cases hclosing with
    | ended => exact .transfer hquads hinner hends hsuccs
    | empty => simp at hcode
    | «open» hopen =>
      cases (append_inj' hcode rfl).2
      rw [hleads.isTerminator] at hopen
      cases hopen
  · have hplain : ∀ j ∈ (if i = 0 then opening f else []) ++ seg.visits.flatMap Visit.instrs,
        j.op.isTerminator = false := by
      refine forall_mem_append.2 ⟨plain_before f i, plain_visits hran fun v hv => ?_⟩
      exact hinner _ (hquads ▸ hcovers.quads ▸ mem_map_of_mem hv)
    have honward : onward f b ret = { op := .jmp, args := [.label next.label] } := by
      simp [onward, hnext]
    generalize _ ++ seg.visits.flatMap Visit.instrs = code, seg.tail = tail at hclosing hplain
    cases hclosing with
    | ended hi => simp [hplain _ (mem_append_right _ (mem_singleton_self _))] at hi
    | empty k =>
      rw [honward]
      exact Tail.next (hquads ▸ hinner) hnext hsuccs (.inr ⟨k, rfl⟩)
    | «open» =>
      rw [honward]
      exact Tail.next (hquads ▸ hinner) hnext hsuccs (.inl rfl)

/-- The block `b'` ends as `b` does: in its only terminator, which leads to the blocks that follow
`b`. Where no name of the table is found at a label, the terminator has no labels but these. -/
structure Mirrors (T : Table) (f : Flow.Func) (b : Flow.Block) (b' : Ir.Block) : Prop where
  label : b'.label = b.label
  last : ∃ is i ls, b'.instrs = is ++ [i] ∧ (∀ j ∈ is, j.op.isTerminator = false) ∧
    i.op.isTerminator = true ∧ i.LeadsTo ls ∧ f.successors b = ls.map some ∧
    (i.op = .ret ↔ b.succs = []) ∧ (T.LabelFree → i.labels = ls)

theorem mirrors_of_leadsTo {b' : Ir.Block} (hlabel : b'.label = b.label)
    (i : Instr) (hinstrs : b'.instrs = is ++ [i])
    (his : ∀ j ∈ is, j.op.isTerminator = false) (hi : i.LeadsTo ls)
    (hsuccs : f.successors b = ls.map some) (hlabels : T.LabelFree → i.labels = ls) :
    Mirrors T f b b' := by
  refine ⟨hlabel, is, i, ls, hinstrs, his, hi.isTerminator, hi, hsuccs, ?_, hlabels⟩
  have hnil : b.succs = [] ↔ ls = [] := by
    rw [← map_eq_nil_iff (f := fun j => (f.blocks[j]?).map (·.label)),
      ← map_eq_nil_iff (l := ls) (f := some), ← hsuccs]
    rfl
  rw [hnil]
  cases hi with
  | ret hop => simp [hop]
  | jump hop | branch hop => simp [hop]

theorem mirrors_of_built (hbuilt : f.Built) (hb : f.blocks[i]? = some b)
    (hcovers : seg.Covers f i b) (hcloses : seg.Closes f ret i b) (hran : ∀ v ∈ seg.visits, v.Ran)
    (hfree : T.LabelFree → ∀ v ∈ seg.visits, LabelFree v.before) : Mirrors T f b seg.block := by
  have hinstrs := hcovers.instrs
  have htail := tail_of_built hbuilt hb hcovers hcloses hran
  generalize seg.tail = tail at htail hinstrs
  cases htail with
  | transfer hquads hinner hends hsuccs =>
    obtain ⟨vs, w, hvisits, hvs, hw⟩ := map_eq_append_iff.1 (hcovers.quads.trans hquads)
    obtain ⟨v, rfl, rfl⟩ := map_eq_singleton_iff.1 hw
    have hv : v ∈ seg.visits := by simp [hvisits]
    obtain ⟨_, _, hmakes, -⟩ := (hran v hv).makes
    obtain ⟨js, i', hinstrs', hjs, hleads, hlabels⟩ := hmakes.ends hends
    have hplain : ∀ j ∈ vs.flatMap Visit.instrs, j.op.isTerminator = false :=
      plain_visits (fun v hv => hran v (by simp [hvisits, hv]))
        fun v hv => hinner _ (hvs ▸ mem_map_of_mem hv)
    have hcode : seg.block.instrs = (if i = 0 then opening f else []) ++
        (vs.flatMap Visit.instrs ++ js) ++ [i'] := by simp [hinstrs, hvisits, hinstrs']
    exact mirrors_of_leadsTo hcloses.label i' hcode (forall_mem_append.2
      ⟨plain_before f i, forall_mem_append.2 ⟨hplain, hjs⟩⟩) hleads hsuccs
      fun hT => hlabels (hfree hT v hv)
  | @next fill next hquads hnext hsuccs hfill =>
    have hplain : ∀ j ∈ seg.visits.flatMap Visit.instrs, j.op.isTerminator = false :=
      plain_visits hran fun v hv => hquads _ (hcovers.quads ▸ mem_map_of_mem hv)
    have hfilled : ∀ j ∈ fill, j.op.isTerminator = false := by
      rcases hfill with rfl | ⟨k, rfl⟩ <;> simp [filler, Ir.Op.isTerminator]
    rw [← append_assoc, ← append_assoc] at hinstrs
    refine mirrors_of_leadsTo hcloses.label { op := .jmp, args := [.label next.label] } hinstrs
      ?_ (.jump rfl rfl) hsuccs fun _ => rfl
    exact forall_mem_append.2 ⟨forall_mem_append.2 ⟨plain_before f i, hplain⟩, hfilled⟩

end Blocks

/-! ## Functions and programs -/

theorem Trail.Leads.mirrors {c : Trail} (h : c.Leads f s s1) (hbuilt : f.Built)
    (hT : T.LabelFree → s.table.LabelFree) : Forall₂ (Mirrors T f) f.blocks c.func.blocks := by
  have hfree : T.LabelFree → ∀ v ∈ c.visits, LabelFree v.before := fun hfree =>
    h.of.run.labelFree ⟨(lasting_labelFree.leads h (hT hfree)).1, by simp [h.of.bindings]⟩
  rw [h.of.func, forall₂_map_right_iff]
  refine forall₂_iff_get.2 ⟨by simpa using h.closes.length_eq, fun i hi hi' => ?_⟩
  have hb : f.blocks[i]? = some (f.blocks.get ⟨i, hi⟩) := getElem?_eq_getElem hi
  obtain ⟨seg, hseg, hcovers, hcloses⟩ := h.segment hb
  obtain ⟨_, rfl⟩ := List.getElem?_eq_some_iff.1 hseg
  have hvisits : ∀ v ∈ c.segments[i].visits, v ∈ c.visits :=
    fun v hv => mem_flatMap.2 ⟨_, getElem_mem hi', hv⟩
  exact mirrors_of_built hbuilt hb hcovers hcloses (fun v hv => h.of.run.ran v (hvisits v hv))
    fun hT v hv => hfree hT v (hvisits v hv)

theorem Trails.mirrors {fs : List Func} {cs : List Trail} (h : Trails s fs cs s1)
    (hbuilt : ∀ f ∈ fs, f.Built) (hT : T.LabelFree → s.table.LabelFree) :
    Forall₂ (fun f c => c.func.name = f.name ∧ Forall₂ (Mirrors T f) f.blocks c.func.blocks)
      fs cs := by
  obtain ⟨hall, -⟩ := h.invariant (I := fun t => T.LabelFree → t.table.LabelFree)
    (fun _ _ _ _ _ hc ht hT => (lasting_labelFree.leads hc (ht hT)).2.2) hT
  refine ((forall₂_and_left (p := (· ∈ fs)) _ _).2 ⟨fun _ h => h, hall⟩).imp ?_
  rintro f c ⟨hf, t, t', hleads, ht⟩
  exact ⟨by rw [hleads.of.func], hleads.mirrors (hbuilt f hf) ht⟩

/-- Lowering keeps the flow of a graph that was built. -/
theorem lower_keeps_flow {code : List Quad} {g : Flow.Graph} (hg : Flow.build code = .ok g)
    {p : Ir.Program} (h : lower g s = .ok p s₁) :
    List.Forall₂ (fun f f' => f'.name = f.name ∧
      List.Forall₂ (Mirrors s.table f) f.blocks f'.blocks) g.funcs p.funcs := by
  obtain ⟨cs, htrails, rfl⟩ := exists_trails h
  rw [List.forall₂_map_right_iff]
  exact htrails.mirrors (Flow.built_of_build hg) (labelFree_declaredTable g)

/-- An entry that branches, a block without instructions, one with a line mark only, and a return
with the end of the function behind it. -/
def hollow : List Quad :=
  [.funcBegin "f" .int, .formalDecl ⟨"n", .int, 4⟩, .ref ⟨1⟩ .param "n" 0, .load ⟨2⟩ ⟨1⟩ .int,
    .condJump ⟨2⟩ (.label 1), .jump (.label 3), .label 1, .label 2, .stmtBegin 7, .label 3,
    .ret (some ⟨2⟩) .int, .funcEnd]

def hollowGraph : Flow.Graph where
  globals := []
  funcs :=
    [⟨"f", .int, [⟨"n", .int, 4⟩], [],
      [⟨"entry", [.ref ⟨1⟩ .param "n" 0, .load ⟨2⟩ ⟨1⟩ .int, .branch ⟨2⟩ (.label 1) (.label 3)],
        [1, 3], some 1⟩,
      ⟨"L1", [], [2], some 2⟩, ⟨"L2", [.stmtBegin 7], [3], some 3⟩,
      ⟨"L3", [.ret (some ⟨2⟩) .int], [], some 4⟩, ⟨"bb1", [.funcEnd], [], none⟩]⟩]

theorem hollow_lowers : Flow.build hollow = .ok hollowGraph ∧
    ∃ p s', lower hollowGraph (.new {} .empty ⟨none, []⟩ "f") = .ok p s' := by
  exact ⟨by decide +kernel, exists_ok_of_isSome (by cbv)⟩

theorem hollow_keeps_flow : Flow.build hollow = .ok hollowGraph ∧
    ∃ p s', lower hollowGraph (.new {} .empty ⟨none, []⟩ "f") = .ok p s' ∧
      List.Forall₂ (fun f f' => f'.name = f.name ∧
        List.Forall₂ (Mirrors .empty f) f.blocks f'.blocks) hollowGraph.funcs p.funcs := by
  obtain ⟨hbuild, p, s', hl⟩ := hollow_lowers
  exact ⟨hbuild, p, s', hl, lower_keeps_flow hbuild hl⟩

end Lowering

end Quadruple
