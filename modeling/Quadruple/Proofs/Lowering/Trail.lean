import Quadruple.Proofs.Flow.Integer
import Quadruple.Proofs.Lowering.Names

/-!
# The trail of lowering

Lowering comes to the instructions of a function one after the other, in the order of the text. The
`Trail` of a function keeps for each of them the state in front of it and the one behind it, and for
each block which of its instructions came from where.

Main statements: `exists_trails`; `Runs.invariant` and `Lasting.trails`, by which what the single
steps keep is kept by all of lowering; `Runs.bound`, by which a temporary is bound to what the last
definition so far gave it; and `Runs.errors`.
-/

namespace Quadruple

open List

namespace Flow.Func

/-- The last definition of a temporary in the text in front of a point. -/
def latest? (f : Func) (p : Point) (t : Temp) : Option (Point × Quad) :=
  (f.points.takeWhile (·.1 ≠ p)).reverse.find? fun x => x.2.dst? = some t

theorem nodup_points (f : Func) : (f.points.map Prod.fst).Nodup := by
  unfold points
  rw [map_flatMap]
  refine nodup_flatMap.2 ⟨fun b _ => ?_, ?_⟩
  · have hmap : ((b.1.quads.zipIdx.map fun q => (Point.mk b.2 q.2, q.1)).map Prod.fst) =
        (b.1.quads.zipIdx.map Prod.snd).map (Point.mk b.2) := by
      rw [map_map, map_map]
      rfl
    rw [hmap]
    exact (nodup_zipIdx_map_snd b.1.quads).map fun k l h => (Point.mk.inj h).2
  · have hblocks := nodup_zipIdx_map_snd f.blocks
    refine (pairwise_map.1 hblocks).imp fun {b c} hne => ?_
    intro p hp hp'
    simp only [map_map, mem_map, Function.comp_apply] at hp hp'
    obtain ⟨x, -, rfl⟩ := hp
    obtain ⟨y, -, hy⟩ := hp'
    exact hne (Point.mk.inj hy).1.symm

end Flow.Func

namespace Lowering

open Quadruple.Flow (Func Block Point)
open Ir (Instr Ty)
open Symbols (Entry EntryId Table)

/-! ## Visits -/

/-- An instruction of a function, with the states before and behind its lowering. -/
structure Visit where
  point : Point
  quad : Quad
  before : State
  after : State

namespace Visit

def instrs (v : Visit) : List Ir.Instr :=
  (v.after.revInstrs.take (v.after.revInstrs.length - v.before.revInstrs.length)).reverse

def given (v : Visit) : Option Binding := v.quad.dst?.bind v.after.bound

def errors (v : Visit) : List Diagnostic := v.after.errors.drop v.before.errors.length

def Ran (v : Visit) : Prop := lowerQuad v.quad v.before = .ok () v.after

end Visit

def State.Resumed (s s' : State) : Prop :=
  s' = { s with revInstrs := s'.revInstrs, fillers := s'.fillers }

inductive Runs : State → List Visit → State → Prop
  | nil {s s' : State} : s.Resumed s' → Runs s [] s'
  | cons {s s' : State} {v : Visit} {vs : List Visit} :
      s.Resumed v.before → v.Ran → Runs v.after vs s' → Runs s (v :: vs) s'

def lastDefinition (vs : List Visit) (t : Temp) : Option Visit :=
  vs.reverse.find? fun v => v.quad.dst? = some t

/-! ## What a visit does -/

variable {t : Temp} {b : Block} {i : Nat} {s s' : State} {v : Visit} {f : Func} {q : Quad}

section Makes

variable {is : List Instr} {new : Option (Temp × Binding)} {ns : List Notice}

theorem Makes.dst (h : Makes s q is new ns) : new.map Prod.fst = q.dst? := by cases h <;> rfl

theorem Makes.bound_operand (h : Makes s q is new ns) (ht : t ∈ q.operands) :
    ∃ b, s.bound t = some b := by
  have hone : ∀ {x : Temp} {b : Binding}, s.bound x = some b → t = x →
      ∃ b, s.bound t = some b := by
    rintro x b hb rfl
    exact ⟨b, hb⟩
  have hargs : ∀ {callee : Temp} {args : List Temp} {ty : Ty} {bs : List Binding},
      Invokes s callee args ty bs ns → t ∈ callee :: args → ∃ b, s.bound t = some b := by
    intro callee args ty bs hi ht
    obtain ⟨c, name, hc, -⟩ := hi.callee
    rcases mem_cons.1 ht with rfl | ht
    · exact ⟨c, hc⟩
    · obtain ⟨b, -, hb⟩ := exists_of_forall₂ hi.args.flip ht
      exact ⟨b, hb⟩
  cases h with
  | array ha | load ha | neg ha | not ha | same ha | cast ha | arg ha | branch ha | ret ha =>
    exact hone ha (by simpa [Quad.operands] using ht)
  | store ha _ hb | index _ ha _ hb | binary ha hb =>
    simp only [Quad.operands, mem_cons, not_mem_nil, or_false] at ht
    exact ht.elim (hone ha) (hone hb)
  | call hi | procedure hi => exact hargs hi ht
  | mark | float | int | string | ref | jump | leave | funcEnd => cases ht

theorem Makes.result (h : Makes s q is new ns) {i : Instr} (hi : i ∈ is) :
    i.result = none ∨ (∃ k : Nat, i.result = some (.temp "x" k)) ∨
      ∃ t, q.dst? = some t ∧ i.result = some (tempValue t) := by
  have hcoerced : ∀ {b : Binding} {want : Ty} {is : List Instr} {x : Ir.Value},
      Coerced b want is x → i ∈ is → ∃ k : Nat, i.result = some (.temp "x" k) := by
    intro b want is x hc hi
    cases hc with
    | keep => cases hi
    | convert k => exact ⟨k, by rw [mem_singleton.1 hi]⟩
  have hwidened : ∀ {x y : Ir.Value} {is : List Instr},
      Widened x is y → i ∈ is → ∃ k : Nat, i.result = some (.temp "x" k) := by
    intro x y is hw hi
    cases hw with
    | keep => cases hi
    | extend k => exact ⟨k, by rw [mem_singleton.1 hi]⟩
  have hret : ∀ ret : Ty, i ∈ [defaultReturn ret] → i.result = none := by
    intro ret hi
    rw [mem_singleton.1 hi]
    rfl
  cases h with
  | mark | float | int | string | ref | array | same | arg => cases hi
  | load | cast | call =>
    rw [mem_singleton.1 hi]
    exact .inr (.inr ⟨_, rfl, rfl⟩)
  | procedure | branch | jump =>
    rw [mem_singleton.1 hi]
    exact .inl rfl
  | leave | funcEnd => exact .inl (hret _ hi)
  | store _ _ _ hc | ret _ hc =>
    rcases mem_append.1 hi with hi | hi
    · exact .inr (.inl (hcoerced hc hi))
    · rw [mem_singleton.1 hi]
      exact .inl rfl
  | neg _ hc | not _ hc =>
    rcases mem_append.1 hi with hi | hi
    · exact .inr (.inl (hcoerced hc hi))
    · rw [mem_singleton.1 hi]
      exact .inr (.inr ⟨_, rfl, rfl⟩)
  | binary _ _ _ hc hc' =>
    rcases mem_append.1 hi with hi | hi
    · exact .inr (.inl ((mem_append.1 hi).elim (hcoerced hc) (hcoerced hc')))
    · rw [mem_singleton.1 hi]
      exact .inr (.inr ⟨_, rfl, rfl⟩)
  | index k _ _ _ hw =>
    rcases mem_append.1 hi with hi | hi
    · exact .inr (.inl (hwidened hw hi))
    · rcases mem_cons.1 hi with rfl | hi
      · exact .inr (.inl ⟨k, rfl⟩)
      · rw [mem_singleton.1 hi]
        exact .inr (.inr ⟨_, rfl, rfl⟩)

end Makes

theorem Visit.Ran.makes (h : v.Ran) : ∃ new ns,
    Makes v.before v.quad v.instrs new ns ∧ After v.before v.after v.quad v.instrs new ns ∧
      v.given = new.map Prod.snd ∧ v.errors = ns.map v.before.complaint := by
  obtain ⟨is, new, ns, hmakes, hafter⟩ := ensures_makes v.quad () v.after h
  have hinstrs : v.instrs = is := by
    unfold Visit.instrs
    rw [hafter.instrs, length_append, Nat.add_sub_cancel, take_left, reverse_reverse]
  have hgiven : v.given = new.map Prod.snd := by
    unfold Visit.given State.bound
    rw [hafter.bindings, ← hmakes.dst]
    cases new with
    | none => rfl
    | some x =>
      obtain ⟨u, b⟩ := x
      simp
  have herrors : v.errors = ns.map v.before.complaint := by
    unfold Visit.errors
    rw [hafter.reported.errors, drop_left]
  exact ⟨new, ns, hinstrs ▸ hmakes, hinstrs ▸ hafter, hgiven, herrors⟩

theorem Visit.Ran.bound (h : v.Ran) (t : Temp) :
    v.after.bound t = if v.quad.dst? = some t then v.given else v.before.bound t := by
  obtain ⟨new, ns, hmakes, hafter, hgiven, -⟩ := h.makes
  rw [hgiven, ← hmakes.dst, State.bound, hafter.bindings]
  cases new with
  | none => rfl
  | some x =>
    obtain ⟨u, b⟩ := x
    by_cases hu : u = t
    · simp [hu]
    · simp [lookup_cons, hu, beq_false_of_ne (Ne.symm hu), State.bound]

theorem Visit.Ran.given_isSome (h : v.Ran) (ht : v.quad.dst? = some t) : ∃ b, v.given = some b := by
  obtain ⟨new, ns, hmakes, -, hgiven, -⟩ := h.makes
  rw [← hmakes.dst] at ht
  obtain ⟨x, hx, -⟩ := Option.map_eq_some_iff.1 ht
  exact ⟨x.2, by rw [hgiven, hx]; rfl⟩

/-! ## Visits one after the other -/

namespace State.Resumed

variable {s'' : State}

theorem refl (s : State) : s.Resumed s := rfl

theorem trans (h : s.Resumed s') (h' : s'.Resumed s'') : s.Resumed s'' := by
  unfold State.Resumed at *
  rw [h', h]

theorem unmoved (h : s.Resumed s') : Unmoved s s' := by
  rw [h]
  exact .of_table rfl rfl

theorem bound (h : s.Resumed s') : s'.bound = s.bound := by
  rw [h]
  rfl

theorem errors (h : s.Resumed s') : s'.errors = s.errors := by
  rw [h]
  rfl

theorem conversions (h : s.Resumed s') : s'.conversions = s.conversions := by rw [h]

end State.Resumed

theorem lastDefinition_cons (v : Visit) (vs : List Visit) (t : Temp) :
    lastDefinition (v :: vs) t =
      (lastDefinition vs t).or (if v.quad.dst? = some t then some v else none) := by
  unfold lastDefinition
  rw [reverse_cons, find?_append, find?_singleton]
  simp

theorem lastDefinition_spec {vs : List Visit} {e : Visit} (h : lastDefinition vs t = some e) :
    e ∈ vs ∧ e.quad.dst? = some t := by
  unfold lastDefinition at h
  have hdst := find?_some h
  exact ⟨mem_reverse.1 (mem_of_find?_eq_some h), of_decide_eq_true hdst⟩

variable {I : State → Prop} {ret : Ty} {g : Flow.Graph} {p : Ir.Program}

namespace Runs

variable {s1 : State} {vs ws : List Visit}

theorem of_resumed (h : s.Resumed s1) (hrun : Runs s1 vs s') : Runs s vs s' := by
  cases hrun with
  | nil h' => exact .nil (h.trans h')
  | cons h' hran hrest => exact .cons (h.trans h') hran hrest

theorem append (h : Runs s vs s1) (h' : Runs s1 ws s') : Runs s (vs ++ ws) s' := by
  induction h with
  | nil hr => exact h'.of_resumed hr
  | cons hr hran _ ih => exact .cons hr hran (ih h')

theorem split (h : Runs s (vs ++ ws) s') : ∃ s1, Runs s vs s1 ∧ Runs s1 ws s' := by
  induction vs generalizing s with
  | nil => exact ⟨s, .nil (.refl s), h⟩
  | cons v vs ih =>
    cases h with
    | cons hr hran hrest =>
      obtain ⟨s1, h1, h2⟩ := ih hrest
      exact ⟨s1, .cons hr hran h1, h2⟩

section

variable (h : Runs s vs s')
include h

theorem ran : ∀ v ∈ vs, v.Ran := by
  induction h with
  | nil => simp
  | cons _ hran _ ih => exact forall_mem_cons.2 ⟨hran, ih⟩

theorem invariant (hresume : ∀ t t', State.Resumed t t' → I t → I t')
    (hvisit : ∀ v ∈ vs, v.Ran → I v.before → I v.after) (hs : I s) :
    (∀ v ∈ vs, I v.before) ∧ I s' := by
  induction h with
  | nil hr => exact ⟨by simp, hresume _ _ hr hs⟩
  | cons hr hran _ ih =>
    obtain ⟨hv, hvs⟩ := forall_mem_cons.1 hvisit
    have hbefore := hresume _ _ hr hs
    obtain ⟨hall, hlast⟩ := ih hvs (hv hran hbefore)
    exact ⟨forall_mem_cons.2 ⟨hbefore, hall⟩, hlast⟩

theorem unmoved : Unmoved s s' := by
  induction h with
  | nil hr => exact hr.unmoved
  | cons hr hran _ ih =>
    obtain ⟨_, _, _, hafter, -⟩ := hran.makes
    exact (hr.unmoved.trans hafter.unmoved).trans ih

theorem visited (hv : v ∈ vs) : ∃ ws zs, vs = ws ++ v :: zs ∧
    Runs s ws v.before := by
  obtain ⟨ws, zs, rfl⟩ := append_of_mem hv
  obtain ⟨s1, h1, h2⟩ := h.split
  cases h2 with
  | cons hr _ _ =>
    have hws := h1.append (.nil hr)
    rw [append_nil] at hws
    exact ⟨ws, zs, rfl, hws⟩

theorem bound (t : Temp) : s'.bound t = match lastDefinition vs t with
    | some e => e.given
    | none => s.bound t := by
  induction h with
  | nil hr => rw [hr.bound]; rfl
  | @cons s s' v vs hr hran _ ih =>
    rw [ih, lastDefinition_cons]
    cases lastDefinition vs t with
    | some e => rfl
    | none =>
      rw [Option.none_or, hran.bound t, hr.bound]
      by_cases hd : v.quad.dst? = some t
      · rw [if_pos hd, if_pos hd]
      · rw [if_neg hd, if_neg hd]

theorem errors : s'.errors = s.errors ++ vs.flatMap Visit.errors := by
  induction h with
  | nil hr => rw [hr.errors, flatMap_nil, append_nil]
  | @cons s s' v vs hr hran _ ih =>
    obtain ⟨_, ns, _, hafter, -, herrors⟩ := hran.makes
    rw [ih, hafter.reported.errors, hr.errors, flatMap_cons, herrors, append_assoc]

theorem numbered : Numbered s.conversions (vs.flatMap Visit.instrs) s'.conversions := by
  induction h with
  | nil hr =>
    rw [hr.conversions]
    exact .nil
  | cons hr hran _ ih =>
    obtain ⟨_, _, _, hafter, -⟩ := hran.makes
    rw [← hr.conversions, flatMap_cons]
    exact hafter.numbers.append ih

end

end Runs

/-! ## Blocks -/

def slotInstr (d : Decl) : Ir.Instr :=
  { op := .alloc, ty := .ptr, result := some (.temp d.name (-1)),
    args := [.const (max d.width d.tag.base.size)], align := d.tag.base.size }

/-- The instruction that puts an argument into the slot of its formal. -/
def argInstr (p : Decl × Nat) : Ir.Instr :=
  { op := .store, ty := machineTy p.1.tag, args := [.temp "arg" p.2, .temp p.1.name (-1)] }

def formalInstrs (p : Decl × Nat) : List Ir.Instr := [slotInstr p.1, argInstr p]

def formalParam (p : Decl × Nat) : Ir.Param := ⟨p.1.name, machineTy p.1.tag, .temp "arg" p.2⟩

def opening (f : Func) : List Ir.Instr :=
  f.formals.zipIdx.flatMap formalInstrs ++ f.locals.map slotInstr

theorem mem_opening {i : Instr} (h : i ∈ opening f) :
    (∃ d, i = slotInstr d) ∨ ∃ p ∈ f.formals.zipIdx, i = argInstr p := by
  simp only [opening, formalInstrs, mem_append, mem_flatMap, mem_map, mem_cons,
    not_mem_nil, or_false] at h
  rcases h with ⟨p, hp, rfl | rfl⟩ | ⟨d, -, rfl⟩
  · exact .inl ⟨p.1, rfl⟩
  · exact .inr ⟨p, hp, rfl⟩
  · exact .inl ⟨d, rfl⟩

theorem opening_plain (f : Func) : ∀ i ∈ opening f, i.op.isTerminator = false := by
  intro i hi
  rcases mem_opening hi with ⟨d, rfl⟩ | ⟨p, -, rfl⟩ <;> rfl

def filler (k : Nat) : Ir.Instr :=
  { op := .copy, ty := .word, result := some (.temp "noop" k), args := [.const 0] }

/-- The instruction by which a block goes on to the next one, or returns when there is none. -/
def onward (f : Func) (b : Block) (ret : Ir.Ty) : Ir.Instr :=
  match b.down.bind (f.blocks[·]?) with
  | some next => { op := .jmp, args := [.label next.label] }
  | none => defaultReturn ret

/-- What is put behind the instructions of a block: nothing when the last of them ends it, and
otherwise the way on, with a filler in front if there are none. -/
inductive Closing (f : Func) (b : Block) (ret : Ir.Ty) : List Ir.Instr → List Ir.Instr → Prop
  | ended {is : List Ir.Instr} {i : Ir.Instr} : i.op.isTerminator = true →
      Closing f b ret (is ++ [i]) []
  | empty (k : Nat) : Closing f b ret [] [filler k, onward f b ret]
  | open {is : List Ir.Instr} {i : Ir.Instr} : i.op.isTerminator = false →
      Closing f b ret (is ++ [i]) [onward f b ret]

def Barren (i : Ir.Instr) : Prop := i.result = none ∨ ∃ k : Nat, i.result = some (.temp "noop" k)

theorem barren_onward (f : Func) (b : Block) (ret : Ty) : Barren (onward f b ret) := by
  unfold onward
  split <;> exact .inl rfl

theorem Closing.barren {is tail : List Instr}
    (h : Closing f b ret is tail) : ∀ i ∈ tail, Barren i := by
  have honward := barren_onward f b ret
  cases h with
  | ended => simp
  | empty k => simpa using ⟨.inr ⟨k, rfl⟩, honward⟩
  | «open» => simpa using honward

/-- What became of a block: which visits its instructions came from, and the ones behind them. -/
structure Segment where
  block : Ir.Block
  visits : List Visit
  tail : List Ir.Instr

structure Segment.Covers (f : Func) (i : Nat) (b : Block) (seg : Segment) : Prop where
  visits : seg.visits.map (fun v => (v.point, v.quad)) = b.quads.zipIdx.map fun q => (⟨i, q.2⟩, q.1)
  instrs : seg.block.instrs =
    (if i = 0 then opening f else []) ++ (seg.visits.flatMap Visit.instrs ++ seg.tail)
  tail : ∀ i ∈ seg.tail, Barren i

/-- How the segment ends, in a function that returns values of type `ret`. -/
structure Segment.Closes (f : Func) (ret : Ir.Ty) (i : Nat) (b : Block) (seg : Segment) : Prop where
  label : seg.block.label = b.label
  tail : Closing f b ret ((if i = 0 then opening f else []) ++ seg.visits.flatMap Visit.instrs)
    seg.tail

variable {seg : Segment}

theorem Segment.Covers.quads (h : seg.Covers f i b) : seg.visits.map (·.quad) = b.quads := by
  have hquads := congrArg (map Prod.snd) h.visits
  rw [map_map, map_map] at hquads
  exact hquads.trans (zipIdx_map_fst 0 b.quads)

theorem Segment.Covers.point (h : seg.Covers f i b) {k : Nat}
    (hv : seg.visits[k]? = some v) : v.point = ⟨i, k⟩ := by
  have hpoint := congrArg (fun l => l[k]?) h.visits
  simp only [getElem?_map, hv, Option.map_some] at hpoint
  obtain ⟨x, hx, heq⟩ := Option.map_eq_some_iff.1 hpoint.symm
  have hk : x.2 = k := by
    obtain ⟨_, rfl⟩ := List.getElem?_eq_some_iff.1 hx
    simp
  rw [← (Prod.mk.inj heq).1, hk]

theorem ensures_runs_quads (i : Nat) (qs : List Quad) (k : Nat) :
    Ensures (qs.forM lowerQuad) s fun _ s' => ∃ vs, Runs s vs s' ∧
      vs.map (fun v => (v.point, v.quad)) = (qs.zipIdx k).map (fun q => (⟨i, q.2⟩, q.1)) ∧
      s'.revInstrs = (vs.flatMap Visit.instrs).reverse ++ s.revInstrs := by
  induction qs generalizing k s with
  | nil => exact ensures_pure.2 ⟨[], .nil (.refl s), rfl, rfl⟩
  | cons q qs ih =>
    refine ensures_bind.2 fun _ s1 hq => (ih (k + 1)).mono ?_
    rintro _ s2 ⟨vs, hrun, hpoints, hrev⟩
    have hran : Visit.Ran ⟨⟨i, k⟩, q, s, s1⟩ := hq
    obtain ⟨_, _, _, hafter, -⟩ := hran.makes
    refine ⟨⟨⟨i, k⟩, q, s, s1⟩ :: vs, .cons (.refl s) hran hrun, ?_, ?_⟩
    · rw [map_cons, hpoints, zipIdx_cons, map_cons]
    · rw [hrev, hafter.instrs, flatMap_cons, reverse_append, append_assoc]

theorem ensures_closing (f : Func) (b : Block) :
    Ensures (do fillBlock; closeBlock f b; takeBlock b.label) s fun h s' => ∃ tail,
      Closing f b s.ret s.revInstrs.reverse tail ∧ h = ⟨b.label, s.revInstrs.reverse ++ tail⟩ ∧
        s.Resumed s' ∧ s'.revInstrs = [] := by
  have honward : ∀ t : State, Ensures (match b.down.bind (f.blocks[·]?) with
      | some next => addInstr { op := .jmp, args := [.label next.label] }
      | none => addInstr (defaultReturn s.ret)) t fun _ t' =>
        t' = { t with revInstrs := onward f b s.ret :: t.revInstrs } := by
    intro t
    unfold onward
    cases b.down.bind (f.blocks[·]?) <;> exact ensures_addInstr.2 rfl
  simp only [fillBlock, closeBlock, takeBlock, ensures_bind, ensures_get, State.isTerminated]
  cases hrev : s.revInstrs with
  | nil =>
    simp only [isEmpty_nil, if_true, ensures_bind, ensures_set, ensures_addInstr,
      show Ir.Op.copy.isTerminator = false from rfl, Bool.not_false]
    refine Ensures.mono (honward _) ?_
    rintro _ t rfl
    exact ensures_modifyGet.2 ⟨_, .empty (s.fillers + 1), rfl, rfl, rfl⟩
  | cons i is =>
    simp only [isEmpty_cons, Bool.false_eq_true, if_false, ensures_pure, hrev]
    rw [reverse_cons]
    cases hi : i.op.isTerminator with
    | true =>
      simp only [Bool.not_true, Bool.false_eq_true, if_false, ensures_pure]
      exact ensures_modifyGet.2 ⟨[], .ended hi, by simp [hrev], rfl, rfl⟩
    | false =>
      simp only [Bool.not_false, if_true]
      refine Ensures.mono (honward _) ?_
      rintro _ t rfl
      exact ensures_modifyGet.2 ⟨_, .open hi, by simp [hrev], rfl, rfl⟩

theorem ensures_segment (f : Func) (i : Nat) (b : Block)
    (hs : s.revInstrs.reverse = if i = 0 then opening f else []) :
    Ensures (lowerBlock f b) s fun h s' => ∃ seg : Segment, seg.block = h ∧ seg.Covers f i b ∧
      seg.Closes f s.ret i b ∧ Runs s seg.visits s' ∧ s'.revInstrs = [] := by
  simp only [lowerBlock]
  by_cases hend : b.isEndOnly = true
  · rw [if_pos hend]
    have hquads : b.quads = [.funcEnd] := by
      unfold Block.isEndOnly at hend
      split at hend
      · assumption
      · cases hend
    simp only [ensures_bind, ensures_get, ensures_addInstr, takeBlock, ensures_modifyGet]
    -- the end of a function is lowered as any other instruction
    let v : Visit := ⟨⟨i, 0⟩, .funcEnd, s,
      { s with revInstrs := defaultReturn s.ret :: s.revInstrs }⟩
    have hran : v.Ran := rfl
    have hinstrs : v.instrs = [defaultReturn s.ret] := by simp [Visit.instrs, v]
    refine ⟨⟨_, [v], []⟩, rfl, ⟨by rw [hquads]; rfl, ?_, by simp⟩, ⟨rfl, ?_⟩, ?_, trivial⟩
    · rw [← hs]
      simp [hinstrs]
    · simpa [hinstrs] using .ended rfl
    · exact .cons (.refl s) hran (.nil rfl)
  · rw [if_neg hend]
    refine ensures_bind.2 ((ensures_runs_quads i b.quads 0).mono ?_)
    rintro _ s1 ⟨vs, hrun, hpoints, hrev⟩
    have hcode : s1.revInstrs.reverse =
        (if i = 0 then opening f else []) ++ vs.flatMap Visit.instrs := by
      rw [hrev, ← hs]
      simp
    refine (ensures_closing f b).mono ?_
    rintro _ s2 ⟨tail, htail, rfl, hres, hnil⟩
    rw [hcode, hrun.unmoved.ret] at htail
    refine ⟨⟨_, vs, tail⟩, rfl, ⟨hpoints, ?_, htail.barren⟩, ⟨rfl, htail⟩, ?_, hnil⟩
    · rw [hcode, append_assoc]
    · have h := hrun.append (.nil hres)
      rwa [append_nil] at h

theorem ensures_segments (f : Func) (bs : List Block) (k : Nat) (hret : s.ret = ret)
    (hs : s.revInstrs.reverse = if k = 0 then opening f else []) :
    Ensures (bs.mapM (lowerBlock f)) s fun hs s' => ∃ segs : List Segment,
      segs.map (·.block) = hs ∧ Runs s (segs.flatMap (·.visits)) s' ∧
        Forall₂ (fun b seg => Segment.Covers f b.2 b.1 seg ∧ seg.Closes f ret b.2 b.1)
          (bs.zipIdx k) segs := by
  induction bs generalizing k s with
  | nil => exact ensures_pure.2 ⟨[], rfl, .nil (.refl s), .nil⟩
  | cons b bs ih =>
    rw [mapM_cons]
    refine ensures_bind.2 ((ensures_segment f k b hs).mono ?_)
    rintro _ s1 ⟨seg, rfl, hcovers, hcloses, hrun, hnil⟩
    refine ensures_bind.2 ((ih (k + 1) (hrun.unmoved.ret.trans hret) (by simp [hnil])).mono ?_)
    rintro _ s2 ⟨segs, rfl, hrun', hall⟩
    exact ensures_pure.2 ⟨seg :: segs, rfl, hrun.append hrun', .cons ⟨hcovers, hret ▸ hcloses⟩ hall⟩

/-! ## Functions -/

/-- The lowering of a function: what came out, and what became of its blocks, from the state at the
first instruction to that behind the last. -/
structure Trail where
  func : Ir.Func
  first : State
  segments : List Segment
  last : State

variable {c : Trail}

namespace Trail

def visits (c : Trail) : List Visit := c.segments.flatMap (·.visits)

/-- The instructions that control passes from one point to the next. -/
def code (c : Trail) (p : Point) : List Ir.Instr :=
  match c.segments[p.block]? with
  | none => []
  | some seg =>
    match seg.visits[p.pos]? with
    | some v => v.instrs
    | none => if p.pos = seg.visits.length then seg.tail else []

structure Of (c : Trail) (f : Func) : Prop where
  run : Runs c.first c.visits c.last
  bindings : c.first.bindings = []
  ret : c.first.ret = machineTy f.tag.base
  func : c.func = ⟨f.name, f.formals.zipIdx.map formalParam, machineTy f.tag.base,
    c.segments.map (·.block)⟩
  segments : Forall₂ (fun b seg => Segment.Covers f b.2 b.1 seg) f.blocks.zipIdx c.segments

namespace Of

theorem points (h : c.Of f) : c.visits.map (fun v => (v.point, v.quad)) = f.points := by
  unfold Trail.visits Func.points
  have hall := h.segments
  generalize f.blocks.zipIdx = bs, c.segments = segs at hall ⊢
  induction hall with
  | nil => rfl
  | cons hcovers _ ih => rw [flatMap_cons, map_append, flatMap_cons, hcovers.visits, ih]

theorem quadAt? (h : c.Of f) (hv : v ∈ c.visits) : f.quadAt? v.point = some v.quad :=
  Func.mem_points.1 (h.points ▸ mem_map_of_mem hv)

theorem covers (h : c.Of f) (hseg : c.segments[i]? = some seg) :
    ∃ b, f.blocks[i]? = some b ∧ seg.Covers f i b := by
  obtain ⟨hi, rfl⟩ := List.getElem?_eq_some_iff.1 hseg
  have hlen : i < f.blocks.zipIdx.length := h.segments.length_eq ▸ hi
  have hcovers := (forall₂_iff_get.1 h.segments).2 i hlen hi
  simp only [get_eq_getElem, getElem_zipIdx, zero_add] at hcovers
  exact ⟨_, getElem?_eq_getElem (by simpa using hlen), hcovers⟩

theorem exists_visit (h : c.Of f) {p : Point} (hq : f.quadAt? p = some q) :
    ∃ v ∈ c.visits, v.point = p ∧ v.quad = q := by
  have hmem := Func.mem_points.2 hq
  rw [← h.points] at hmem
  obtain ⟨v, hv, heq⟩ := mem_map.1 hmem
  exact ⟨v, hv, Prod.mk.inj heq⟩

variable {vs ws : List Visit}

theorem point_ne (h : c.Of f) (hv : c.visits = vs ++ v :: ws) : ∀ e ∈ vs, e.point ≠ v.point := by
  have hnodup := f.nodup_points
  rw [← h.points, hv, map_map, map_append] at hnodup
  exact fun e he heq => (nodup_append.1 hnodup).2.2 _ (mem_map_of_mem he) _ mem_cons_self heq

theorem latest?_eq (h : c.Of f) (hv : c.visits = vs ++ v :: ws) (t : Temp) :
    f.latest? v.point t = (lastDefinition vs t).map fun e => (e.point, e.quad) := by
  have hpoints := h.points
  have hne := h.point_ne hv
  have hfront : f.points.takeWhile (·.1 ≠ v.point) = vs.map fun e => (e.point, e.quad) := by
    rw [← hpoints, hv, map_append, takeWhile_append_of_pos, map_cons,
      takeWhile_cons_of_neg (by simp), append_nil]
    simpa using hne
  rw [Func.latest?, hfront, ← map_reverse, find?_map, lastDefinition]
  rfl

theorem placed (h : c.Of f) (hv : v ∈ c.visits) : ∃ seg,
    c.segments[v.point.block]? = some seg ∧ seg.visits[v.point.pos]? = some v := by
  obtain ⟨seg, hseg, hv⟩ := mem_flatMap.1 hv
  obtain ⟨i, hi⟩ := getElem?_of_mem hseg
  obtain ⟨k, hk⟩ := getElem?_of_mem hv
  obtain ⟨b, -, hcovers⟩ := h.covers hi
  rw [hcovers.point hk]
  exact ⟨seg, hi, hk⟩

theorem eq_of_point (h : c.Of f) {w : Visit} (hv : v ∈ c.visits) (hw : w ∈ c.visits)
    (hpoint : v.point = w.point) : v = w := by
  obtain ⟨seg, hseg, hpos⟩ := h.placed hv
  obtain ⟨seg', hseg', hpos'⟩ := h.placed hw
  rw [← hpoint] at hseg' hpos'
  cases hseg.symm.trans hseg'
  exact Option.some.inj (hpos.symm.trans hpos')

theorem code_visit (h : c.Of f) (hv : v ∈ c.visits) : c.code v.point = v.instrs := by
  obtain ⟨seg, hseg, hpos⟩ := h.placed hv
  rw [Trail.code, hseg]
  dsimp only
  rw [hpos]

theorem code_cases (h : c.Of f) (p : Point) :
    (∃ v ∈ c.visits, v.point = p) ∨ ∀ i ∈ c.code p, Barren i := by
  unfold Trail.code
  cases hseg : c.segments[p.block]? with
  | none => exact .inr (by simp)
  | some seg =>
    obtain ⟨b, -, hcovers⟩ := h.covers hseg
    dsimp only
    cases hv : seg.visits[p.pos]? with
    | some v =>
      have hmem : v ∈ c.visits := mem_flatMap.2 ⟨seg, mem_of_getElem? hseg, mem_of_getElem? hv⟩
      exact .inl ⟨v, hmem, hcovers.point hv⟩
    | none =>
      refine .inr fun i hi => ?_
      dsimp only at hi
      split at hi
      · exact hcovers.tail i hi
      · cases hi

theorem bound_before (h : c.Of f) (hv : v ∈ c.visits) {b : Binding}
    (hb : v.before.bound t = some b) : ∃ vs ws e, c.visits = vs ++ v :: ws ∧
      lastDefinition vs t = some e ∧ e.given = some b := by
  obtain ⟨vs, ws, hvs, hrun⟩ := h.run.visited hv
  have hbound := hrun.bound t
  rw [hb] at hbound
  cases he : lastDefinition vs t with
  | some e =>
    rw [he] at hbound
    exact ⟨vs, ws, e, hvs, he, hbound.symm⟩
  | none =>
    rw [he, State.bound, h.bindings] at hbound
    cases hbound

/-- What a use of a temporary takes is what the last definition in front of it in the text gave. -/
theorem bound_use (h : c.Of f) (hv : v ∈ c.visits) (ht : t ∈ v.quad.operands) :
    ∃ e ∈ c.visits, ∃ b, f.latest? v.point t = some (e.point, e.quad) ∧ e.given = some b ∧
      v.before.bound t = some b := by
  obtain ⟨_, _, hmakes, -⟩ := (h.run.ran v hv).makes
  obtain ⟨b, hb⟩ := hmakes.bound_operand ht
  obtain ⟨vs, ws, e, hvs, he, hgiven⟩ := h.bound_before hv hb
  have hlatest := h.latest?_eq hvs t
  rw [he] at hlatest
  have hmem : e ∈ c.visits := hvs ▸ mem_append_left _ (lastDefinition_spec he).1
  exact ⟨e, hmem, b, hlatest, hgiven, hb⟩

end Of

end Trail

/-! ## From one function to the next -/

def declareSlots (storage : Storage) (ds : List (Decl × Nat)) (T : Table) : Table :=
  ds.foldl (fun T x => declareSlot T storage x.1 x.2) T

def openFunc (f : Func) (s : State) : State :=
  { enterFunc f s with
    revInstrs := (opening f).reverse
    table := declareSlots .stack f.locals.zipIdx
      (declareSlots .param f.formals.zipIdx s.table.enter) }

theorem run_formals (ds : List (Decl × Nat)) (s : State) :
    (ds.mapM fun x => lowerFormal x.1 x.2) s = .ok (ds.map formalParam) { s with
      revInstrs := (ds.flatMap formalInstrs).reverse ++ s.revInstrs
      table := declareSlots .param ds s.table } := by
  induction ds generalizing s with
  | nil => rfl
  | cons d ds ih =>
    have hd : lowerFormal d.1 d.2 s = .ok (formalParam d) { s with
        revInstrs := argInstr d :: slotInstr d.1 :: s.revInstrs
        table := declareSlot s.table .param d.1 d.2 } := rfl
    rw [mapM_cons, run_bind_of_ok hd, run_bind_of_ok (ih _)]
    simp [declareSlots, formalInstrs, pure, EStateM.pure]

theorem run_locals (ds : List (Decl × Nat)) (s : State) :
    (ds.forM fun x => do let _ ← allocVariable .stack x.1 x.2) s = .ok () { s with
      revInstrs := ((ds.map Prod.fst).map slotInstr).reverse ++ s.revInstrs
      table := declareSlots .stack ds s.table } := by
  induction ds generalizing s with
  | nil => rfl
  | cons d ds ih =>
    have hd : (do let _ ← allocVariable .stack d.1 d.2 : LowerM Unit) s = .ok () { s with
        revInstrs := slotInstr d.1 :: s.revInstrs
        table := declareSlot s.table .stack d.1 d.2 } := rfl
    refine (run_bind_of_ok hd).trans ((ih _).trans ?_)
    simp [declareSlots]

theorem ensures_lowerFunc {Q : Ir.Func → State → Prop}
    (h : Ensures (f.blocks.mapM (lowerBlock f)) (openFunc f s) fun bs s1 =>
      Ensures (warnUnreachable f) s1 fun _ s2 =>
        Q ⟨f.name, f.formals.zipIdx.map formalParam, machineTy f.tag.base, bs⟩
          { s2 with table := s2.table.leave }) : Ensures (lowerFunc f) s Q := by
  intro h' s' hrun
  rw [run_lowerFunc] at hrun
  cases hbody : lowerBody f (enterFunc f s) with
  | error e s1 => simp [hbody] at hrun
  | ok h1 s1 =>
    obtain ⟨rfl, rfl⟩ : h1 = h' ∧ { s1 with table := s1.table.leave } = s' := by
      simpa [hbody] using hrun
    have hlower : Ensures (lowerBody f) (enterFunc f s) fun h' s' =>
        Q h' { s' with table := s'.table.leave } := by
      unfold lowerBody
      split
      · exact ensures_bind.2 ensures_throw
      · rw [ensures_bind, ensures_iff_of_eq (run_formals ..), ensures_bind,
          ensures_iff_of_eq (run_locals ..)]
        simp only [ensures_bind, ensures_pure]
        simpa [openFunc, opening, enterFunc] using h
    exact hlower h1 s1 hbody

/-- The warnings about the blocks of a function that no path leads to and that hold code. -/
def unreachedWarnings (file : String) (f : Func) : List Diagnostic :=
  (f.unreachable.filter (·.hasCode)).map fun b =>
    ⟨.warning .unreachableCode, ⟨file, b.firstLine⟩,
      "unreachable code in block " ++ b.label ++ " of '" ++ f.name ++ "'"⟩

/-- The report behind a function, where these warnings are enabled or not. -/
def warnedReport (file : String) (f : Func) (r : Report) : Report :=
  { r with
    diagnostics := r.diagnostics ++
      if r.flags.all (·.isEnabled .unreachableCode) then unreachedWarnings file f else [] }

theorem run_warnUnreachable (f : Func) (s : State) :
    warnUnreachable f s = .ok () { s with report := warnedReport s.file f s.report } := by
  unfold warnUnreachable warnedReport unreachedWarnings
  generalize f.unreachable = bs
  induction bs generalizing s with
  | nil => simp [pure, EStateM.pure]
  | cons b bs ih =>
    have hb : (do
        if b.hasCode then
          warn .unreachableCode ⟨(← get).file, b.firstLine⟩ (.unreachableBlock b.label f.name)) s =
        .ok () (if b.hasCode then { s with
          report := s.report.warn .unreachableCode ⟨s.file, b.firstLine⟩
            ("unreachable code in block " ++ b.label ++ " of '" ++ f.name ++ "'") } else s) := by
      split <;> rfl
    refine (run_bind_of_ok hb).trans ((ih _).trans ?_)
    by_cases hcode : b.hasCode = true
    · rw [if_pos hcode, filter_cons_of_pos hcode, warn_eq]
      split <;> simp [*]
    · rw [if_neg hcode, filter_cons_of_neg hcode]

/-- The trail of `f` leads from the state `s` in front of the function to `s'` behind it. -/
structure Trail.Leads (c : Trail) (f : Func) (s s' : State) : Prop where
  of : c.Of f
  first : c.first = openFunc f s
  closes : Forall₂ (fun b seg => Segment.Closes f (machineTy f.tag.base) b.2 b.1 seg)
    f.blocks.zipIdx c.segments
  last : s' = { c.last with
    report := warnedReport c.last.file f c.last.report, table := c.last.table.leave }

theorem Trail.Leads.errors (h : c.Leads f s s') : s'.errors = c.last.errors := by
  have hwarnings : (unreachedWarnings c.last.file f).filter Diagnostic.isError = [] := by
    refine filter_isError_warnings (k := .unreachableCode) fun d hd => ?_
    obtain ⟨b, -, rfl⟩ := mem_map.1 hd
    rfl
  rw [h.last, State.errors, warnedReport, filter_append, apply_ite (filter _), hwarnings,
    filter_nil, ite_self, append_nil]
  rfl

theorem Trail.Leads.segment (h : c.Leads f s s')
    (hb : f.blocks[i]? = some b) : ∃ seg, c.segments[i]? = some seg ∧
      seg.Covers f i b ∧ seg.Closes f (machineTy f.tag.base) i b := by
  obtain ⟨hi, rfl⟩ := List.getElem?_eq_some_iff.1 hb
  have hi' : i < c.segments.length := by simpa [← h.closes.length_eq] using hi
  have hcovers := h.of.segments.get (by simpa using hi) hi'
  have hcloses := h.closes.get (by simpa using hi) hi'
  simp only [get_eq_getElem, getElem_zipIdx, zero_add] at hcovers hcloses
  exact ⟨_, getElem?_eq_getElem hi', hcovers, hcloses⟩

theorem ensures_trail (f : Func) :
    Ensures (lowerFunc f) s fun h s' => ∃ c : Trail, c.func = h ∧ c.Leads f s s' := by
  refine ensures_lowerFunc ((ensures_segments f f.blocks 0 rfl (by simp [openFunc])).mono ?_)
  rintro _ s1 ⟨segs, rfl, hrun, hsegs⟩
  rw [ensures_iff_of_eq (run_warnUnreachable f s1)]
  exact ⟨⟨_, openFunc f s, segs, s1⟩, rfl, ⟨hrun, rfl, rfl, rfl, hsegs.imp fun _ _ h => h.1⟩, rfl,
    hsegs.imp fun _ _ h => h.2, rfl⟩

inductive Trails : State → List Func → List Trail → State → Prop
  | nil {s : State} : Trails s [] [] s
  | cons {s s1 s' : State} {f : Func} {fs : List Func} {c : Trail} {cs : List Trail} :
      c.Leads f s s1 → Trails s1 fs cs s' → Trails s (f :: fs) (c :: cs) s'

theorem ensures_trails (fs : List Func) :
    Ensures (fs.mapM lowerFunc) s fun hs s' => ∃ cs : List Trail, cs.map (·.func) = hs ∧
      Trails s fs cs s' := by
  induction fs generalizing s with
  | nil => exact ensures_pure.2 ⟨[], rfl, .nil⟩
  | cons f fs ih =>
    rw [mapM_cons]
    refine ensures_bind.2 ((ensures_trail f).mono ?_)
    rintro _ s1 ⟨c, rfl, hleads⟩
    refine ensures_bind.2 (ih.mono ?_)
    rintro _ s2 ⟨cs, rfl, htrails⟩
    exact ensures_pure.2 ⟨c :: cs, rfl, .cons hleads htrails⟩

namespace Trails

variable {fs : List Func} {cs : List Trail}

theorem invariant (h : Trails s fs cs s')
    (hI : ∀ f ∈ fs, ∀ c t t', Trail.Leads c f t t' → I t → I t') (hs : I s) :
    Forall₂ (fun f c => ∃ t t', c.Leads f t t' ∧ I t) fs cs ∧ I s' := by
  induction h with
  | nil => exact ⟨.nil, hs⟩
  | cons hleads _ ih =>
    obtain ⟨hf, hfs⟩ := forall_mem_cons.1 hI
    obtain ⟨hall, hlast⟩ := ih hfs (hf _ _ _ hleads hs)
    exact ⟨.cons ⟨_, _, hleads, hs⟩ hall, hlast⟩

theorem of (h : Trails s fs cs s') : Forall₂ (fun f c => Trail.Of c f) fs cs :=
  (h.invariant (I := fun _ => True) (fun _ _ _ _ _ _ _ => trivial) trivial).1.imp
    fun _ _ ⟨_, _, hleads, _⟩ => hleads.of

theorem errors (h : Trails s fs cs s') :
    s'.errors = s.errors ++ cs.flatMap (·.visits.flatMap Visit.errors) := by
  induction h with
  | nil => simp
  | cons hleads _ ih =>
    rw [ih, hleads.errors, hleads.of.run.errors, hleads.first, flatMap_cons, ← append_assoc]
    rfl

end Trails

/-! ## What lasts -/

structure Lasting (P : Table → Prop) : Prop where
  enter : ∀ T, P T → P T.enter
  leave : ∀ T, P T → P T.leave
  slot : ∀ T storage d place, T.inner ≠ [] → P T → P (declareSlot T storage d place)
  call : ∀ name k T id v T', Enlists name k T id v T' → P T → P T'

namespace Lasting

variable {P : Table → Prop} (hP : Lasting P)

include hP

theorem slots (storage : Storage) (ds : List (Decl × Nat)) {T : Table} (h : T.inner ≠ [] ∧ P T) :
    (declareSlots storage ds T).inner ≠ [] ∧ P (declareSlots storage ds T) := by
  induction ds generalizing T with
  | nil => exact h
  | cons d ds ih => exact ih ⟨Table.inner_install_ne_nil h.1, hP.slot _ _ _ _ h.1 h.2⟩

theorem runs {vs : List Visit} (h : Runs s vs s') (hs : P s.table) :
    (∀ v ∈ vs, P v.before.table) ∧ P s'.table := by
  refine h.invariant (I := fun t => P t.table) (fun t t' hr ht => ?_) (fun v _ hran ht => ?_) hs
  · rw [hr]
    exact ht
  · obtain ⟨_, _, _, hafter, -⟩ := hran.makes
    have hcalling := hafter.calling
    generalize v.quad = q, v.instrs = is at hcalling
    cases hcalling with
    | other _ hsame => rwa [hsame]
    | call he => exact hP.call _ _ _ _ _ _ he ht

theorem leads {c : Trail} (h : c.Leads f s s') (hs : P s.table) :
    P c.first.table ∧ (∀ v ∈ c.visits, P v.before.table) ∧ P s'.table := by
  have hfirst : P c.first.table := by
    rw [h.first]
    exact (hP.slots _ _ (hP.slots _ _ ⟨by simp [Table.enter], hP.enter _ hs⟩)).2
  obtain ⟨hvisits, hlast⟩ := hP.runs h.of.run hfirst
  refine ⟨hfirst, hvisits, ?_⟩
  rw [h.last]
  exact hP.leave _ hlast

theorem trails {fs : List Func} {cs : List Trail} (h : Trails s fs cs s') (hs : P s.table) :
    Forall₂ (fun f c => ∃ t t', c.Leads f t t' ∧ P t.table) fs cs ∧ P s'.table :=
  h.invariant (I := fun t => P t.table) (fun _ _ _ _ _ hc ht => (hP.leads hc ht).2.2) hs

end Lasting

theorem lasting_all {E : Entry → Prop} (hnew : ∀ name level, E { name, level })
    (hslot : ∀ storage d place e, E e → E (slotEntry storage d place e))
    (hplaced : ∀ name e, E e → E (placedEntry name e))
    (himplicit : ∀ name k e, E e → E (implicitEntry name k e)) : Lasting (Table.All E) where
  enter _ h := h
  leave _ h := h
  slot T storage d place _ h := (h.installAt (hnew d.name) _).modifyEntry (hslot storage d place)
  call name k T id v T' he h := by
    cases he with
    | known => exact h
    | placed => exact h.modifyEntry (hplaced name)
    | implicit => exact (h.installAt (hnew name) 0).modifyEntry (himplicit name k)

theorem callTy_eq_global? (T : Table) (n : String) :
    T.callTy n = (T.global? n).elim .word Entry.callTy := by
  unfold Table.callTy Table.global?
  cases T.lookupGlobal? n <;> rfl

theorem lasting_callTy (ty : String → Ty) :
    Lasting fun T => T.Sound ∧ ∀ n, T.callTy n = ty n where
  enter _ h := h
  leave _ h := h
  slot T storage d place hi h := by
    refine ⟨(h.1.install hi d.name).modifyEntry rfl, fun n => ?_⟩
    rw [declareSlot, callTy_eq_global?, Table.global?_install h.1 hi, ← callTy_eq_global?, h.2]
  call name k T id v T' he h := by
    refine ⟨(he.changes h.1).sound, fun n => ((he.changes h.1).callTy ?_ n).trans (h.2 n)⟩
    rintro e ⟨hk, hh, helem⟩
    simp [Entry.callTy, hk, hh, helem]

/-! ## Programs -/

theorem exists_trails (h : lower g s = .ok p s') : ∃ cs : List Trail,
      Trails (s.declared g (declaredTable g s.table)) g.funcs cs s' ∧
      p = ⟨s'.settings.wordSize, g.globals.map globalData,
        s'.literals.zipIdx.map fun (b, i) => literalData i b, s'.foreign, cs.map (·.func)⟩ := by
  rw [run_lower] at h
  obtain ⟨hs, s1, hmap, hrest⟩ := bind_eq_ok_iff.1 h
  obtain ⟨cs, rfl, htrails⟩ := ensures_trails g.funcs _ _ hmap
  cases hrest
  exact ⟨cs, htrails, rfl⟩

/-- The type of what a call of a name gives in the functions of a program. -/
def callType (g : Flow.Graph) (T : Table) (n : String) : Ir.Ty :=
  (((declaredFaces g).lookup n).or (T.global? n)).elim .word Entry.callTy

theorem trails_of_lower (h : lower g s = .ok p s') : ∃ cs : List Trail, cs.map (·.func) = p.funcs ∧
      Forall₂ (fun f c => Trail.Of c f) g.funcs cs ∧
      (s.table.Tidy → s'.errors = s.errors ++ cs.flatMap (·.visits.flatMap Visit.errors) ∧
        ∀ c ∈ cs, c.first.table.Sound ∧ ∀ n, c.first.table.callTy n = callType g s.table n) := by
  obtain ⟨cs, htrails, rfl⟩ := exists_trails h
  refine ⟨cs, rfl, htrails.of, fun htidy => ⟨htrails.errors, fun c hc => ?_⟩⟩
  obtain ⟨hT, hglobal⟩ := global?_declaredTable g htidy.sound
  have hstart : ∀ n, (declaredTable g s.table).callTy n = callType g s.table n := by
    intro n
    rw [callTy_eq_global?, hglobal, callType]
  have hlasts := lasting_callTy (callType g s.table)
  obtain ⟨f, -, t, t', hleads, ht⟩ := exists_of_forall₂ (hlasts.trails htrails ⟨hT, hstart⟩).1 hc
  exact (hlasts.leads hleads ht).1

end Lowering

end Quadruple
