import Quadruple.Proofs.Lowering.Types

/-!
# Doubles where ints are expected

An index, a condition and the arguments of a call are taken as they are bound: they are neither
checked nor converted. Main statement: `doubles_at_uses`.
-/

namespace Quadruple

open List

def Quad.taken : Quad → List Temp
  | .index _ _ idx _ => [idx]
  | .branch cond _ _ => [cond]
  | .call _ _ _ args => args
  | _ => []

variable {t : Temp} {tag : Tag} {q : Quad}

theorem Quad.operands_of_taken (h : t ∈ q.taken) : t ∈ q.operands := by
  cases q with
  | index | branch | call => simp_all [taken, operands]
  | _ => cases h

namespace Lowering

open Quadruple.Flow (Func Block Point)
open Symbols (Table)

/-- The instruction met in `s` makes a double, where `calls` gives the types of calls. Loads of
arrays and stores of addresses make addresses, whatever their tags. -/
def MakesDouble (calls : String → Ir.Ty) (s : State) : Quad → Prop
  | .const _ _ tag | .cast _ _ tag => tag.isDouble = true
  | .unary _ op _ tag => op = "-" ∧ machineTy tag.base = .double
  | .binary cls _ _ _ _ tag => cls = .arith ∧ machineTy tag.base = .double
  | .load _ addr tag => machineTy tag = .double ∧ ∃ a, s.bound addr = some a ∧ a.isArray = false
  | .store _ _ val tag => ∃ v, s.bound val = some v ∧
      (v.ty = .word ∧ machineTy tag = .double ∨ v.ty = .double ∧ machineTy tag ≠ .word)
  | .call _ callee _ _ => ∃ c name, s.bound callee = some c ∧ c.callee = some name ∧
      calls name = .double
  | _ => False

def Visit.HasDouble (v : Visit) (t : Temp) : Prop := ∃ b, v.before.bound t = some b ∧ b.ty = .double

def Visit.Passes (v : Visit) (t : Temp) : Prop :=
  ∃ b, v.before.bound t = some b ∧ (∃ i ∈ v.instrs, b.val ∈ i.args) ∧
    ∀ i ∈ v.instrs, i.op ≠ .swtof ∧ i.op ≠ .ftosi

/-- In a visit of `f`, the definition in force of a temporary makes a double. -/
def Trail.GetsDouble (c : Trail) (f : Func) (calls : String → Ir.Ty) (v : Visit) (t : Temp) :
    Prop :=
  ∃ e ∈ c.visits, f.latest? v.point t = some (e.point, e.quad) ∧
    MakesDouble calls e.before e.quad

/-- Indices and conditions are no doubles, and the arguments of the functions of a program are
doubles where the formals are. -/
structure Trail.IntOnly (c : Trail) (g : Flow.Graph) (IsDouble : Visit → Temp → Prop) : Prop where
  index : ∀ v ∈ c.visits, ∀ dst base idx tag, v.quad = .index dst base idx tag → ¬ IsDouble v idx
  branch : ∀ v ∈ c.visits, ∀ cond onTrue onFalse, v.quad = .branch cond onTrue onFalse →
    ¬ IsDouble v cond
  call : ∀ v ∈ c.visits, ∀ dst callee tag args, v.quad = .call dst callee tag args →
    ∀ h ∈ g.funcs, (v.before.bound callee).bind (·.callee) = some h.name →
      ∀ x ∈ args.zip h.formals, IsDouble v x.1 ↔ machineTy x.2.tag = .double

section

variable {s : State} {is : List Ir.Instr}

theorem castTy_eq_double : castTy tag = .double ↔ tag.isDouble = true := by
  unfold castTy
  split <;> simp [*]

theorem mismatch_eq_nil {op : String} {ty : Ir.Ty} :
    mismatch op tag ty = [] ↔ machineTy tag.base = ty := by
  unfold mismatch
  split <;> simp_all

theorem Makes.double_iff {b : Binding} (h : Makes s q is (some (t, b)) [])
    (hsound : s.table.Sound) : b.ty = .double ↔ MakesDouble s.table.callTy s q := by
  have hcalls : ∀ {dst callee : Temp} {tag : Tag} {args : List Temp} {ty : Ir.Ty}
      {bs : List Binding}, Invokes s callee args ty bs [] →
        (ty = .double ↔ MakesDouble s.table.callTy s (.call dst callee tag args)) := by
    intro dst callee tag args ty bs hi
    obtain ⟨c, name, hc, hname, hty⟩ := hi.callee
    rw [hty hsound]
    refine ⟨fun h => ⟨c, name, hc, hname, h⟩, ?_⟩
    rintro ⟨c', name', hc', hname', h⟩
    cases hc.symm.trans hc'
    cases hname.symm.trans hname'
    exact h
  generalize hns : ([] : List Notice) = ns at h
  cases h with
  | float htag | int htag => simp [MakesDouble, htag]
  | string | index | not => simp [MakesDouble, computed]
  | ref hb => simp [MakesDouble, hb.ty]
  | array ha hty harr => simp [MakesDouble, ha, hty, harr]
  | load ha _ harr => simp [MakesDouble, computed, ha, harr]
  | @store _ _ _ tag _ v _ x _ _ hv =>
    have hstored : (stored v (machineTy tag) x).ty = .double ↔
        v.ty = .word ∧ machineTy tag = .double ∨ v.ty = .double ∧ machineTy tag ≠ .word := by
      unfold stored needsConversion
      split <;> grind
    simp [MakesDouble, hv, hstored]
  | neg =>
    have hty := mismatch_eq_nil.1 hns.symm
    simp [MakesDouble, computed, hty]
  | @binary cls =>
    have hty := mismatch_eq_nil.1 hns.symm
    cases cls with
    | arith =>
      simp only [OpClass.required] at hty
      simp [MakesDouble, computed, OpClass.resultTy, ← hty]
    | bitwise | compare => simp [MakesDouble, computed, OpClass.resultTy]
  | same hb hty =>
    rw [hty, castTy_eq_double]
    rfl
  | cast => exact castTy_eq_double
  | call hi =>
    subst hns
    exact hcalls hi
  | procedure hi =>
    subst hns
    rw [← hcalls hi]
    simp

theorem Makes.passes {new : Option (Temp × Binding)} {ns : List Notice} (h : Makes s q is new ns)
    (ht : t ∈ q.taken) : ∃ b, s.bound t = some b ∧ (∃ i ∈ is, b.val ∈ i.args) ∧
      ∀ i ∈ is, i.op ≠ .swtof ∧ i.op ≠ .ftosi := by
  have hargs : ∀ {callee : Temp} {args : List Temp} {ty : Ir.Ty} {bs : List Binding}
      (handle : Ir.Value), Invokes s callee args ty bs ns → t ∈ args →
        ∃ b, s.bound t = some b ∧ b.val ∈ (callInstr handle ty bs).args := by
    intro callee args ty bs handle hi ht
    obtain ⟨b, hmem, hb⟩ := exists_of_forall₂ hi.args.flip ht
    exact ⟨b, hb, mem_cons_of_mem _ (mem_map_of_mem hmem)⟩
  cases h with
  | index k _ _ hi hw =>
    obtain rfl := mem_singleton.1 ht
    cases hw with
    | keep | extend => exact ⟨_, hi, ⟨_, mem_cons_self, mem_cons_self⟩, by simp [computing]⟩
  | branch hc =>
    obtain rfl := mem_singleton.1 ht
    exact ⟨_, hc, ⟨_, mem_cons_self, mem_cons_self⟩, by simp⟩
  | @call _ _ _ _ handle _ _ _ hi =>
    obtain ⟨b, hb, hval⟩ := hargs handle hi ht
    exact ⟨b, hb, ⟨_, mem_cons_self, hval⟩, by simp [computing, callInstr]⟩
  | @procedure _ _ _ _ handle _ _ hi =>
    obtain ⟨b, hb, hval⟩ := hargs handle hi ht
    exact ⟨b, hb, ⟨_, mem_cons_self, hval⟩, by simp [callInstr]⟩
  | _ => cases ht

end

/-! ## Programs -/

theorem Trail.intOnly_congr {c : Trail} {g : Flow.Graph} {P Q : Visit → Temp → Prop}
    (h : ∀ v ∈ c.visits, ∀ t ∈ v.quad.taken, P v t ↔ Q v t) (hP : c.IntOnly g P) :
    c.IntOnly g Q := by
  refine ⟨fun v hv dst base idx tag hq => ?_, fun v hv cond onTrue onFalse hq => ?_,
    fun v hv dst callee tag args hq f hf hname x hx => ?_⟩
  · have ht : idx ∈ v.quad.taken := by simp [hq, Quad.taken]
    rw [← h v hv idx ht]
    exact hP.index v hv dst base idx tag hq
  · have ht : cond ∈ v.quad.taken := by simp [hq, Quad.taken]
    rw [← h v hv cond ht]
    exact hP.branch v hv cond onTrue onFalse hq
  · have ht : x.1 ∈ v.quad.taken := by
      rw [hq]
      exact (of_mem_zip hx).1
    rw [← h v hv x.1 ht]
    exact hP.call v hv dst callee tag args hq f hf hname x hx

/-- Doubles at the uses of temporaries. If no error is reported, a temporary that is used is bound
to a double exactly if the definition in force makes one. Indices, conditions and arguments are used
as they are bound, so they are ints where they have to be exactly if their definitions make them
so. -/
theorem doubles_at_uses {g : Flow.Graph} {s s' : State} {p : Ir.Program} (htidy : s.table.Tidy)
    (h : lower g s = .ok p s') (hno : s'.errors = s.errors) :
    ∃ cs : List Trail, cs.map (·.func) = p.funcs ∧ List.Forall₂ (fun f c => c.Of f ∧
      (∀ v ∈ c.visits, ∀ t ∈ v.quad.operands,
        v.HasDouble t ↔ c.GetsDouble f (callType g s.table) v t) ∧
      (∀ v ∈ c.visits, ∀ t ∈ v.quad.taken, v.Passes t) ∧
      (c.IntOnly g Visit.HasDouble ↔ c.IntOnly g (c.GetsDouble f (callType g s.table))))
      g.funcs cs := by
  obtain ⟨cs, hcs, hall, htables⟩ := trails_of_lower h
  obtain ⟨herrors, hcalls⟩ := htables htidy
  have hsilent : ∀ c ∈ cs, ∀ v ∈ c.visits, v.errors = [] := by
    have hnil : cs.flatMap (·.visits.flatMap Visit.errors) = [] := by
      simpa [hno] using herrors
    intro c hc v hv
    exact List.flatMap_eq_nil_iff.1 (List.flatMap_eq_nil_iff.1 hnil c hc) v hv
  refine ⟨cs, hcs, forall₂_of_mem hall fun f hf c hc hof => ?_⟩
  obtain ⟨hsound, hty⟩ := hcalls c hc
  have hdouble : ∀ v ∈ c.visits, ∀ t ∈ v.quad.operands,
      v.HasDouble t ↔ c.GetsDouble f (callType g s.table) v t := by
    intro v hv t ht
    obtain ⟨e, he, b, hlatest, hgiven, hbound⟩ := hof.bound_use hv ht
    obtain ⟨new, ns, hmakes, -, hnew, hns⟩ := (hof.run.ran e he).makes
    rw [hsilent c hc e he] at hns
    rw [hgiven] at hnew
    obtain ⟨⟨_, _⟩, rfl, rfl⟩ := Option.map_eq_some_iff.1 hnew.symm
    obtain rfl := List.map_eq_nil_iff.1 hns.symm
    obtain ⟨_, _, -, hrun⟩ := hof.run.visited he
    obtain ⟨hsound', hty'⟩ := hrun.unmoved.calls hsound
    have hcallTy : e.before.table.callTy = callType g s.table :=
      funext fun n => (hty' n).trans (hty n)
    have hiff := hmakes.double_iff hsound'
    rw [hcallTy] at hiff
    constructor
    · rintro ⟨b, hb, hdouble⟩
      obtain rfl := Option.some.inj (hb.symm.trans hbound)
      exact ⟨e, he, hlatest, hiff.1 hdouble⟩
    · rintro ⟨e', he', hlatest', hmade⟩
      have hpoint := (Prod.mk.inj (Option.some.inj (hlatest'.symm.trans hlatest))).1
      obtain rfl := hof.eq_of_point he' he hpoint
      exact ⟨_, hbound, hiff.2 hmade⟩
  refine ⟨hof, hdouble, fun v hv t ht => ?_, ?_⟩
  · obtain ⟨_, _, hmakes, -⟩ := (hof.run.ran v hv).makes
    exact hmakes.passes ht
  · have htaken : ∀ v ∈ c.visits, ∀ t ∈ v.quad.taken,
        v.HasDouble t ↔ c.GetsDouble f (callType g s.table) v t := fun v hv t ht =>
      hdouble v hv t (Quad.operands_of_taken ht)
    exact ⟨Trail.intOnly_congr htaken, Trail.intOnly_congr fun v hv t ht => (htaken v hv t ht).symm⟩

/-- A double as an index, as an argument where an int is expected, and as a condition. -/
def unguarded : List Quad :=
  [.funcBegin "f" .int, .formalDecl ⟨"a", .int, 4⟩, .funcEnd, .funcBegin "main" .int,
    .localDecl ⟨"x", .int, 4⟩, .const ⟨1⟩ "1" .int, .cast ⟨2⟩ ⟨1⟩ .double, .ref ⟨3⟩ .stack "x" 0,
    .index ⟨4⟩ ⟨3⟩ ⟨2⟩ .int, .ref ⟨5⟩ .global "f" 0, .arg ⟨2⟩ .double, .call ⟨6⟩ ⟨5⟩ .int [⟨2⟩],
    .condJump ⟨2⟩ (.label 1), .jump (.label 1), .label 1, .funcEnd]

def unguardedMain : Func where
  name := "main"
  tag := .int
  formals := []
  locals := [⟨"x", .int, 4⟩]
  blocks :=
    [⟨"entry", [.const ⟨1⟩ "1" .int, .cast ⟨2⟩ ⟨1⟩ .double, .ref ⟨3⟩ .stack "x" 0,
        .index ⟨4⟩ ⟨3⟩ ⟨2⟩ .int, .ref ⟨5⟩ .global "f" 0, .arg ⟨2⟩ .double,
        .call ⟨6⟩ ⟨5⟩ .int [⟨2⟩], .branch ⟨2⟩ (.label 1) (.label 1)], [1, 1], some 1⟩,
      ⟨"L1", [.funcEnd], [], none⟩]

def unguardedGraph : Flow.Graph :=
  ⟨[], [⟨"f", .int, [⟨"a", .int, 4⟩], [], [⟨"entry", [.funcEnd], [], none⟩]⟩, unguardedMain]⟩

/-- The definition of the index in force is a conversion to double, so the index is a double. -/
theorem unguarded_hasDouble : Table.Tidy .empty ∧
    ∃ (p : Ir.Program) (s' : State) (c : Trail) (v : Visit),
      lower unguardedGraph (.new {} .empty ⟨none, []⟩ "f") = .ok p s' ∧ s'.errors = [] ∧
      c.Of unguardedMain ∧ v ∈ c.visits ∧ v.quad = .index ⟨4⟩ ⟨3⟩ ⟨2⟩ .int ∧ v.HasDouble ⟨2⟩ ∧
      v.Passes ⟨2⟩ ∧ ¬ c.IntOnly unguardedGraph Visit.HasDouble := by
  have hok : (outcome? (lower unguardedGraph) (.new {} .empty ⟨none, []⟩ "f")).map
      (·.2.report.diagnostics) = some [] := by cbv
  obtain ⟨p, s', hs', hreport⟩ := exists_ok_of_outcome? hok
  have hno : s'.errors = [] := by rw [State.errors, hreport, List.filter_nil]
  obtain ⟨cs, -, hall⟩ := doubles_at_uses Table.tidy_empty hs' hno
  obtain ⟨_, _, -, hmain, rfl⟩ := List.forall₂_cons_left_iff.1 hall
  obtain ⟨c, _, ⟨hc, hdouble, hpasses, -⟩, -, rfl⟩ := List.forall₂_cons_left_iff.1 hmain
  obtain ⟨v, hv, hpoint, hquad⟩ := hc.exists_visit (p := ⟨0, 3⟩) rfl
  obtain ⟨e, he, hpoint', hquad'⟩ := hc.exists_visit (p := ⟨0, 1⟩) rfl
  have hlatest : unguardedMain.latest? ⟨0, 3⟩ ⟨2⟩ = some (⟨0, 1⟩, .cast ⟨2⟩ ⟨1⟩ .double) := by
    decide
  have hindex : v.HasDouble ⟨2⟩ := by
    refine (hdouble v hv ⟨2⟩ (by simp [hquad, Quad.operands])).2 ⟨e, he, ?_, ?_⟩
    · rw [hpoint, hpoint', hquad', hlatest]
    · rw [hquad']
      exact (by decide : Tag.double.isDouble = true)
  exact ⟨Table.tidy_empty, p, s', c, v, hs', hno, hc, hv, hquad, hindex,
    hpasses v hv ⟨2⟩ (by simp [hquad, Quad.taken]), fun h => h.index v hv _ _ _ _ hquad hindex⟩

/-- Where the double goes: it is extended as a word, passed as a double and tested. -/
def unguardedUses : List Ir.Instr :=
  [{ op := .extsw, ty := .ptr, operandTy := .word, result := some (.temp "x" 1),
     args := [tempValue ⟨2⟩] },
    { op := .call, ty := .word, result := some (tempValue ⟨6⟩),
      args := [.global "f", tempValue ⟨2⟩], argTys := [.double] },
    { op := .jnz, args := [tempValue ⟨2⟩, .label "L1", .label "L1"] }]

/-- Nothing is reported, though the parameter of the first function is a word. -/
theorem unguarded_taken : Flow.build unguarded = .ok unguardedGraph ∧
    ∃ p s', lower unguardedGraph (.new {} .empty ⟨none, []⟩ "f") = .ok p s' ∧
      s'.report.diagnostics = [] ∧
      p.funcs.map (fun f => (f.params.map (·.ty), f.types (tempValue ⟨2⟩))) =
        [([.word], []), ([], [.double])] ∧
      p.funcs.flatMap (fun f => f.instrs.filter (·.args.contains (tempValue ⟨2⟩))) =
        unguardedUses := by
  have hok : (outcome? (lower unguardedGraph) (.new {} .empty ⟨none, []⟩ "f")).map
      (fun r => (r.2.report.diagnostics,
        r.1.funcs.map (fun f => (f.params.map (·.ty), f.types (tempValue ⟨2⟩))),
        r.1.funcs.flatMap (fun f => f.instrs.filter (·.args.contains (tempValue ⟨2⟩))))) =
        some ([], [([.word], []), ([], [.double])], unguardedUses) := by cbv
  obtain ⟨p, s', hs', hr⟩ := exists_ok_of_outcome? hok
  obtain ⟨hreport, hrest⟩ := Prod.mk.inj hr
  exact ⟨by decide +kernel, p, s', hs', hreport, Prod.mk.inj hrest⟩

end Lowering

end Quadruple
