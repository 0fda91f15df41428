import Quadruple.Proofs.Llvm.Typing

/-!
# Bodies of functions in a module

The instructions of a function are built in order, and the first that uses a name that the module
does not have ends the building. Until then every temporary has its type before it is used, since
the instruction that it is the result of stands before.

Main statement: `Body.Stands.buildBlocks`. The blocks of a function whose instructions fit the types are
built, all of them with an end, or there is a refusal; and there is none just where the module has
all that the instructions name.
-/

namespace Quadruple.Llvm

open List

variable {c : Scope} {ended : Nat → Prop} {Γ : Types} {b : Body} {i : Ir.Instr} {v : Ir.Value}
variable {word : Scalar} {returns : String → Scalar}

/-! ## Temporaries -/

theorem Types.Defines.note (h : Γ.Defines v) (r : Option Ir.Value) (ty : Scalar) :
    (note Γ r ty).Defines v := by
  unfold Llvm.note
  cases r.bind Ir.Value.text? with
  | none => exact h
  | some text =>
    cases v with
    | temp name id =>
      simp only [Types.Defines, lookup_cons] at h ⊢
      split
      · rfl
      · exact h
    | _ => trivial

theorem defines_note (Γ : Types) (v : Ir.Value) (ty : Scalar) : (note Γ (some v) ty).Defines v := by
  cases v with
  | temp name id => simp [note, Types.Defines, Ir.Value.shown, Ir.Value.text?]
  | _ => trivial

theorem Types.Defines.typesAfter (h : Γ.Defines v) (i : Ir.Instr) :
    (typesAfter word returns Γ i).Defines v := by
  unfold Llvm.typesAfter
  cases resultTy? word returns Γ i with
  | none => exact h
  | some ty => exact h.note i.result ty

theorem exists_resultTy (hi : i.Formed) (hcallee : i.op = .call → (callee? i).isSome = true)
    (hresult : i.result = some v) : ∃ ty, resultTy? word returns Γ i = some ty := by
  cases hi with
  | alloc hop => exact ⟨word, by simp only [resultTy?, hop]⟩
  | unary hop | binary hop | compare hop =>
    unfold resultTy?
    cases hi : i.op with
    | store | jmp | jnz | ret | call | unnamed => rw [hi] at hop; cases hop
    | _ => exact ⟨_, rfl⟩
  | store _ _ hnone | jump _ hnone | branch _ hnone | leave _ hnone | ret _ hnone =>
    rw [hresult] at hnone
    cases hnone
  | call hop =>
    obtain ⟨name, hname⟩ := Option.isSome_iff_exists.1 (hcallee hop)
    exact ⟨returns name, by simp only [resultTy?, hop, hname, Option.map_some]⟩

theorem defines_result (hi : i.Formed) (hcallee : i.op = .call → (callee? i).isSome = true)
    (hresult : i.result = some v) : (typesAfter word returns Γ i).Defines v := by
  obtain ⟨ty, hty⟩ : ∃ ty, resultTy? word returns Γ i = some ty :=
    exists_resultTy hi hcallee hresult
  rw [typesAfter, hty, hresult]
  exact defines_note Γ v ty

/-! ## Instructions in order -/

/-- Instructions that are formed, fit the types and find what they rely on, one after the other. -/
def Scope.Takes (c : Scope) : Types → List Ir.Instr → Prop
  | _, [] => True
  | Γ, i :: is => (i.Formed ∧ c.Provides Γ i ∧ TakesFirst c.word Γ i) ∧
      c.Takes (typesAfter c.word c.module.returns Γ i) is

def Scope.typesBehind (c : Scope) (Γ : Types) (is : List Ir.Instr) : Types :=
  is.foldl (typesAfter c.word c.module.returns) Γ

theorem Scope.takes_append {is js : List Ir.Instr} :
    c.Takes Γ (is ++ js) ↔ c.Takes Γ is ∧ c.Takes (c.typesBehind Γ is) js := by
  induction is generalizing Γ with
  | nil => exact (and_iff_right trivial).symm
  | cons i is ih =>
    show _ ∧ c.Takes _ (is ++ js) ↔ (_ ∧ c.Takes _ is) ∧ _
    rw [ih]
    exact and_assoc.symm

theorem callee?_of_calls {name : String} (h : i.Calls name) : callee? i = some name := by
  obtain ⟨hop, hhead⟩ := h
  cases hargs : i.args with
  | nil => simp [hargs] at hhead
  | cons x xs =>
    rw [hargs, head?_cons, Option.some.injEq] at hhead
    simp [callee?, hop, hargs, hhead]

/-- The instructions of a function find what they rely on in a scope that has the functions of the
program, the labels of the function and its parameters. -/
theorem Scope.takes_of_closed {p : Ir.Program} {f : Ir.Func} (hclosed : f.Closed p)
    (hformed : f.Formed) (hlabels : ∀ k ∈ f.blocks, k.label ∈ c.names)
    (hfuncs : ∀ name, (∃ h ∈ p.funcs, h.name = name) ∨ (∃ e ∈ p.foreign, e.name = name) →
      ∃ h ∈ c.module.funcs, h.name = name)
    (hparams : ∀ q ∈ f.params, Γ.Defines q.val)
    (htyped : WellTyped c.word c.module.returns Γ f.instrs) : c.Takes Γ f.instrs := by
  -- over the instructions that are left, where the results of those before have types
  have hfrom : ∀ (after before : List Ir.Instr) (Γ : Types), f.instrs = before ++ after →
      (∀ q ∈ f.params, Γ.Defines q.val) → (∀ j ∈ before, ∀ v, j.result = some v → Γ.Defines v) →
      WellTyped c.word c.module.returns Γ after → c.Takes Γ after := by
    intro after
    induction after with
    | nil => exact fun _ _ _ _ _ _ => trivial
    | cons i after ih =>
      intro before Γ hsplit hparams hresults htyped
      have hi : i ∈ f.instrs := by simp [hsplit]
      have hcall : i.op = .call → ∃ name, i.Calls name ∧ ∃ h ∈ c.module.funcs, h.name = name := by
        intro hop
        obtain ⟨name, hcalls, hname⟩ := hclosed.calls i hi hop
        exact ⟨name, hcalls, hfuncs name hname⟩
      refine ⟨⟨hformed.instrs i hi, ⟨fun v hv => ?_, fun l hl => ?_, fun hop => ?_⟩, htyped.1⟩, ?_⟩
      · cases v with
        | temp name id =>
          rcases hclosed.temps before i after hsplit name id hv with ⟨q, hq, hval⟩ | ⟨j, hj, hr⟩
          · exact hval ▸ hparams q hq
          · exact hresults j hj _ hr
        | _ => trivial
      · obtain ⟨k, hk, rfl⟩ := hclosed.labels i hi l hl
        exact hlabels k hk
      · obtain ⟨name, hcalls, hname⟩ := hcall hop
        exact ⟨name, hcalls.2, hname⟩
      · refine ih (before ++ [i]) _ (by simp [hsplit]) (fun q hq => (hparams q hq).typesAfter i) ?_
          htyped.2
        intro j hj v hr
        rcases mem_append.1 hj with hj | hj
        · exact (hresults j hj v hr).typesAfter i
        · obtain rfl := mem_singleton.1 hj
          refine defines_result (hformed.instrs j hi) (fun hop => ?_) hr
          obtain ⟨name, hcalls, -⟩ := hcall hop
          rw [callee?_of_calls hcalls]
          rfl
  exact hfrom f.instrs [] Γ rfl hparams (by simp) htyped

/-! ## Building -/

/-- A body where all is accepted and `P` holds, or where something is not and a name that the module
does not have has been refused. -/
def Body.Passes (b : Body) (m : Module) (accepted P : Prop) : Prop :=
  accepted ∧ P ∨ ¬accepted ∧ ∃ name, b.refusal = some (.unknownGlobal name) ∧ ¬m.Has name

theorem yields_rest {m : Module} {accepted rest : Prop} {P : Body → Prop} {x : BuildM Unit}
    (hfirst : b.Passes m accepted (b.refusal = none))
    (hrest : accepted → Yields x b fun _ b' => b'.Passes m rest (P b')) :
    Yields (if b.refusal.isNone = true then x else pure ()) b fun _ b' =>
      b'.Passes m (accepted ∧ rest) (P b') := by
  rcases hfirst with ⟨hacc, hnone⟩ | ⟨hnot, name, hsome, hname⟩
  · rw [if_pos (by rw [hnone]; rfl)]
    refine (hrest hacc).mono fun _ b' h' => ?_
    exact h'.imp (fun h => ⟨⟨hacc, h.1⟩, h.2⟩) (fun h => ⟨fun hall => h.1 hall.2, h.2⟩)
  · rw [if_neg (by simp [hsome])]
    exact yields_pure.2 (.inr ⟨fun hall => hnot hall.1, name, hsome, hname⟩)

theorem Body.Stands.passes {c : Site} {known : Prop} (h : b.Stands c ended Γ known) :
    b.Passes c.module known (b.refusal = none) := by
  cases hb : b.refusal with
  | none => exact .inl ⟨h.refusal.1 hb, rfl⟩
  | some r =>
    obtain ⟨name, rfl, hname⟩ := h.refused r hb
    exact .inr ⟨fun hk => by simp [h.refusal.2 hk] at hb, name, hb, hname⟩

theorem Body.Stands.buildInstrs {c : Site} {is : List Ir.Instr} (h : b.Stands c ended Γ True)
    (his : c.Takes Γ is) :
    Yields (buildInstrs is) b fun _ b' => b'.Passes c.module (∀ i ∈ is, c.module.Accepts i)
      (b'.Stands c (fun k => ended k ∨ (∃ i ∈ is, i.op.isTerminator = true) ∧ k = c.current)
        (c.typesBehind Γ is) True) := by
  induction is generalizing b ended Γ with
  | nil => exact yields_pure.2 (.inl ⟨by simp, h.weaken (by simp)⟩)
  | cons i is ih =>
    obtain ⟨⟨hformed, hadmits, hfits⟩, his⟩ := his
    rw [Llvm.buildInstrs, yields_bind]
    refine (builds_of_takesFirst h hformed hadmits hfits).mono fun _ b1 h1 => ?_
    simp only [yields_bind, yields_get, forall_mem_cons]
    replace h1 := h1.congr (iff_of_eq (true_and _))
    refine yields_rest h1.passes fun hacc => ?_
    refine (ih (h1.congr (iff_true_intro hacc)) his).mono fun _ b2 h2 => ?_
    refine h2.imp_left fun h2 => ⟨h2.1, h2.2.weaken fun k hk => ?_⟩
    unfold endedAfter
    rcases hk with hk | ⟨⟨j, hj, hterm⟩, hk⟩
    · exact .inl (.inl hk)
    · rcases mem_cons.1 hj with rfl | hj
      · exact .inl (.inr ⟨hterm, hk⟩)
      · exact .inr ⟨⟨j, hj, hterm⟩, hk⟩

def Scope.place (c : Scope) (label : String) : Nat := (lastIndex? c.names (· == label)).getD 0

theorem Scope.place_of_nodup (h : c.names.toList.Nodup) {n : Nat} (hn : n < c.names.size) :
    c.place c.names[n] = n := by
  have hsome : (lastIndex? c.names (· == c.names[n])).isSome = true :=
    isSome_lastIndex?.2 ⟨c.names[n], Array.getElem_mem hn, by simp⟩
  obtain ⟨k, hk⟩ := Option.isSome_iff_exists.1 hsome
  obtain ⟨l, hl, heq⟩ := lastIndex?_some hk
  rw [Scope.place, hk, Option.getD_some]
  obtain ⟨hlt, rfl⟩ := Array.getElem?_eq_some_iff.1 hl
  rw [beq_iff_eq, ← Array.getElem_toList hlt, ← Array.getElem_toList hn] at heq
  exact h.getElem_inj_iff.1 heq

theorem Body.Stands.buildBlocks {j : Nat} {ks : List Ir.Block} (h : b.Stands ⟨c, j⟩ ended Γ True)
    (hends : ∀ k ∈ ks, ∃ i ∈ k.instrs, i.op.isTerminator = true)
    (htakes : c.Takes Γ (ks.flatMap (·.instrs))) :
    Yields (buildBlocks ks) b fun _ b' =>
      b'.Passes c.module (∀ k ∈ ks, ∀ i ∈ k.instrs, c.module.Accepts i)
        (∃ j' Γ', b'.Stands ⟨c, j'⟩ (fun n => ended n ∨ ∃ k ∈ ks, n = c.place k.label) Γ'
          True) := by
  induction ks generalizing b ended Γ j with
  | nil => exact yields_pure.2 (.inl ⟨by simp, j, Γ, h.weaken (by simp)⟩)
  | cons k ks ih =>
    obtain ⟨hend, hends⟩ := forall_mem_cons.1 hends
    obtain ⟨hfirst, hrest⟩ := Scope.takes_append.1 htakes
    have hplace : (lastIndex? b.blocks (·.name == k.label)).getD 0 = c.place k.label := by
      unfold Scope.place
      rw [← h.names, lastIndex?_map]
    simp only [Llvm.buildBlocks, yields_bind, yields_get, yields_set, forall_mem_cons, hplace]
    have hset : Body.Stands ⟨c, c.place k.label⟩ ended Γ True
        { b with current := c.place k.label } := { h with current := rfl }
    refine (hset.buildInstrs hfirst).mono fun _ b1 h1 => ?_
    refine yields_rest (h1.imp_left fun h1 => ⟨h1.1, h1.2.refusal.2 trivial⟩) fun hacc => ?_
    have h1 := (h1.resolve_right fun hnot => hnot.1 hacc).2
    refine (ih h1 hends hrest).mono fun _ b2 h2 => h2.imp_left fun h2 => ⟨h2.1, ?_⟩
    obtain ⟨j', Γ', h2⟩ := h2.2
    refine ⟨j', Γ', h2.weaken fun n hn => ?_⟩
    rcases hn with hn | ⟨l, hl, hn⟩
    · exact .inl (.inl hn)
    · rcases mem_cons.1 hl with rfl | hl
      · exact .inl (.inr ⟨hend, hn⟩)
      · exact .inr ⟨l, hl, hn⟩

end Quadruple.Llvm
