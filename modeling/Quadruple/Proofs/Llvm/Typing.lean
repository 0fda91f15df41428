import Quadruple.Output.Llvm.Build
import Quadruple.Proofs.Ir.Formed
import Quadruple.Proofs.Yields

/-!
# Types in a module

A value of a module has a type of its own, whatever it is wanted as: only a constant takes on the
type where it stands. `WellTyped` goes through instructions in order, notes the types of their
results and says where stores, comparisons and branches get the types that they take.

Main statement: `builds_of_takesFirst`. An instruction that is formed and fits the types is built,
and it is refused just where it uses a name that the module does not have.
-/

namespace Quadruple.Llvm

open List

/-! ## Types of values -/

abbrev Types := List (String × Scalar)

def operandTy (word : Scalar) (Γ : Types) (want : Scalar) (v : Ir.Value) : Scalar :=
  match v with
  | .float .. => .double
  | .global _ => word
  | .temp .. => (Γ.lookup v.shown).getD want
  | .const _ | .label _ | .missing => want

def firstTy (word : Scalar) (Γ : Types) (want : Scalar) (i : Ir.Instr) : Scalar :=
  match i.args with
  | v :: _ => operandTy word Γ want v
  | [] => want

def comparedTy (word : Scalar) (i : Ir.Instr) : Scalar :=
  if i.operandTy = .none then scalar word i.ty else scalar word i.operandTy

/-- Whether a comparison of operands that are wanted as `want` takes one of type `ty`. -/
def Compares (want ty : Scalar) : Prop := if want = .double then ty = .double else ty.isInt = true

/-- Whether the first operand of an instruction has a type that the instruction takes. -/
def TakesFirst (word : Scalar) (Γ : Types) (i : Ir.Instr) : Prop :=
  match i.op with
  | .store => firstTy word Γ (scalar word i.ty) i = scalar word i.ty
  | .ceq | .cne | .clt | .cgt | .cle | .cge =>
    Compares (comparedTy word i) (firstTy word Γ (comparedTy word i) i)
  | .jnz => (firstTy word Γ .i32 i).isInt = true
  | _ => True

/-- The type of the result of an instruction, where `returns` gives those of functions. -/
def resultTy? (word : Scalar) (returns : String → Scalar) (Γ : Types) (i : Ir.Instr) :
    Option Scalar :=
  let ty := scalar word i.ty
  match i.op with
  | .alloc => some word
  | .load | .extsw => some ty
  | .copy | .add | .sub | .mul | .div | .rem | .and | .or | .xor | .shl | .sar =>
    some (firstTy word Γ ty i)
  | .neg => some (if ty = .double then firstTy word Γ ty i else ty)
  | .ceq | .cne | .clt | .cgt | .cle | .cge | .ftosi => some .i32
  | .swtof => some .double
  | .call => (callee? i).map returns
  | .store | .jmp | .jnz | .ret | .unnamed _ => none

def note (Γ : Types) (result : Option Ir.Value) (ty : Scalar) : Types :=
  match result.bind Ir.Value.text? with
  | some text => (text, ty) :: Γ
  | none => Γ

def typesAfter (word : Scalar) (returns : String → Scalar) (Γ : Types) (i : Ir.Instr) : Types :=
  (resultTy? word returns Γ i).elim Γ (note Γ i.result)

def WellTyped (word : Scalar) (returns : String → Scalar) : Types → List Ir.Instr → Prop
  | _, [] => True
  | Γ, i :: is => TakesFirst word Γ i ∧ WellTyped word returns (typesAfter word returns Γ i) is

instance (want ty : Scalar) : Decidable (Compares want ty) := by
  unfold Compares
  infer_instance

instance (word : Scalar) (Γ : Types) (i : Ir.Instr) : Decidable (TakesFirst word Γ i) := by
  unfold TakesFirst
  cases i.op <;> infer_instance

instance decidableTyped (word : Scalar) (returns : String → Scalar) :
    (Γ : Types) → (is : List Ir.Instr) → Decidable (WellTyped word returns Γ is)
  | _, [] => inferInstanceAs (Decidable True)
  | Γ, i :: is =>
    have := decidableTyped word returns (typesAfter word returns Γ i) is
    inferInstanceAs (Decidable (_ ∧ _))

/-! ## Names of a module -/

def Module.Has (m : Module) (name : String) : Prop :=
  (∃ g ∈ m.globals, g.name = name) ∨ ∃ f ∈ m.funcs, f.name = name

def Module.Knows (m : Module) : Ir.Value → Prop
  | .global name => m.Has name
  | _ => True

/-- The values that an instruction computes with: all its operands but the callee of a call. -/
def computedWith (i : Ir.Instr) : List Ir.Value := if i.op = .call then i.args.drop 1 else i.args

def Module.Accepts (m : Module) (i : Ir.Instr) : Prop := ∀ v ∈ computedWith i, m.Knows v

def Module.returns (m : Module) (name : String) : Scalar :=
  match (lastIndex? m.funcs (·.name == name)).bind (m.funcs[·]?) with
  | some f => f.sig.ret
  | none => .void

section LastIndex

variable {α β : Type} {a : Array α} {p : α → Bool}

theorem lastIndexBelow?_some {n k : Nat} (h : lastIndexBelow? a p n = some k) :
    ∃ x, a[k]? = some x ∧ p x = true := by
  induction n with
  | zero => cases h
  | succ n ih =>
    unfold lastIndexBelow? at h
    split at h
    · next hp =>
      cases h
      exact (Option.any_eq_true _ _).1 hp
    · exact ih h

theorem lastIndex?_some {k : Nat} (h : lastIndex? a p = some k) :
    ∃ x, a[k]? = some x ∧ p x = true :=
  lastIndexBelow?_some h

theorem lastIndexBelow?_bind (n : Nat) :
    (lastIndexBelow? a p n).bind (a[·]?) = (a.toList.take n).reverse.find? p := by
  induction n with
  | zero => rfl
  | succ n ih =>
    unfold lastIndexBelow?
    rw [take_add_one, reverse_append, find?_append, ← ih, Array.getElem?_toList]
    cases hx : a[n]? with
    | none => rfl
    | some x => cases hp : p x <;> simp [hx, hp]

theorem lastIndex?_bind : (lastIndex? a p).bind (a[·]?) = a.toList.reverse.find? p := by
  rw [lastIndex?, lastIndexBelow?_bind, ← Array.length_toList, take_length]

theorem isSome_lastIndex? : (lastIndex? a p).isSome = true ↔ ∃ x ∈ a, p x = true := by
  have hbind : (lastIndex? a p).isSome = ((lastIndex? a p).bind (a[·]?)).isSome := by
    cases h : lastIndex? a p with
    | none => rfl
    | some k =>
      obtain ⟨x, hx, -⟩ := lastIndex?_some h
      simp [hx]
  rw [hbind, lastIndex?_bind, find?_isSome]
  simp

theorem lastIndexBelow?_map (f : β → α) (b : Array β) (n : Nat) :
    lastIndexBelow? (b.map f) p n = lastIndexBelow? b (fun x => p (f x)) n := by
  induction n with
  | zero => rfl
  | succ n ih =>
    unfold lastIndexBelow?
    rw [ih, Array.getElem?_map, Option.any_map]

theorem lastIndex?_map (f : β → α) (b : Array β) :
    lastIndex? (b.map f) p = lastIndex? b fun x => p (f x) := by
  rw [lastIndex?, Array.size_map, lastIndexBelow?_map, lastIndex?]

end LastIndex

/-! ## Bodies in the making -/

def Body.types (b : Body) : Types := b.values.map fun p => (p.1, p.2.ty)

theorem lookup_types (b : Body) (text : String) :
    b.types.lookup text = (b.values.lookup text).map Operand.ty := by
  unfold Body.types
  induction b.values with
  | nil => rfl
  | cons p ps ih =>
    rw [map_cons, lookup_cons, lookup_cons, ih]
    split <;> rfl

theorem exists_name_iff {α : Type} {a : Array α} {f : α → String} {name : String} :
    (lastIndex? a (f · == name)).isSome = true ↔ ∃ x ∈ a, f x = name := by
  rw [isSome_lastIndex?]
  simp only [beq_iff_eq]

def Body.Ended (b : Body) (k : Nat) : Prop :=
  ∃ x, b.blocks[k]? = some x ∧ x.terminator.isSome = true

def Scalar.IsPlain (ty : Scalar) : Prop := ty.isSized = true ∨ ty = .double

def Scalar.IsWord (ty : Scalar) : Prop := ty = .i32 ∨ ty = .i64

variable {ty : Scalar}

theorem Scalar.IsWord.isPlain (h : ty.IsWord) : ty.IsPlain := by
  rcases h with rfl | rfl <;> exact .inl rfl

theorem isPlain_scalar {word : Scalar} (hword : word.IsWord) {ty : Ir.Ty} (hty : ty.IsData) :
    (scalar word ty).IsPlain := by
  rcases hty with rfl | rfl | rfl
  · exact .inl rfl
  · exact .inr rfl
  · exact hword.isPlain

/-- What stays as it is while a body is built: the type of addresses, the module, what the function
returns and the names of its blocks. -/
structure Scope where
  word : Scalar
  module : Module
  ret : Scalar
  names : Array String
  isWord : word.IsWord
  isPlain : ret.IsPlain

structure Site extends Scope where
  current : Nat

/-- A body at a site, where the blocks among `ended` have ended, the values have the types `Γ` and
nothing has been refused just if `known` holds. What is refused is a name that the module does not
have. -/
structure Body.Stands (c : Site) (ended : Nat → Prop) (Γ : Types) (known : Prop) (b : Body) :
    Prop where
  word : b.word = c.word
  module : b.module = c.module
  ret : b.ret = c.ret
  names : b.blocks.map (·.name) = c.names
  current : b.current = c.current
  ended : ∀ k < c.names.size, ended k → b.Ended k
  types : b.types = Γ
  refusal : b.refusal = none ↔ known
  refused : ∀ r, b.refusal = some r → ∃ name, r = .unknownGlobal name ∧ ¬c.module.Has name

variable {c : Site} {ended : Nat → Prop} {Γ : Types} {known : Prop} {b : Body} {name : String}

section Steps

variable (h : b.Stands c ended Γ known)
include h

theorem Body.Stands.congr {known' : Prop} (hk : known ↔ known') :
    b.Stands c ended Γ known' := { h with refusal := h.refusal.trans hk }

theorem Body.Stands.weaken {ended' : Nat → Prop} (hk : ∀ k, ended' k → ended k) :
    b.Stands c ended' Γ known :=
  { h with ended := fun k hlt hk' => h.ended k hlt (hk k hk') }

theorem Body.Stands.modifyBlock {f : Block → Block} (hname : ∀ x, (f x).name = x.name)
    (hend : ∀ x, x.terminator.isSome = true → (f x).terminator.isSome = true) (n : Nat) :
    Body.Stands c ended Γ known
      { b with nextInstr := n, blocks := b.blocks.modify b.current f } := by
  refine { h with names := ?_, ended := fun k hlt hk => ?_ }
  · rw [← h.names]
    refine Array.ext_getElem? fun j => ?_
    rw [Array.getElem?_map, Array.getElem?_map, Array.getElem?_modify]
    split
    · rw [Option.map_map]
      exact congrArg (Option.map · _) (funext hname)
    · rfl
  · obtain ⟨x, hx, hterm⟩ := h.ended k hlt hk
    unfold Body.Ended
    rw [Array.getElem?_modify]
    split
    · exact ⟨f x, by rw [hx]; rfl, hend x hterm⟩
    · exact ⟨x, hx, hterm⟩

theorem Body.Stands.addInstr (i : Instr) :
    Yields (addInstr i) b fun _ b' => b'.Stands c ended Γ known :=
  yields_modifyGet.2
    (h.modifyBlock (f := fun k => { k with instrs := (b.nextInstr, i) :: k.instrs })
      (fun _ => rfl) (fun _ hx => hx) _)

theorem Body.Stands.addValue (ty : Scalar) (i : Instr) :
    Yields (addValue ty i) b fun x b' => x.ty = ty ∧ b'.Stands c ended Γ known := by
  rw [Llvm.addValue, yields_bind]
  exact (h.addInstr i).mono fun _ _ h' => yields_pure.2 ⟨rfl, h'⟩

theorem Body.Stands.refuse (hname : ¬c.module.Has name) :
    Yields (refuse (.unknownGlobal name)) b fun _ b' => b'.Stands c ended Γ False := by
  refine yields_modify.2 { h with refusal := ?_, refused := fun r hr => ?_ }
  · cases b.refusal <;> simp
  · cases hb : b.refusal with
    | none =>
      rw [hb] at hr
      exact ⟨name, (Option.some.inj hr).symm, hname⟩
    | some r' =>
      rw [hb] at hr
      exact h.refused r (hb.trans hr)

theorem Body.Stands.terminate (t : Terminator) :
    Yields (terminate t) b fun _ b' => b'.Stands c (fun k => ended k ∨ k = c.current) Γ known := by
  have hmod := h.modifyBlock (f := fun k => { k with terminator := some t }) (fun _ => rfl)
    (fun _ _ => rfl) b.nextInstr
  refine yields_modify.2 { hmod with ended := fun k hlt hk => ?_ }
  rcases hk with hk | rfl
  · exact hmod.ended k hlt hk
  · rw [← h.names, Array.size_map] at hlt
    refine ⟨{ b.blocks[c.current] with terminator := some t }, ?_, rfl⟩
    rw [h.current, Array.getElem?_modify, if_pos rfl, Array.getElem?_eq_getElem hlt]
    rfl

theorem Body.Stands.define (r : Option Ir.Value) (x : Operand) :
    Yields (define r x) b fun _ b' => b'.Stands c ended (note Γ r x.ty) known := by
  unfold Llvm.define note
  cases r.bind Ir.Value.text? with
  | some text =>
    refine yields_modify.2 { h with types := ?_ }
    rw [← h.types]
    rfl
  | none => exact yields_pure.2 h

/-! ## Operands -/

/-- Whether a value is there: if it is a temporary, then it has a type. -/
def Types.Defines (Γ : Types) : Ir.Value → Prop
  | .temp name id => (Γ.lookup (Ir.Value.temp name id).shown).isSome = true
  | _ => True

def Types.HasOperand (Γ : Types) (v : Ir.Value) : Prop := v.IsOperand ∧ Γ.Defines v

theorem Body.Stands.addressOf (name : String) :
    Yields (addressOf name) b fun x b' => x.ty = c.word ∧
      b'.Stands c ended Γ (known ∧ c.module.Has name) := by
  simp only [Llvm.addressOf, yields_bind, yields_get]
  have hglobals : (lastIndex? c.module.globals (·.name == name)).isSome = true ↔ _ :=
    exists_name_iff
  have hfuncs : (lastIndex? c.module.funcs (·.name == name)).isSome = true ↔ _ := exists_name_iff
  rw [h.module]
  -- an address of something that is there
  have hfound : ∀ (src : Addressed), c.module.Has name →
      Yields (Llvm.addValue b.word (.ptrToInt src b.word)) b fun x b' => x.ty = c.word ∧
        b'.Stands c ended Γ (known ∧ c.module.Has name) := by
    intro src hhas
    refine (h.addValue b.word _).mono fun x b' h' => ⟨h'.1.trans h.word, ?_⟩
    exact h'.2.congr (iff_self_and.2 fun _ => hhas)
  cases hg : lastIndex? c.module.globals (·.name == name) with
  | some i => exact hfound _ (.inl (hglobals.1 (by rw [hg]; rfl)))
  | none =>
    cases hf : lastIndex? c.module.funcs (·.name == name) with
    | some i => exact hfound _ (.inr (hfuncs.1 (by rw [hf]; rfl)))
    | none =>
      have hnot : ¬c.module.Has name := by
        rintro (hhas | hhas)
        · simpa [hg] using hglobals.2 hhas
        · simpa [hf] using hfuncs.2 hhas
      simp only [yields_bind]
      refine (h.refuse hnot).mono fun _ b' h' => yields_pure.2 ⟨h.word, h'.congr ?_⟩
      exact ⟨False.elim, fun hk => hnot hk.2⟩

variable {want : Scalar} {z : Operand} {l : String} {xs : List Ir.Value}

theorem Body.Stands.operand {v : Ir.Value} (hv : Γ.HasOperand v) (hwant : want.IsPlain) :
    Yields (operand v want) b fun x b' => x.ty = operandTy c.word Γ want v ∧
      b'.Stands c ended Γ (known ∧ c.module.Knows v) := by
  have hsame : b.Stands c ended Γ (known ∧ True) := h.congr (and_iff_left trivial).symm
  cases v with
  | const n =>
    simp only [Llvm.operand]
    rcases hwant with hsized | rfl
    · rw [if_pos hsized]
      exact yields_pure.2 ⟨rfl, hsame⟩
    · exact yields_pure.2 ⟨rfl, hsame⟩
  | float x ty => exact yields_pure.2 ⟨rfl, hsame⟩
  | global name => exact h.addressOf name
  | temp name id =>
    simp only [Llvm.operand, yields_bind, yields_get]
    have hlookup := lookup_types b (Ir.Value.temp name id).shown
    rw [h.types] at hlookup
    have hdef := hv.2
    simp only [Types.Defines, hlookup, Option.isSome_map] at hdef
    obtain ⟨x, hx⟩ := Option.isSome_iff_exists.1 hdef
    rw [hx] at hlookup ⊢
    refine yields_pure.2 ⟨?_, hsame⟩
    simp [operandTy, hlookup]
  | label | missing => exact hv.1.elim

variable {i : Ir.Instr} {x y : Ir.Value} {place : Nat}

theorem Body.Stands.operandAt (hargs : i.args[place]? = some x) (hx : Γ.HasOperand x)
    (hwant : want.IsPlain) :
    Yields (operandAt i place want) b fun z b' => z.ty = operandTy c.word Γ want x ∧
      b'.Stands c ended Γ (known ∧ c.module.Knows x) := by
  rw [Llvm.operandAt, yields_bind, argument, hargs]
  exact yields_pure.2 (h.operand hx hwant)

theorem Body.Stands.pointerAt {elem : Scalar} (hargs : i.args[place]? = some x)
    (hx : Γ.HasOperand x) : Yields (pointerAt i place elem) b fun _ b' =>
      b'.Stands c ended Γ (known ∧ c.module.Knows x) := by
  simp only [Llvm.pointerAt, yields_bind, yields_get, h.word]
  refine (h.operandAt hargs hx c.isWord.isPlain).mono fun z b1 h1 => ?_
  exact h1.2.addInstr _

/-! ## Instructions -/

/-- A value is computed and becomes the result. -/
theorem Body.Stands.compute (ty : Scalar) (op : Instr) (r : Option Ir.Value) :
    Yields (Llvm.addValue ty op) b fun z b' =>
      Yields (Llvm.define r z) b' fun _ b' => b'.Stands c ended (note Γ r ty) known :=
  (h.addValue ty op).mono fun z _ h' => h'.1 ▸ h'.2.define r z

theorem Body.Stands.buildAlloc {n : Int} (hargs : i.args = [.const n]) :
    Yields (buildAlloc i) b fun _ b' => b'.Stands c ended (note Γ i.result c.word) known := by
  simp only [Llvm.buildAlloc, argument, hargs, getElem?_cons_zero, yields_bind, yields_pure,
    yields_get, h.word]
  exact (h.addInstr _).mono fun slot b1 h1 => h1.compute _ _ _

theorem Body.Stands.buildLoad (ty : Scalar) (hargs : i.args = [x]) (hx : Γ.HasOperand x) :
    Yields (do
      let ptr ← Llvm.pointerAt i 0 ty
      Llvm.define i.result (← Llvm.addValue ty (.load ty ptr))) b fun _ b' =>
        b'.Stands c ended (note Γ i.result ty) (known ∧ c.module.Knows x) := by
  simp only [yields_bind]
  exact (h.pointerAt (by rw [hargs]; rfl) hx).mono fun ptr b1 h1 => h1.compute _ _ _

theorem Body.Stands.buildStore (hty : ty.IsPlain) (hargs : i.args = [x, y]) (hx : Γ.HasOperand x)
    (hy : Γ.HasOperand y) (hfits : operandTy c.word Γ ty x = ty) :
    Yields (buildStore i ty) b fun _ b' =>
      b'.Stands c ended Γ ((known ∧ c.module.Knows x) ∧ c.module.Knows y) := by
  simp only [Llvm.buildStore, yields_bind]
  refine (h.operandAt (by rw [hargs]; rfl) hx hty).mono fun z b1 h1 => ?_
  refine (h1.2.pointerAt (by rw [hargs]; rfl) hy).mono fun ptr b2 h2 => ?_
  have hz : z.ty = ty := h1.1.trans hfits
  have hsized : ty ≠ .unsized := by
    rintro rfl
    rcases hty with hty | hty <;> cases hty
  rw [if_neg (by simp [hz, hsized]), if_neg (by simp [hz]), yields_bind]
  exact (h2.addInstr _).mono fun _ _ h3 => yields_pure.2 h3

theorem Body.Stands.buildBinary (hty : ty.IsPlain) (hargs : i.args = [x, y]) (hx : Γ.HasOperand x)
    (hy : Γ.HasOperand y) (name : String) : Yields (buildBinary i ty name) b fun _ b' =>
      b'.Stands c ended (note Γ i.result (operandTy c.word Γ ty x))
        ((known ∧ c.module.Knows x) ∧ c.module.Knows y) := by
  simp only [Llvm.buildBinary, yields_bind]
  refine (h.operandAt (by rw [hargs]; rfl) hx hty).mono fun z b1 h1 => ?_
  refine (h1.2.operandAt (by rw [hargs]; rfl) hy hty).mono fun w b2 h2 => ?_
  rw [← h1.1]
  exact h2.2.compute _ _ _

theorem Body.Stands.buildNeg (hty : ty.IsPlain) (hargs : i.args = [x]) (hx : Γ.HasOperand x) :
    Yields (buildNeg i ty) b fun _ b' =>
      b'.Stands c ended (note Γ i.result (if ty = .double then operandTy c.word Γ ty x else ty))
        (known ∧ c.module.Knows x) := by
  simp only [Llvm.buildNeg, yields_bind]
  refine (h.operandAt (by rw [hargs]; rfl) hx hty).mono fun z b1 h1 => ?_
  split
  · rw [← h1.1]
    exact yields_bind.2 (h1.2.compute _ _ _)
  · next hdouble =>
    rw [if_pos (hty.resolve_right hdouble)]
    exact yields_bind.2 (h1.2.compute _ _ _)

theorem Body.Stands.buildConvert {source : Scalar} (hsource : source.IsPlain) (hargs : i.args = [x])
    (hx : Γ.HasOperand x) (name : String) (result : Scalar) :
    Yields (buildConvert i name source result) b fun _ b' =>
      b'.Stands c ended (note Γ i.result result) (known ∧ c.module.Knows x) := by
  simp only [Llvm.buildConvert, yields_bind]
  exact (h.operandAt (by rw [hargs]; rfl) hx hsource).mono fun z b1 h1 => h1.2.compute _ _ _

theorem Body.Stands.addIntCompare (name : String) (hz : z.ty.isInt = true) (w : Operand) :
    Yields (addIntCompare name z w) b fun _ b' => b'.Stands c ended Γ known := by
  rw [Llvm.addIntCompare, if_neg (by simp [hz])]
  exact h.addInstr _

theorem Body.Stands.addDoubleCompare (name : String) (hz : z.ty = .double) (w : Operand) :
    Yields (addDoubleCompare name z w) b fun _ b' => b'.Stands c ended Γ known := by
  rw [Llvm.addDoubleCompare, if_neg (by simp [hz])]
  exact h.addInstr _

theorem Body.Stands.buildCompare (hty : (comparedTy c.word i).IsPlain) (hargs : i.args = [x, y])
    (hx : Γ.HasOperand x) (hy : Γ.HasOperand y)
    (hfits : Compares (comparedTy c.word i) (operandTy c.word Γ (comparedTy c.word i) x)) :
    Yields (buildCompare i (scalar c.word i.ty)) b fun _ b' =>
      b'.Stands c ended (note Γ i.result .i32) ((known ∧ c.module.Knows x) ∧ c.module.Knows y) := by
  simp only [Llvm.buildCompare, yields_bind, yields_get, h.word, ← comparedTy.eq_def]
  refine (h.operandAt (by rw [hargs]; rfl) hx hty).mono fun z b1 h1 => ?_
  refine (h1.2.operandAt (by rw [hargs]; rfl) hy hty).mono fun w b2 h2 => ?_
  rw [← h1.1] at hfits
  unfold Compares at hfits
  split
  · next hdouble =>
    rw [if_pos hdouble] at hfits
    exact yields_bind.2 ((h2.2.addDoubleCompare _ hfits w).mono fun p b3 h3 =>
      yields_bind.2 (h3.compute _ _ _))
  · next hint =>
    rw [if_neg hint] at hfits
    exact yields_bind.2 ((h2.2.addIntCompare _ hfits w).mono fun p b3 h3 =>
      yields_bind.2 (h3.compute _ _ _))

theorem Body.Stands.blockAt (hargs : i.args[place]? = some (.label l)) (hl : l ∈ c.names) :
    Yields (blockAt i place) b fun _ b' => b'.Stands c ended Γ known := by
  simp only [Llvm.blockAt, yields_bind, yields_get, argument, hargs, yields_pure]
  have hfound : (lastIndex? b.blocks (·.name == l)).isSome = true := by
    rw [← h.names] at hl
    exact exists_name_iff.2 (Array.mem_map.1 hl)
  obtain ⟨k, hk⟩ := Option.isSome_iff_exists.1 hfound
  rw [hk]
  exact yields_pure.2 h

theorem Body.Stands.buildBranch {m : String} (hargs : i.args = [x, .label l, .label m])
    (hx : Γ.HasOperand x) (hl : l ∈ c.names) (hm : m ∈ c.names)
    (hfits : (operandTy c.word Γ .i32 x).isInt = true) : Yields (buildBranch i) b fun _ b' =>
      b'.Stands c (fun k => ended k ∨ k = c.current) Γ (known ∧ c.module.Knows x) := by
  simp only [Llvm.buildBranch, yields_bind]
  refine (h.operandAt (by rw [hargs]; rfl) hx (.inl rfl)).mono fun z b1 h1 => ?_
  refine (h1.2.addIntCompare _ (by rw [h1.1]; exact hfits) _).mono fun p b2 h2 => ?_
  refine (h2.blockAt (by rw [hargs]; rfl) hl).mono fun t b3 h3 => ?_
  refine (h3.blockAt (by rw [hargs]; rfl) hm).mono fun f b4 h4 => ?_
  exact h4.terminate _

theorem Body.Stands.buildRet (hargs : i.args = [x]) (hx : Γ.HasOperand x) :
    Yields (buildRet i) b fun _ b' =>
      b'.Stands c (fun k => ended k ∨ k = c.current) Γ (known ∧ c.module.Knows x) := by
  simp only [Llvm.buildRet, yields_bind, yields_get, h.ret]
  have hvalue : (i.args.isEmpty || decide (c.ret = .void)) = false := by
    have hvoid : c.ret ≠ .void := by
      intro hvoid
      rcases hvoid ▸ c.isPlain with hplain | hplain <;> cases hplain
    simp [hargs, hvoid]
  rw [if_neg (by simp [hvalue])]
  simp only [yields_bind]
  exact (h.operandAt (by rw [hargs]; rfl) hx c.isPlain).mono fun z b1 h1 => h1.2.terminate _

theorem Body.Stands.buildLeave (hargs : i.args = []) : Yields (Llvm.buildRet i) b fun _ b' =>
      b'.Stands c (fun k => ended k ∨ k = c.current) Γ known := by
  simp only [Llvm.buildRet, yields_bind, yields_get, hargs, isEmpty_nil, Bool.true_or, if_true]
  exact h.terminate _

theorem Body.Stands.operands {vs : List (Ir.Value × Nat)} (hvs : ∀ p ∈ vs, Γ.HasOperand p.1)
    {want : Nat → Scalar} (hwant : ∀ n, (want n).IsPlain) :
    Yields (vs.mapM fun p => Llvm.operand p.1 (want p.2)) b fun _ b' =>
      b'.Stands c ended Γ (known ∧ ∀ p ∈ vs, c.module.Knows p.1) := by
  induction vs generalizing b known with
  | nil => exact yields_pure.2 (h.congr (by simp))
  | cons p vs ih =>
    rw [mapM_cons, yields_bind]
    obtain ⟨hp, hvs⟩ := forall_mem_cons.1 hvs
    refine (h.operand hp (hwant p.2)).mono fun z b1 h1 => ?_
    rw [yields_bind]
    refine (ih h1.2 hvs).mono fun zs b2 h2 => yields_pure.2 (h2.congr ?_)
    rw [forall_mem_cons, and_assoc]

theorem Body.Stands.buildCall (hop : i.op = .call) (hargs : i.args = .global name :: xs)
    (hxs : ∀ x ∈ xs, Γ.HasOperand x) (htys : ∀ t ∈ i.argTys, t.IsData)
    (hname : ∃ f ∈ c.module.funcs, f.name = name) : Yields (buildCall i) b fun _ b' =>
      b'.Stands c ended (note Γ i.result (c.module.returns name))
        (known ∧ ∀ x ∈ xs, c.module.Knows x) := by
  have hcallee : callee? i = some name := by simp [callee?, hop, hargs]
  obtain ⟨k, hk⟩ := Option.isSome_iff_exists.1 (exists_name_iff.2 hname)
  obtain ⟨f, hf, -⟩ := lastIndex?_some hk
  have hreturns : c.module.returns name = f.sig.ret := by simp [Module.returns, hk, hf]
  have hwant : ∀ n : Nat, (scalar c.word ((i.argTys[n]?).getD .ptr)).IsPlain := by
    intro n
    refine isPlain_scalar c.isWord ?_
    cases hn : i.argTys[n]? with
    | none => exact .inr (.inr rfl)
    | some t => exact htys t (mem_of_getElem? hn)
  simp only [Llvm.buildCall, yields_bind, yields_get, h.word, h.module, hcallee, Option.bind_some,
    hk, hargs, drop_one, tail_cons, hf]
  have hzip : ∀ p ∈ xs.zipIdx, Γ.HasOperand p.1 := fun p hp => hxs p.1 (fst_mem_of_mem_zipIdx hp)
  refine Yields.mono (h.operands hzip hwant) fun zs b1 h1 => ?_
  rw [hreturns]
  refine (h1.compute _ _ _).mono fun r b2 h2 => h2.mono fun _ b3 h3 =>
    h3.congr (and_congr_right fun _ => ?_)
  rw [← forall_mem_map (f := Prod.fst) (P := c.module.Knows), zipIdx_map_fst]

end Steps

/-- What an instruction can rely on: its temporaries are there, its labels are names of blocks, and
what it calls is a function. -/
structure Scope.Provides (c : Scope) (Γ : Types) (i : Ir.Instr) : Prop where
  defined : ∀ v ∈ i.args, Γ.Defines v
  labels : ∀ l, .label l ∈ i.args → l ∈ c.names
  callee : i.op = .call → ∃ name, i.args.head? = some (.global name) ∧
    ∃ f ∈ c.module.funcs, f.name = name

theorem accepts_iff {m : Module} (hop : i.op ≠ .call) :
    m.Accepts i ↔ ∀ v ∈ i.args, m.Knows v := by
  rw [Module.Accepts, computedWith, if_neg hop]

def endedAfter (c : Site) (ended : Nat → Prop) (i : Ir.Instr) : Nat → Prop :=
  fun k => ended k ∨ i.op.isTerminator = true ∧ k = c.current

/-- An instruction is built: its result has its type, and it is refused just where it uses a name
that the module does not have. -/
def Body.Builds (b : Body) (c : Site) (ended : Nat → Prop) (Γ : Types) (known : Prop)
    (i : Ir.Instr) : Prop :=
  Yields (buildInstr i) b fun _ b' => b'.Stands c (endedAfter c ended i)
    (typesAfter c.word c.module.returns Γ i) (known ∧ c.module.Accepts i)

theorem builds_of_result (known' : Prop) (ty : Scalar) (hterm : i.op.isTerminator = false)
    (hty : resultTy? c.word c.module.returns Γ i = some ty)
    (hrun : Yields (buildInstr i) b fun _ b' => b'.Stands c ended (note Γ i.result ty) known')
    (hknown : known' ↔ known ∧ c.module.Accepts i) : b.Builds c ended Γ known i := by
  refine hrun.mono fun _ b' h' => ?_
  rw [typesAfter, hty]
  exact (h'.congr hknown).weaken fun k hk => hk.resolve_right (by simp [hterm])

theorem builds_of_end (known' : Prop) (hty : resultTy? c.word c.module.returns Γ i = none)
    (hrun : Yields (buildInstr i) b fun _ b' =>
      b'.Stands c (fun k => ended k ∨ k = c.current) Γ known')
    (hknown : known' ↔ known ∧ c.module.Accepts i) : b.Builds c ended Γ known i := by
  refine hrun.mono fun _ b' h' => ?_
  rw [typesAfter, hty]
  exact (h'.congr hknown).weaken fun k hk => hk.imp_right And.right

variable (h : b.Stands c ended Γ known)
include h

theorem builds_unary (hop : i.op.isUnary = true) (hty : i.ty.IsData) (hargs : i.args = [x])
    (hx : Γ.HasOperand x) : b.Builds c ended Γ known i := by
  have hplain := isPlain_scalar c.isWord hty
  have hcall : i.op ≠ .call := by
    intro hcall
    simp [hcall, Ir.Op.isUnary] at hop
  have hknown : known ∧ c.module.Knows x ↔ known ∧ c.module.Accepts i := by
    simp [accepts_iff hcall, hargs]
  cases hi : i.op with
  | load =>
    refine builds_of_result _ (scalar c.word i.ty) (by rw [hi]; rfl)
      (by simp only [resultTy?, hi]) ?_ hknown
    simp only [buildInstr, hi, yields_bind, yields_get, h.word]
    simpa only [yields_bind] using h.buildLoad (scalar c.word i.ty) hargs hx
  | copy =>
    refine builds_of_result _ (operandTy c.word Γ (scalar c.word i.ty) x) (by rw [hi]; rfl)
      (by simp only [resultTy?, hi, firstTy, hargs]) ?_ hknown
    simp only [buildInstr, hi, yields_bind, yields_get, h.word]
    refine (h.operandAt (by rw [hargs]; rfl) hx hplain).mono fun z b1 h1 => ?_
    rw [← h1.1]
    exact h1.2.define i.result z
  | neg =>
    refine builds_of_result _ (if scalar c.word i.ty = .double then
      operandTy c.word Γ (scalar c.word i.ty) x else scalar c.word i.ty) (by rw [hi]; rfl)
      (by simp only [resultTy?, hi, firstTy, hargs]) ?_ hknown
    simp only [buildInstr, hi, yields_bind, yields_get, h.word]
    exact h.buildNeg hplain hargs hx
  | extsw =>
    refine builds_of_result _ (scalar c.word i.ty) (by rw [hi]; rfl)
      (by simp only [resultTy?, hi]) ?_ hknown
    simp only [buildInstr, hi, yields_bind, yields_get, h.word]
    exact h.buildConvert (.inl rfl) hargs hx _ _
  | ftosi =>
    refine builds_of_result _ .i32 (by rw [hi]; rfl) (by simp only [resultTy?, hi]) ?_ hknown
    simp only [buildInstr, hi, yields_bind, yields_get]
    exact h.buildConvert (.inr rfl) hargs hx _ _
  | swtof =>
    refine builds_of_result _ .double (by rw [hi]; rfl) (by simp only [resultTy?, hi]) ?_ hknown
    simp only [buildInstr, hi, yields_bind, yields_get]
    exact h.buildConvert (.inl rfl) hargs hx _ _
  | _ => simp [hi, Ir.Op.isUnary] at hop

theorem builds_binary (hop : i.op.isBinary = true) (hty : i.ty.IsData) (hargs : i.args = [x, y])
    (hx : Γ.HasOperand x) (hy : Γ.HasOperand y) : b.Builds c ended Γ known i := by
  have hrun := h.buildBinary (isPlain_scalar c.isWord hty) hargs hx hy
  have hcall : i.op ≠ .call := by
    intro hcall
    simp [hcall, Ir.Op.isBinary] at hop
  have hknown : (known ∧ c.module.Knows x) ∧ c.module.Knows y ↔ known ∧ c.module.Accepts i := by
    simp [accepts_iff hcall, hargs, and_assoc]
  cases hi : i.op with
  | add | sub | mul | div | rem | and | or | xor | shl | sar =>
    refine builds_of_result _ (operandTy c.word Γ (scalar c.word i.ty) x) (by rw [hi]; rfl)
      (by simp only [resultTy?, hi, firstTy, hargs]) ?_ hknown
    simp only [buildInstr, hi, yields_bind, yields_get, h.word]
    exact hrun _
  | _ => simp [hi, Ir.Op.isBinary] at hop

theorem builds_compare (hop : i.op.isComparison = true) (hty : i.operandTy.IsData)
    (hargs : i.args = [x, y]) (hx : Γ.HasOperand x) (hy : Γ.HasOperand y)
    (hfits : TakesFirst c.word Γ i) : b.Builds c ended Γ known i := by
  have hplain : (comparedTy c.word i).IsPlain := by
    unfold comparedTy
    rw [if_neg (by rcases hty with hty | hty | hty <;> simp [hty])]
    exact isPlain_scalar c.isWord hty
  have hcall : i.op ≠ .call := by
    intro hcall
    simp [hcall, Ir.Op.isComparison] at hop
  have hknown : (known ∧ c.module.Knows x) ∧ c.module.Knows y ↔ known ∧ c.module.Accepts i := by
    simp [accepts_iff hcall, hargs, and_assoc]
  cases hi : i.op with
  | ceq | cne | clt | cgt | cle | cge =>
    simp only [TakesFirst, hi, firstTy, hargs] at hfits
    refine builds_of_result _ .i32 (by rw [hi]; rfl) (by simp only [resultTy?, hi]) ?_ hknown
    simp only [buildInstr, hi, yields_bind, yields_get, h.word]
    exact h.buildCompare hplain hargs hx hy hfits
  | _ => simp [hi, Ir.Op.isComparison] at hop

theorem builds_store (hop : i.op = .store) (hty : i.ty.IsData) (hargs : i.args = [x, y])
    (hx : Γ.HasOperand x) (hy : Γ.HasOperand y) (hfits : TakesFirst c.word Γ i) :
    b.Builds c ended Γ known i := by
  simp only [TakesFirst, hop, firstTy, hargs] at hfits
  have hnone : resultTy? c.word c.module.returns Γ i = none := by simp only [resultTy?, hop]
  simp only [Body.Builds, buildInstr, hop, yields_bind, yields_get, h.word]
  refine (h.buildStore (isPlain_scalar c.isWord hty) hargs hx hy hfits).mono fun _ b' h' => ?_
  rw [typesAfter, hnone]
  refine (h'.congr (by simp [accepts_iff, hop, hargs, and_assoc])).weaken fun k hk => ?_
  exact hk.resolve_right (by simp [hop, Ir.Op.isTerminator])

theorem builds_call (hop : i.op = .call) (hargs : i.args = .global name :: xs)
    (hxs : ∀ x ∈ xs, Γ.HasOperand x) (htys : ∀ t ∈ i.argTys, t.IsData)
    (hname : ∃ f ∈ c.module.funcs, f.name = name) : b.Builds c ended Γ known i := by
  refine builds_of_result (known ∧ ∀ x ∈ xs, c.module.Knows x) (c.module.returns name)
    (by rw [hop]; rfl) (by simp [resultTy?, callee?, hop, hargs]) ?_ ?_
  · simp only [buildInstr, hop, yields_bind, yields_get]
    exact h.buildCall hop hargs hxs htys hname
  · rw [Module.Accepts, computedWith, if_pos hop, hargs, drop_one, tail_cons]

theorem builds_of_takesFirst (hi : i.Formed) (hprovides : c.Provides Γ i)
    (hfits : TakesFirst c.word Γ i) : b.Builds c ended Γ known i := by
  have hdef : ∀ x ∈ i.args, Γ.Defines x := hprovides.defined
  cases hi with
  | alloc hop hargs =>
    refine builds_of_result known c.word (by rw [hop]; rfl) (by simp only [resultTy?, hop]) ?_ ?_
    · simp only [buildInstr, hop, yields_bind, yields_get]
      exact h.buildAlloc hargs
    · simp [accepts_iff, hop, hargs, Module.Knows]
  | unary hop hty hargs hx => exact builds_unary h hop hty hargs ⟨hx, hdef _ (by simp [hargs])⟩
  | binary hop hty hargs hx hy =>
    exact builds_binary h hop hty hargs ⟨hx, hdef _ (by simp [hargs])⟩
      ⟨hy, hdef _ (by simp [hargs])⟩
  | compare hop hty hargs hx hy =>
    exact builds_compare h hop hty hargs ⟨hx, hdef _ (by simp [hargs])⟩
      ⟨hy, hdef _ (by simp [hargs])⟩ hfits
  | store hop hty _ hargs hx hy =>
    exact builds_store h hop hty hargs ⟨hx, hdef _ (by simp [hargs])⟩
      ⟨hy, hdef _ (by simp [hargs])⟩ hfits
  | jump hop _ hargs =>
    refine builds_of_end known (by simp only [resultTy?, hop]) ?_ ?_
    · simp only [buildInstr, hop, yields_bind, yields_get]
      refine (h.blockAt (by rw [hargs]; rfl) (hprovides.labels _ (by simp [hargs]))).mono
        fun k b1 h1 => ?_
      exact h1.terminate _
    · simp [accepts_iff, hop, hargs, Module.Knows]
  | @branch x _ _ hop _ hargs hx =>
    simp only [TakesFirst, hop, firstTy, hargs] at hfits
    refine builds_of_end (known ∧ c.module.Knows x) (by simp only [resultTy?, hop]) ?_ ?_
    · simp only [buildInstr, hop, yields_bind, yields_get]
      exact h.buildBranch hargs ⟨hx, hdef _ (by simp [hargs])⟩
        (hprovides.labels _ (by simp [hargs])) (hprovides.labels _ (by simp [hargs])) hfits
    · rw [accepts_iff (by simp [hop]), hargs]
      simp [Module.Knows]
  | leave hop _ hargs =>
    refine builds_of_end known (by simp only [resultTy?, hop]) ?_ ?_
    · simp only [buildInstr, hop, yields_bind, yields_get]
      exact h.buildLeave hargs
    · simp [accepts_iff, hop, hargs]
  | @ret x hop _ hargs hx =>
    refine builds_of_end (known ∧ c.module.Knows x) (by simp only [resultTy?, hop]) ?_ ?_
    · simp only [buildInstr, hop, yields_bind, yields_get]
      exact h.buildRet hargs ⟨hx, hdef _ (by simp [hargs])⟩
    · simp [accepts_iff, hop, hargs]
  | call hop hargs hxs htys =>
    obtain ⟨name, hhead, hname⟩ := hprovides.callee hop
    rw [hargs] at hhead
    cases hhead
    refine builds_call h hop hargs (fun x hx => ⟨hxs x hx, hdef x ?_⟩) htys hname
    rw [hargs]
    exact mem_cons_of_mem _ hx

end Quadruple.Llvm
