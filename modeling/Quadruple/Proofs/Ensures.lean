import Quadruple.Proofs.Yields

/-!
# Operations that may fail

`Ensures x s Q` says that `Q` holds of the result and the state whenever `x` succeeds from `s`. As
for `Yields`, a claim about a composed operation turns into one about its parts.
-/

namespace Quadruple

open List

section Ensures

variable {ε σ α β : Type} {x : EStateM ε σ α} {Q : α → σ → Prop} {s : σ}

/-- If `x` succeeds from `s`, then `Q` holds of its result and the state behind it. -/
def Ensures (x : EStateM ε σ α) (s : σ) (Q : α → σ → Prop) : Prop := ∀ a s', x s = .ok a s' → Q a s'

variable {R : α → σ → Prop} {f : α → EStateM ε σ β} {I : List α → σ → Prop} {xs : List α}

theorem Ensures.mono (h : Ensures x s Q) (hQ : ∀ a s', Q a s' → R a s') : Ensures x s R :=
  fun a s' hx => hQ a s' (h a s' hx)

theorem Yields.ensures (h : Yields x s Q) : Ensures x s Q := by
  obtain ⟨a, s', hx, hq⟩ := h
  intro b t hy
  obtain ⟨rfl, rfl⟩ : a = b ∧ s' = t := by simpa [hx] using hy
  exact hq

theorem Yields.and_ensures (h : Yields x s Q) (h' : Ensures x s R) :
    Yields x s fun a s' => Q a s' ∧ R a s' := by
  obtain ⟨a, s', hx, hq⟩ := h
  exact ⟨a, s', hx, hq, h' a s' hx⟩

theorem ensures_iff_of_eq {s' : σ} {a : α} (hx : x s = .ok a s') : Ensures x s Q ↔ Q a s' := by
  constructor
  · exact fun h => h a s' hx
  · intro hq b t hy
    obtain ⟨rfl, rfl⟩ : a = b ∧ s' = t := by simpa [hx] using hy
    exact hq

@[simp]
theorem ensures_pure {a : α} : Ensures (pure a : EStateM ε σ α) s Q ↔ Q a s := ensures_iff_of_eq rfl

@[simp]
theorem ensures_bind {Q : β → σ → Prop} :
    Ensures (x >>= f) s Q ↔ Ensures x s fun a s' => Ensures (f a) s' Q := by
  constructor
  · intro h a s' hx b t hf
    exact h b t (bind_eq_ok_iff.2 ⟨a, s', hx, hf⟩)
  · intro h b t hrun
    obtain ⟨a, s', hx, hf⟩ := bind_eq_ok_iff.1 hrun
    exact h a s' hx b t hf

@[simp]
theorem ensures_map {f : α → β} {Q : β → σ → Prop} :
    Ensures (f <$> x) s Q ↔ Ensures x s fun a s' => Q (f a) s' := by
  rw [← bind_pure_comp, ensures_bind]
  simp

@[simp]
theorem ensures_get {Q : σ → σ → Prop} : Ensures (get : EStateM ε σ σ) s Q ↔ Q s s :=
  ensures_iff_of_eq rfl

@[simp]
theorem ensures_set {t : σ} {Q : PUnit → σ → Prop} :
    Ensures (set t : EStateM ε σ PUnit) s Q ↔ Q ⟨⟩ t :=
  ensures_iff_of_eq rfl

@[simp]
theorem ensures_modify {f : σ → σ} {Q : PUnit → σ → Prop} :
    Ensures (modify f : EStateM ε σ PUnit) s Q ↔ Q ⟨⟩ (f s) :=
  ensures_iff_of_eq rfl

@[simp]
theorem ensures_modifyGet {f : σ → α × σ} :
    Ensures (modifyGet f : EStateM ε σ α) s Q ↔ Q (f s).1 (f s).2 :=
  ensures_iff_of_eq rfl

@[simp]
theorem ensures_throw {e : ε} : Ensures (throw e : EStateM ε σ α) s Q := by
  intro a s' h
  cases h

theorem ensures_forM {f : α → EStateM ε σ PUnit} (h : I xs s)
    (hstep : ∀ x ys t, I (x :: ys) t → Ensures (f x) t fun _ t' => I ys t') :
    Ensures (xs.forM f) s fun _ t => I [] t := by
  induction xs generalizing s with
  | nil => exact ensures_pure.2 h
  | cons x xs ih => exact ensures_bind.2 ((hstep x xs s h).mono fun _ _ h' => ih h')

/-- The results of an operation for each member of a list, where `I` holds between them and `R`
holds of every member and its result. -/
theorem ensures_mapM {R : α → β → Prop} (h : I xs s)
    (hstep : ∀ x ys t, I (x :: ys) t → Ensures (f x) t fun b t' => I ys t' ∧ R x b) :
    Ensures (xs.mapM f) s fun bs t => I [] t ∧ Forall₂ R xs bs := by
  induction xs generalizing s with
  | nil => exact ensures_pure.2 ⟨h, .nil⟩
  | cons x xs ih =>
    rw [mapM_cons, ensures_bind]
    refine (hstep x xs s h).mono fun b t hb => ?_
    rw [ensures_bind]
    exact (ih hb.1).mono fun bs t' hbs => ensures_pure.2 ⟨hbs.1, .cons hb.2 hbs.2⟩

end Ensures

variable {α β γ : Type} {R S : α → β → Prop} {xs : List α} {ys : List β}

theorem exists_of_forall₂ (h : Forall₂ R xs ys) {y : β} (hy : y ∈ ys) : ∃ x ∈ xs, R x y := by
  induction h with
  | nil => cases hy
  | cons hxy _ ih =>
    rcases mem_cons.1 hy with rfl | hy
    · exact ⟨_, mem_cons_self, hxy⟩
    · obtain ⟨x, hx, hxy⟩ := ih hy
      exact ⟨x, mem_cons_of_mem _ hx, hxy⟩

theorem forall₂_of_mem (h : Forall₂ R xs ys) (hS : ∀ x ∈ xs, ∀ y ∈ ys, R x y → S x y) :
    Forall₂ S xs ys := by
  induction h with
  | nil => exact .nil
  | cons hxy _ ih =>
    exact .cons (hS _ mem_cons_self _ mem_cons_self hxy) (ih fun x hx y hy =>
      hS x (mem_cons_of_mem _ hx) y (mem_cons_of_mem _ hy))

theorem map_eq_of_forall₂ {f : α → γ} {g : β → γ} (h : Forall₂ (fun x y => g y = f x) xs ys) :
    ys.map g = xs.map f := by
  induction h with
  | nil => rfl
  | cons hxy _ ih => rw [map_cons, map_cons, hxy, ih]

end Quadruple
