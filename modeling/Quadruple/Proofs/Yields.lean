import Mathlib

/-!
# Operations that succeed

An operation is a function from a state to a state and either a result or a fault. `Yields x s Q`
says that `x` succeeds from `s`, with a result and a state of which `Q` holds. The lemmas say what
this means for each way to put operations together, so a claim about a composed operation turns
into one about its parts.
-/

namespace Quadruple

section Yields

variable {ε σ α β : Type} {x : EStateM ε σ α} {Q : α → σ → Prop} {s s' : σ} {a : α}
  {f : α → EStateM ε σ β}

/-- `x` succeeds from `s`, and `Q` holds of its result and the state behind it. -/
def Yields (x : EStateM ε σ α) (s : σ) (Q : α → σ → Prop) : Prop := ∃ a s', x s = .ok a s' ∧ Q a s'

theorem Yields.mono {R : α → σ → Prop} (h : Yields x s Q) (hQ : ∀ a s', Q a s' → R a s') :
    Yields x s R := by
  obtain ⟨a, s', hx, hq⟩ := h
  exact ⟨a, s', hx, hQ a s' hq⟩

theorem yields_iff_of_eq (hx : x s = .ok a s') : Yields x s Q ↔ Q a s' := by
  constructor
  · rintro ⟨b, t, hy, hq⟩
    obtain ⟨rfl, rfl⟩ : a = b ∧ s' = t := by simpa [hx] using hy
    exact hq
  · exact fun hq => ⟨a, s', hx, hq⟩

theorem eq_of_yields {x : EStateM ε σ PUnit} (h : Yields x s fun _ t => t = s') :
    x s = .ok ⟨⟩ s' := by
  obtain ⟨_, _, hx, rfl⟩ := h
  exact hx

def result? (x : EStateM ε σ α) (s : σ) : Option α :=
  match x s with
  | .ok a _ => some a
  | .error .. => none

theorem eq_ok_of_result? (h : result? x s = some a) : ∃ s', x s = .ok a s' := by
  unfold result? at h
  cases hx : x s with
  | ok b s' =>
    rw [hx] at h
    exact ⟨s', Option.some.inj h ▸ rfl⟩
  | error e s' =>
    rw [hx] at h
    cases h

theorem exists_ok_of_result? {f : α → β} {b : β} (h : (result? x s).map f = some b) :
    ∃ a s', x s = .ok a s' ∧ f a = b := by
  obtain ⟨a, ha, hb⟩ := Option.map_eq_some_iff.1 h
  obtain ⟨s', hs'⟩ := eq_ok_of_result? ha
  exact ⟨a, s', hs', hb⟩

theorem exists_ok_of_isSome (h : (result? x s).isSome = true) : ∃ a s', x s = .ok a s' := by
  obtain ⟨a, ha⟩ := Option.isSome_iff_exists.1 h
  exact ⟨a, eq_ok_of_result? ha⟩

def outcome? (x : EStateM ε σ α) (s : σ) : Option (α × σ) :=
  match x s with
  | .ok a s' => some (a, s')
  | .error .. => none

theorem exists_ok_of_outcome? {f : α × σ → β} {b : β} (h : (outcome? x s).map f = some b) :
    ∃ a s', x s = .ok a s' ∧ f (a, s') = b := by
  unfold outcome? at h
  cases hx : x s with
  | ok a s' =>
    rw [hx] at h
    exact ⟨a, s', rfl, Option.some.inj h⟩
  | error e t =>
    rw [hx] at h
    cases h

theorem run_get_bind (f : σ → EStateM ε σ α) : (get >>= f) s = f s s := rfl

@[simp]
theorem yields_pure : Yields (pure a : EStateM ε σ α) s Q ↔ Q a s := yields_iff_of_eq rfl

theorem run_bind_of_ok (h : x s = .ok a s') : (x >>= f) s = f a s' := by
  show EStateM.bind x f s = _
  simp only [EStateM.bind, h]

theorem run_bind_of_error {e : ε} (h : x s = .error e s') : (x >>= f) s = .error e s' := by
  show EStateM.bind x f s = _
  simp only [EStateM.bind, h]

theorem bind_eq_ok_iff {t : σ} {b : β} :
    (x >>= f) s = .ok b t ↔ ∃ a s', x s = .ok a s' ∧ f a s' = .ok b t := by
  show EStateM.bind x f s = _ ↔ _
  unfold EStateM.bind
  cases x s with
  | ok a s' =>
    refine ⟨fun h => ⟨a, s', rfl, h⟩, ?_⟩
    rintro ⟨_, _, ⟨⟩, h⟩
    exact h
  | error e s' => simp

@[simp]
theorem yields_bind {Q : β → σ → Prop} :
    Yields (x >>= f) s Q ↔ Yields x s fun a s' => Yields (f a) s' Q := by
  constructor
  · rintro ⟨b, t, h, hq⟩
    obtain ⟨a, s', hx, hf⟩ := bind_eq_ok_iff.1 h
    exact ⟨a, s', hx, b, t, hf, hq⟩
  · rintro ⟨a, s', hx, b, t, hf, hq⟩
    exact ⟨b, t, bind_eq_ok_iff.2 ⟨a, s', hx, hf⟩, hq⟩

@[simp]
theorem yields_map {f : α → β} {Q : β → σ → Prop} :
    Yields (f <$> x) s Q ↔ Yields x s fun a s' => Q (f a) s' := by
  rw [← bind_pure_comp, yields_bind]
  simp

@[simp]
theorem yields_get {Q : σ → σ → Prop} : Yields (get : EStateM ε σ σ) s Q ↔ Q s s :=
  yields_iff_of_eq rfl

@[simp]
theorem yields_set {t : σ} {Q : PUnit → σ → Prop} :
    Yields (set t : EStateM ε σ PUnit) s Q ↔ Q ⟨⟩ t :=
  yields_iff_of_eq rfl

@[simp]
theorem yields_modify {f : σ → σ} {Q : PUnit → σ → Prop} :
    Yields (modify f : EStateM ε σ PUnit) s Q ↔ Q ⟨⟩ (f s) :=
  yields_iff_of_eq rfl

@[simp]
theorem yields_modifyGet {f : σ → α × σ} :
    Yields (modifyGet f : EStateM ε σ α) s Q ↔ Q (f s).1 (f s).2 :=
  yields_iff_of_eq rfl

@[simp]
theorem yields_throw {e : ε} : Yields (throw e : EStateM ε σ α) s Q ↔ False := by
  constructor
  · rintro ⟨a, s', h, -⟩
    cases h
  · exact False.elim

theorem yields_forM {f : α → EStateM ε σ PUnit} {I : List α → σ → Prop} {xs : List α} (h : I xs s)
    (hstep : ∀ x ys t, I (x :: ys) t → Yields (f x) t fun _ t' => I ys t') :
    Yields (xs.forM f) s fun _ t => I [] t := by
  induction xs generalizing s with
  | nil => exact yields_pure.2 h
  | cons x xs ih => exact yields_bind.2 ((hstep x xs s h).mono fun _ _ h' => ih h')

theorem yields_mapM {I : List α → σ → Prop} {xs : List α} (h : I xs s)
    (hstep : ∀ x ys t, I (x :: ys) t → Yields (f x) t fun _ t' => I ys t') :
    Yields (xs.mapM f) s fun _ t => I [] t := by
  induction xs generalizing s with
  | nil => exact yields_pure.2 h
  | cons x xs ih =>
    rw [List.mapM_cons, yields_bind]
    refine (hstep x xs s h).mono fun _ _ h' => yields_bind.2 ((ih h').mono fun _ _ hI => ?_)
    exact yields_pure.2 hI

end Yields

theorem forall₂_through {α β γ : Type} {R : α → β → Prop} {S : α → γ → Prop} {xs : List α}
    {ys : List β} {zs : List γ} (h : List.Forall₂ R xs ys) (h' : List.Forall₂ S xs zs) :
    List.Forall₂ (fun y z => ∃ x, R x y ∧ S x z) ys zs := by
  induction h generalizing zs with
  | nil =>
    cases h'
    exact .nil
  | cons hxy _ ih =>
    obtain _ | ⟨hxz, hrest⟩ := h'
    exact .cons ⟨_, hxy, hxz⟩ (ih hrest)

end Quadruple
