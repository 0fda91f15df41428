import Quadruple.Proofs.Association
import Quadruple.Symbols.Table

/-!
# Names and entries of the symbol table

What each operation on the table does to the two searches and to the entries. `Sound` says that
the globals have entries of their own: it is what keeps the changes to one name apart from the
others.
-/

namespace Quadruple.Symbols.Table

open List

variable {T : Table} {id k : EntryId} {name n : String} {f : Entry → Entry} {P : Entry → Prop}
  (m : Int)

@[simp] theorem lookupGlobal?_modifyEntry (f : Entry → Entry) :
    (T.modifyEntry id f).lookupGlobal? n = T.lookupGlobal? n := rfl

@[simp] theorem lookup?_modifyEntry (f : Entry → Entry) :
    (T.modifyEntry id f).lookup? n = T.lookup? n := rfl

@[simp] theorem size_modifyEntry (f : Entry → Entry) :
    (T.modifyEntry id f).entries.size = T.entries.size := Array.size_modify ..

@[simp] theorem inner_modifyEntry (f : Entry → Entry) : (T.modifyEntry id f).inner = T.inner := rfl

@[simp] theorem entry_enter : T.enter.entry id = T.entry id := rfl

theorem entry_modifyEntry_self (h : id < T.entries.size) (f : Entry → Entry) :
    (T.modifyEntry id f).entry id = f (T.entry id) := by
  simp [entry, modifyEntry, Array.getElem_modify, h]

theorem entry_modifyEntry_of_ne (h : k ≠ id) (f : Entry → Entry) :
    (T.modifyEntry id f).entry k = T.entry k := by
  simp [entry, modifyEntry, Array.getElem?_modify, h.symm]

/-! ## New entries -/

theorem entries_installAt :
    (T.installAt name m).2.entries = T.entries.push { name, level := T.clampLevel m } := by
  simp only [installAt]
  split <;> rfl

theorem size_installAt : (T.installAt name m).2.entries.size = T.entries.size + 1 := by
  rw [entries_installAt, Array.size_push]

theorem size_lt_installAt : T.entries.size < (T.installAt name m).2.entries.size := by
  rw [size_installAt]
  exact Nat.lt_succ_self _

theorem entry_installAt_self :
    (T.installAt name m).2.entry T.entries.size = { name, level := T.clampLevel m } := by
  simp [entry, entries_installAt]

theorem entry_installAt_of_lt (h : id < T.entries.size) :
    (T.installAt name m).2.entry id = T.entry id := by
  simp [entry, entries_installAt, Array.getElem?_push, h.ne]

theorem entry_install_modifyEntry (f : Entry → Entry) :
    ((T.install name).2.modifyEntry (T.install name).1 f).entry id =
      if id = T.entries.size then f { name, level := T.clampLevel T.level } else T.entry id := by
  have hfst : (T.install name).1 = T.entries.size := rfl
  rw [hfst]
  unfold install
  by_cases hid : id = T.entries.size
  · rw [if_pos hid, hid, entry_modifyEntry_self (size_lt_installAt _), entry_installAt_self]
  · rw [if_neg hid, entry_modifyEntry_of_ne hid]
    simp [entry, entries_installAt, Array.getElem?_push, hid]

theorem clampLevel_zero : T.clampLevel 0 = 0 := by
  unfold clampLevel
  rw [if_neg (by simp)]
  rfl

theorem lookupGlobal?_installAt_zero :
    (T.installAt name 0).2.lookupGlobal? n =
      if n = name then some T.entries.size else T.lookupGlobal? n := by
  simp only [installAt, clampLevel_zero, if_true, lookupGlobal?, lookup_cons]
  by_cases hn : n = name
  · simp [hn]
  · simp [hn, beq_false_of_ne hn]

theorem inner_installAt_zero :
    (T.installAt name 0).2.inner = T.inner := by
  rfl

theorem lookup?_installAt_zero (h : (T.installAt name 0).2.lookup? n = some id) :
    T.lookup? n = some id ∨ n = name ∧ id = T.entries.size := by
  simp only [installAt, clampLevel_zero, if_true, lookup?, findSome?_append] at h ⊢
  cases hin : T.inner.findSome? (·.lookup n) with
  | some k => exact .inl (by simpa [hin] using h)
  | none =>
    rw [hin] at h
    by_cases hn : n = name
    · simp [hn] at h
      exact .inr ⟨hn, h.symm⟩
    · exact .inl (by simpa [lookup_cons, beq_false_of_ne hn] using h)

theorem clampLevel_level : T.clampLevel T.level = T.level := by
  unfold clampLevel
  split
  · rfl
  · exact Int.toNat_natCast _

theorem lookup?_install :
    (T.install name).2.lookup? n = if n = name then some T.entries.size else T.lookup? n := by
  unfold install installAt
  simp only [clampLevel_level]
  by_cases hn : n = name
  · subst hn
    cases hi : T.inner with
    | nil | cons l ls => simp [level, hi, lookup?]
  · cases hi : T.inner with
    | nil => simp [level, hi, lookup?, lookup_cons, beq_false_of_ne hn, hn]
    | cons l ls => simp [level, hi, lookup?, findSome?_cons, lookup_cons, beq_false_of_ne hn, hn]

theorem globals_install (h : T.inner ≠ []) : (T.install name).2.globals = T.globals := by
  have hlevel : T.level ≠ 0 := by simpa [level] using h
  simp [install, installAt, clampLevel_level, hlevel]

theorem lookupGlobal?_install (h : T.inner ≠ []) :
    (T.install name).2.lookupGlobal? n = T.lookupGlobal? n := by
  rw [lookupGlobal?, globals_install h, lookupGlobal?]

theorem inner_install {l : Level} {ls : List Level} (h : T.inner = l :: ls) :
    (T.install name).2.inner = ((name, T.entries.size) :: l) :: ls := by
  have hlevel : T.level ≠ 0 := by simp [level, h]
  simp only [install, installAt, clampLevel_level, if_neg hlevel]
  show T.inner.modify (T.level - T.level) ((name, T.entries.size) :: ·) = _
  rw [Nat.sub_self, h]
  rfl

theorem length_inner_install : (T.install name).2.inner.length = T.inner.length := by
  unfold install installAt
  simp only [clampLevel_level]
  split
  · rfl
  · exact length_modify ..

theorem inner_install_ne_nil (h : T.inner ≠ []) : (T.install name).2.inner ≠ [] := by
  have hlevel : T.level ≠ 0 := by simpa [level] using h
  simpa [install, installAt, clampLevel_level, hlevel] using h

/-! ## Sound tables -/

def Sound (T : Table) : Prop :=
  ∀ n id, T.lookupGlobal? n = some id → id < T.entries.size ∧ (T.entry id).name = n

theorem sound_empty : Sound .empty := by
  intro n id h
  cases h

theorem Sound.enter (h : T.Sound) : T.enter.Sound := h

theorem Sound.leave (h : T.Sound) : T.leave.Sound := h

theorem Sound.modifyEntry (h : T.Sound) (hf : (f (T.entry id)).name = (T.entry id).name) :
    (T.modifyEntry id f).Sound := by
  intro m k hm
  obtain ⟨hk, hname⟩ := h m k hm
  refine ⟨by simpa using hk, ?_⟩
  by_cases hki : k = id
  · subst hki
    rw [entry_modifyEntry_self hk, hf, hname]
  · rw [entry_modifyEntry_of_ne hki, hname]

theorem Sound.installAt_zero (h : T.Sound) (name : String) : (T.installAt name 0).2.Sound := by
  intro m k hm
  rw [lookupGlobal?_installAt_zero] at hm
  rw [size_installAt]
  split at hm
  · cases hm
    rw [entry_installAt_self]
    exact ⟨Nat.lt_succ_self _, by simp_all⟩
  · obtain ⟨hk, hname⟩ := h m k hm
    rw [entry_installAt_of_lt _ hk]
    exact ⟨Nat.lt_succ_of_lt hk, hname⟩

theorem Sound.install (h : T.Sound) (hi : T.inner ≠ []) (name : String) :
    (T.install name).2.Sound := by
  intro m k hm
  rw [lookupGlobal?_install hi] at hm
  obtain ⟨hk, hname⟩ := h m k hm
  unfold Table.install
  rw [size_installAt, entry_installAt_of_lt _ hk]
  exact ⟨Nat.lt_succ_of_lt hk, hname⟩

theorem Sound.ne (h : T.Sound) {m : String} (hn : T.lookupGlobal? n = some id)
    (hm : T.lookupGlobal? m = some k) (hne : n ≠ m) : id ≠ k := by
  rintro rfl
  exact hne ((h n id hn).2.symm.trans (h m id hm).2)

/-! ## Changes to one global -/

/-- `T'` differs from `T` in the global `name` only, whose entry satisfies `P`. -/
structure Changes (name : String) (P : Entry → Prop) (T T' : Table) : Prop where
  sound : T'.Sound
  other : ∀ n, n ≠ name → T'.lookupGlobal? n = T.lookupGlobal? n ∧
    ∀ id, T.lookupGlobal? n = some id → T'.entry id = T.entry id
  entry : ∃ id, T'.lookupGlobal? name = some id ∧ P (T'.entry id)

theorem Changes.of_lookup {T' : Table} (h : T.Changes name P T')
    (hid : T'.lookupGlobal? name = some id) : P (T'.entry id) := by
  obtain ⟨k, hk, hP⟩ := h.entry
  cases hid.symm.trans hk
  exact hP

theorem Sound.changes_modifyEntry (h : T.Sound) (hn : T.lookupGlobal? name = some id)
    (hname : ∀ e, (f e).name = e.name) (hP : P (f (T.entry id))) :
    T.Changes name P (T.modifyEntry id f) := by
  refine ⟨h.modifyEntry (hname _), fun m hm => ⟨rfl, fun k hk => ?_⟩, id, hn, ?_⟩
  · exact entry_modifyEntry_of_ne (h.ne hk hn hm) f
  · rwa [entry_modifyEntry_self (h name id hn).1]

theorem Sound.changes_installAt (h : T.Sound) (hname : ∀ e, (f e).name = e.name)
    (hP : ∀ e, P (f e)) :
    T.Changes name P ((T.installAt name 0).2.modifyEntry T.entries.size f) := by
  have hself : (T.installAt name 0).2.lookupGlobal? name = some T.entries.size := by
    rw [lookupGlobal?_installAt_zero, if_pos rfl]
  refine ⟨(h.installAt_zero name).modifyEntry (hname _), fun m hm => ⟨?_, fun k hk => ?_⟩,
    T.entries.size, hself, ?_⟩
  · rw [lookupGlobal?_modifyEntry, lookupGlobal?_installAt_zero, if_neg hm]
  · have hlt := (h m k hk).1
    rw [entry_modifyEntry_of_ne hlt.ne, entry_installAt_of_lt _ hlt]
  · rw [entry_modifyEntry_self (by rw [size_installAt]; exact Nat.lt_succ_self _)]
    exact hP _

end Quadruple.Symbols.Table
