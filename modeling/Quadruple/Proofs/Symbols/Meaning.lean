import Quadruple.Proofs.Symbols.Table

/-!
# What names stand for

What lowering sees of a table: `global?` and `local?` give what a name stands for, without the
number of its entry and without what lowering does not read. `Keeps` compares the globals of two
tables.
-/

namespace Quadruple.Symbols

open List
open Option (map_some map_none)

/-- What lowering reads of an entry. The parameters are read of functions only. -/
def Entry.face (e : Entry) : Entry :=
  { name := e.name, kind := e.kind, tag := e.tag, handle := e.handle, elem := e.elem
    variadic := decide (e.kind = .func) && e.variadic
    fixed := if e.kind = .func then e.fixed else 0 }

namespace Table

variable {T T' T'' : Table} {n name : String} {id : EntryId} {ls : List Level} {l : Level}

def global? (T : Table) (n : String) : Option Entry :=
  (T.lookupGlobal? n).map fun id => (T.entry id).face

def local? (T : Table) (n : String) : Option Entry :=
  (T.inner.findSome? (·.lookup n)).map fun id => (T.entry id).face

theorem lookup?_face :
    (T.lookup? n).map (fun id => (T.entry id).face) = (T.local? n).or (T.global? n) := by
  unfold lookup? local? global? lookupGlobal?
  rw [findSome?_append]
  cases T.inner.findSome? (·.lookup n) with
  | some id => rfl
  | none => simp

/-- Every name that can be found has an entry, and the globals have one of their own. -/
structure Tidy (T : Table) : Prop where
  sound : T.Sound
  inner : ∀ n id, T.inner.findSome? (·.lookup n) = some id → id < T.entries.size

theorem tidy_empty : Tidy .empty := ⟨sound_empty, by rintro n id ⟨⟩⟩

theorem Tidy.name_eq (h : T.Tidy) {v : Entry} (hv : T.global? n = some v) : v.name = n := by
  obtain ⟨id, hid, rfl⟩ := Option.map_eq_some_iff.1 hv
  exact (h.sound n id hid).2

theorem Tidy.enter (h : T.Tidy) : T.enter.Tidy := ⟨h.sound, h.inner⟩

theorem findSome?_blank (h : ∀ l ∈ ls, l = []) : ls.findSome? (·.lookup n) = none :=
  findSome?_eq_none_iff.2 fun l hl => by rw [h l hl]; rfl

theorem Tidy.leave_of_blank (h : T.Tidy) (hi : T.inner = l :: ls)
    (hls : ∀ m ∈ ls, m = []) : T.leave.Tidy := by
  refine ⟨h.sound, fun n id hid => ?_⟩
  simp [Table.leave, hi, findSome?_blank hls] at hid

theorem Tidy.leave (h : T.Tidy) (hi : T.inner = [l]) : T.leave.Tidy :=
  h.leave_of_blank hi (by simp)

/-! ## New names -/

theorem global?_installAt (h : T.Sound) (f : Entry → Entry) :
    ((T.installAt name 0).2.modifyEntry T.entries.size f).global? n =
      if n = name then some (f { name, level := 0 }).face else T.global? n := by
  unfold global?
  rw [lookupGlobal?_modifyEntry, lookupGlobal?_installAt_zero]
  split
  · rw [map_some, entry_modifyEntry_self (size_lt_installAt _), entry_installAt_self,
      clampLevel_zero]
  · cases hid : T.lookupGlobal? n with
    | none => rw [map_none, map_none]
    | some id =>
      have hlt := (h n id hid).1
      rw [map_some, map_some, entry_modifyEntry_of_ne hlt.ne,
        entry_installAt_of_lt _ hlt]

theorem local?_installAt (h : T.Tidy) (f : Entry → Entry) :
    ((T.installAt name 0).2.modifyEntry T.entries.size f).local? n = T.local? n := by
  unfold local?
  rw [inner_modifyEntry, inner_installAt_zero]
  cases hid : T.inner.findSome? (·.lookup n) with
  | none => rw [map_none, map_none]
  | some id =>
    have hlt := h.inner n id hid
    rw [map_some, map_some, entry_modifyEntry_of_ne hlt.ne,
      entry_installAt_of_lt _ hlt]

variable {f : Entry → Entry} {E : Entry → Prop}

theorem Tidy.installAt (h : T.Tidy) (hname : ∀ e, (f e).name = e.name) :
    ((T.installAt name 0).2.modifyEntry T.entries.size f).Tidy := by
  have hc : T.Changes name (fun _ => True) ((T.installAt name 0).2.modifyEntry T.entries.size f) :=
    h.sound.changes_installAt hname fun _ => trivial
  refine ⟨hc.sound, fun n id hid => ?_⟩
  rw [inner_modifyEntry, inner_installAt_zero] at hid
  rw [size_modifyEntry, size_installAt]
  exact Nat.lt_succ_of_lt (h.inner n id hid)

theorem global?_modifyEntry (h : T.Sound) (hid : T.lookupGlobal? name = some id) :
    (T.modifyEntry id f).global? n =
      if n = name then some (f (T.entry id)).face else T.global? n := by
  unfold global?
  rw [lookupGlobal?_modifyEntry]
  split
  · next hn =>
    rw [hn, hid, map_some, entry_modifyEntry_self (h name id hid).1]
  · next hn =>
    cases hk : T.lookupGlobal? n with
    | none => rw [map_none, map_none]
    | some k => rw [map_some, map_some, entry_modifyEntry_of_ne (h.ne hk hid hn)]

theorem Tidy.modifyEntry (h : T.Tidy) (hname : ∀ e, (f e).name = e.name) :
    (T.modifyEntry id f).Tidy := by
  refine ⟨h.sound.modifyEntry (hname _), fun n k hk => ?_⟩
  rw [size_modifyEntry]
  exact h.inner n k hk

theorem global?_install (h : T.Sound) (hi : T.inner ≠ []) (f : Entry → Entry) :
    ((T.install name).2.modifyEntry (T.install name).1 f).global? n = T.global? n := by
  unfold global?
  rw [lookupGlobal?_modifyEntry, lookupGlobal?_install hi]
  cases hid : T.lookupGlobal? n with
  | none => rw [map_none, map_none]
  | some id =>
    rw [map_some, map_some, entry_install_modifyEntry,
      if_neg (ne_of_lt (h n id hid).1)]

section Install

variable (h : T.Tidy) (hi : T.inner = l :: ls) (f : Entry → Entry)

include h hi

theorem local?_install :
    ((T.install name).2.modifyEntry (T.install name).1 f).local? n =
      if n = name then some (f { name, level := ls.length + 1 }).face else T.local? n := by
  unfold local?
  rw [inner_modifyEntry, inner_install hi]
  have hlevel : T.clampLevel T.level = ls.length + 1 := by rw [clampLevel_level, level, hi]; rfl
  by_cases hn : n = name
  · simp [hn, entry_install_modifyEntry, hlevel]
  · rw [if_neg hn]
    have hfind : (((name, T.entries.size) :: l) :: ls).findSome? (·.lookup n) =
        T.inner.findSome? (·.lookup n) := by
      simp [hi, findSome?_cons, lookup_cons, beq_false_of_ne hn]
    rw [hfind]
    cases hid : T.inner.findSome? (·.lookup n) with
    | none => rw [map_none, map_none]
    | some id =>
      rw [map_some, map_some, entry_install_modifyEntry,
        if_neg (ne_of_lt (h.inner n id hid))]

theorem Tidy.install : ((T.install name).2.modifyEntry (T.install name).1 f).Tidy := by
  have hne : T.inner ≠ [] := by simp [hi]
  have hsize : ((T.install name).2.modifyEntry (T.install name).1 f).entries.size =
      T.entries.size + 1 := by
    rw [size_modifyEntry]
    exact size_installAt _
  refine ⟨fun m k hm => ?_, fun m k hm => ?_⟩
  · rw [lookupGlobal?_modifyEntry, lookupGlobal?_install hne] at hm
    obtain ⟨hk, hname⟩ := h.sound m k hm
    rw [hsize, entry_install_modifyEntry, if_neg hk.ne]
    exact ⟨Nat.lt_succ_of_lt hk, hname⟩
  · rw [inner_modifyEntry, inner_install hi] at hm
    rw [hsize]
    by_cases hmn : m = name
    · have hk : T.entries.size = k := by simpa [hmn] using hm
      exact hk ▸ Nat.lt_succ_self _
    · refine Nat.lt_succ_of_lt (h.inner m k ?_)
      simpa [hi, findSome?_cons, lookup_cons, beq_false_of_ne hmn] using hm

end Install

/-! ## All entries -/

def All (E : Entry → Prop) (T : Table) : Prop := ∀ id, E (T.entry id)

theorem All.modifyEntry (h : T.All E) (hf : ∀ e, E e → E (f e)) : (T.modifyEntry id f).All E := by
  intro k
  by_cases hk : k = id
  · subst hk
    by_cases hlt : k < T.entries.size
    · rw [entry_modifyEntry_self hlt]
      exact hf _ (h k)
    · have hout : (T.modifyEntry k f).entry k = T.entry k := by
        simp [entry, modifyEntry, Nat.le_of_not_lt hlt]
      rw [hout]
      exact h k
  · rw [entry_modifyEntry_of_ne hk]
    exact h k

theorem All.installAt (h : T.All E) (hnew : ∀ level, E { name, level })
    (m : Int) : (T.installAt name m).2.All E := by
  intro k
  rcases lt_trichotomy k T.entries.size with hk | rfl | hk
  · rw [entry_installAt_of_lt m hk]
    exact h k
  · rw [entry_installAt_self]
    exact hnew _
  · have hout : (T.installAt name m).2.entry k = T.entry k := by
      have hle : (T.installAt name m).2.entries.size ≤ k := by
        rw [size_installAt]
        exact hk
      simp [entry, Array.getElem?_eq_none hle, Array.getElem?_eq_none hk.le]
    rw [hout]
    exact h k

/-! ## Larger tables -/

/-- Where a global has a place in `T`, the name stands for the same in `T'`. -/
def Keeps (T T' : Table) : Prop :=
  ∀ n v p, T.global? n = some v → v.handle = some p → T'.global? n = some v

theorem Keeps.rfl : T.Keeps T := fun _ _ _ hv _ => hv

theorem keeps_of_global? (h : ∀ n, T'.global? n = T.global? n) : T.Keeps T' :=
  fun n _ _ hv _ => (h n).trans hv

theorem Keeps.trans (h : T.Keeps T') (h' : T'.Keeps T'') : T.Keeps T'' :=
  fun n v p hv hp => h' n v p (h n v p hv hp) hp

end Table

end Quadruple.Symbols
