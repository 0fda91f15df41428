import Quadruple.Proofs.Symbols.Table

/-!
# Tables of names that can be written

An entry is referred to by its name, its storage class and its place, so these three have to fit the
text format. `Spelled` says so of every entry of a table, for names in any set `N`, and every
operation on tables keeps it.
-/

namespace Quadruple.Symbols

open List

/-- An entry with a name in `N` that can be referred to. The places of formals and locals go up to
`m`. -/
structure Entry.Spelled (N : String → Prop) (m : Nat) (e : Entry) : Prop where
  name : N e.name
  place : e.storage = .global ∧ e.offset = 0 ∨
    (e.storage = .param ∨ e.storage = .stack) ∧ 0 ≤ e.offset ∧ e.offset ≤ m
  func : e.kind = .func → e.offset = 0

theorem Entry.Spelled.mono {N : String → Prop} {m m' : Nat} {e : Entry} (h : e.Spelled N m)
    (hm : m ≤ m') : e.Spelled N m' :=
  ⟨h.name, h.place.imp_right fun ⟨hstorage, hlow, hhigh⟩ => ⟨hstorage, hlow, by omega⟩, h.func⟩

namespace Table

structure Spelled (N : String → Prop) (T : Table) : Prop where
  entries : ∀ id < T.entries.size, (T.entry id).Spelled N T.entries.size
  globals : ∀ p ∈ T.globals, p.2 < T.entries.size
  inner : ∀ l ∈ T.inner, ∀ p ∈ l, p.2 < T.entries.size

variable {N : String → Prop} {T : Table} {name : String} {id : EntryId}

theorem spelled_empty : Spelled N .empty :=
  ⟨fun _ hid => (Nat.not_lt_zero _ hid).elim, nofun, nofun⟩

section

variable (h : T.Spelled N)
include h

theorem Spelled.enter : T.enter.Spelled N :=
  ⟨h.entries, h.globals, forall_mem_cons.2 ⟨nofun, h.inner⟩⟩

theorem Spelled.leave : T.leave.Spelled N :=
  ⟨h.entries, h.globals, fun l hl => h.inner l (mem_of_mem_tail hl)⟩

theorem Spelled.lookupGlobal? (hid : T.lookupGlobal? name = some id) : id < T.entries.size :=
  h.globals _ (mem_of_lookup hid)

theorem Spelled.lookup? (hid : T.lookup? name = some id) : id < T.entries.size := by
  obtain ⟨l, hl, hid⟩ := exists_of_findSome?_eq_some hid
  have hmem := mem_of_lookup hid
  rcases mem_append.1 hl with hl | hl
  · exact h.inner l hl _ hmem
  · rw [mem_singleton.1 hl] at hmem
    exact h.globals _ hmem

theorem Spelled.modifyEntry {f : Entry → Entry}
    (hf : id < T.entries.size → (f (T.entry id)).Spelled N T.entries.size) :
    (T.modifyEntry id f).Spelled N := by
  have hsize : (T.modifyEntry id f).entries.size = T.entries.size := size_modifyEntry f
  refine ⟨fun k hk => ?_, fun p hp => hsize ▸ h.globals p hp,
    fun l hl p hp => hsize ▸ h.inner l hl p hp⟩
  rw [hsize] at hk ⊢
  by_cases hne : k = id
  · subst hne
    rw [entry_modifyEntry_self hk]
    exact hf hk
  · rw [entry_modifyEntry_of_ne hne]
    exact h.entries k hk

theorem Spelled.installAt (hname : N name) (n : Int) : (T.installAt name n).2.Spelled N := by
  have hsize : (T.installAt name n).2.entries.size = T.entries.size + 1 := size_installAt n
  have hold : ∀ {l : Level}, (∀ p ∈ l, p.2 < T.entries.size) →
      (∀ p ∈ l, p.2 < T.entries.size + 1) ∧
      ∀ p ∈ (name, T.entries.size) :: l, p.2 < T.entries.size + 1 := by
    intro l hl
    have hl' : ∀ p ∈ l, p.2 < T.entries.size + 1 := fun p hp => Nat.lt_succ_of_lt (hl p hp)
    exact ⟨hl', forall_mem_cons.2 ⟨Nat.lt_succ_self _, hl'⟩⟩
  refine ⟨fun id hid => ?_, fun p hp => ?_, fun l hl p hp => ?_⟩
  · rw [hsize] at hid ⊢
    rcases Nat.lt_succ_iff_lt_or_eq.1 hid with hid | rfl
    · rw [entry_installAt_of_lt n hid]
      exact (h.entries id hid).mono (Nat.le_succ _)
    · rw [entry_installAt_self]
      exact ⟨hname, .inl ⟨rfl, rfl⟩, nofun⟩
  · rw [hsize]
    unfold Table.installAt at hp
    simp only at hp
    split at hp
    · exact (hold h.globals).2 p hp
    · exact (hold h.globals).1 p hp
  · rw [hsize]
    unfold Table.installAt at hl
    simp only at hl
    split at hl
    · exact (hold (h.inner l hl)).1 p hp
    · obtain ⟨i, hi⟩ := mem_iff_getElem?.1 hl
      rw [getElem?_modify] at hi
      cases hget : T.inner[i]? with
      | none => simp [hget] at hi
      | some l' =>
        have hl' := h.inner l' (mem_of_getElem? hget)
        rw [hget] at hi
        split at hi <;> cases hi
        · exact (hold hl').2 p hp
        · exact (hold hl').1 p hp

theorem Spelled.declare (hname : N name) (n : Int) {f : Entry → Entry}
    (hf : ∀ level, (f { name, level }).Spelled N (T.entries.size + 1)) :
    ((T.installAt name n).2.modifyEntry T.entries.size f).Spelled N := by
  refine (h.installAt hname n).modifyEntry fun _ => ?_
  rw [entry_installAt_self, size_installAt]
  exact hf _

end

end Table

end Quadruple.Symbols
