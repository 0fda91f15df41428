import Quadruple.Proofs.Symbols.Table

/-!
# The table as a stack of scopes

A table is asked for scopes to be entered and left and for names to be put on a level. `seen` says
what the levels have for a name; it is all that the searches look at.

Main statement: `stack_of_scopes`. Whatever a new table was asked for, its globals are there, every
entry knows its name and its level, and a search takes the innermost level that has the name.
-/

namespace Quadruple.Symbols

open List

inductive Request where
  | enter
  | leave
  | install (name : String)
  | installAt (name : String) (level : Int)
deriving DecidableEq

namespace Table

def perform (T : Table) : Request → Table
  | .enter => T.enter
  | .leave => T.leave
  | .install name => (T.install name).2
  | .installAt name n => (T.installAt name n).2

def performAll (T : Table) (rs : List Request) : Table := rs.foldl perform T

/-- The levels, the globals first. -/
def levels (T : Table) : List Level := T.globals :: T.inner.reverse

/-- What each level has for a name. -/
def seen (T : Table) (name : String) : List (Option EntryId) := T.levels.map (·.lookup name)

variable {T T' : Table} {k : Nat} {name m : String}

theorem length_seen : (T.seen name).length = T.level + 1 := by simp [seen, levels, level]

/-! ## What a request does to the levels -/

theorem seen_enter : T.enter.seen name = T.seen name ++ [none] := by
  simp [seen, levels, Table.enter]

theorem seen_leave : T.leave.seen name = (T.seen name).take (T.leave.level + 1) := by
  cases hi : T.inner <;> simp [seen, levels, level, Table.leave, hi]

/-- A request is one for the current level unless it names another one. -/
theorem clampLevel_cases (n : Int) :
    T.clampLevel n = T.level ∨ n = T.clampLevel n ∧ T.clampLevel n < T.level := by
  unfold clampLevel
  split
  · exact .inl rfl
  · next h =>
    simp only [Bool.or_eq_true, decide_eq_true_eq] at h
    omega

theorem clampLevel_le (n : Int) : T.clampLevel n ≤ T.level :=
  (T.clampLevel_cases n).elim le_of_eq fun h => le_of_lt h.2

theorem reverse_modify {ls : List Level} (f : Level → Level) (h : k < ls.length) :
    (ls.modify (ls.length - (k + 1)) f).reverse = ls.reverse.modify k f := by
  refine ext_getElem? fun i => ?_
  by_cases hi : i < ls.length
  · have hpos : ls.length - (k + 1) = ls.length - 1 - i ↔ k = i := by omega
    rw [getElem?_reverse (by simpa using hi), getElem?_modify, getElem?_modify,
      getElem?_reverse hi, length_modify]
    simp only [hpos]
  · simp [Nat.le_of_not_lt hi]

theorem levels_installAt (n : Int) : (T.installAt name n).2.levels =
    T.levels.modify (T.clampLevel n) ((name, T.entries.size) :: ·) := by
  have hle := T.clampLevel_le n
  simp only [installAt]
  cases hc : T.clampLevel n with
  | zero => rfl
  | succ c =>
    rw [hc] at hle
    exact congrArg (T.globals :: ·) (reverse_modify _ hle)

theorem seen_installAt (n : Int) : (T.installAt name n).2.seen m =
    if m = name then (T.seen m).set (T.clampLevel n) (some T.entries.size) else T.seen m := by
  rw [seen, levels_installAt, seen]
  refine ext_getElem? fun i => ?_
  by_cases hm : m = name
  · by_cases hi : T.clampLevel n = i
    · have hlt : i < T.levels.length := by simpa [← hi, levels, level] using T.clampLevel_le n
      simp [hm, hi, hlt]
    · simp [hm, hi]
  · have hcons : (·.lookup m) ∘ ((name, T.entries.size) :: ·) = (·.lookup m) :=
      funext fun l => by simp [lookup_cons, beq_false_of_ne hm]
    by_cases hi : T.clampLevel n = i <;> simp [hm, hi, hcons]

theorem level_installAt (n : Int) : (T.installAt name n).2.level = T.level := by
  simp only [installAt, level]
  split <;> simp

/-! ## Entries and searches -/

/-- Every level holds entries that were made for the name and the level. -/
def Placed (T : Table) : Prop :=
  ∀ name k id, (T.seen name)[k]? = some (some id) →
    id < T.entries.size ∧ (T.entry id).name = name ∧ (T.entry id).level = k

theorem Placed.installAt (h : T.Placed) (n : Int) : (T.installAt name n).2.Placed := by
  intro m k id hid
  have hid' : k = T.clampLevel n ∧ m = name ∧ id = T.entries.size ∨
      (T.seen m)[k]? = some (some id) := by
    rw [seen_installAt] at hid
    grind
  rw [size_installAt]
  rcases hid' with ⟨rfl, rfl, rfl⟩ | hold
  · rw [entry_installAt_self]
    exact ⟨Nat.lt_succ_self _, rfl, rfl⟩
  · obtain ⟨hlt, hentry⟩ := h m k id hold
    rw [entry_installAt_of_lt n hlt]
    exact ⟨Nat.lt_succ_of_lt hlt, hentry⟩

theorem Placed.perform (h : T.Placed) (r : Request) : (T.perform r).Placed := by
  cases r with
  | enter | leave =>
    intro name k id hid
    refine h name k id ?_
    simp only [Table.perform, seen_enter, seen_leave] at hid
    grind
  | install name | installAt name n => exact h.installAt _

theorem placed_performAll (rs : List Request) : (empty.performAll rs).Placed := by
  have hempty : empty.Placed := by
    intro name k id hid
    cases k <;> cases hid
  exact foldlRecOn rs perform hempty fun _ h r _ => h.perform r

theorem lookup?_eq (name : String) : T.lookup? name = (T.seen name).reverse.findSome? id := by
  simp [lookup?, seen, levels, findSome?_map]

/-! ## What is seen outside of a scope -/

/-- The levels up to `n` have in `T'` what they had in `T`, the names in `named` apart. -/
structure Spares (n : Nat) (named : Nat → String → Prop) (T T' : Table) : Prop where
  level : n < T'.level
  seen : ∀ k ≤ n, ∀ name, ¬named k name → (T'.seen name)[k]? = (T.seen name)[k]?
  size : T.entries.size ≤ T'.entries.size
  entry : ∀ id < T.entries.size, T'.entry id = T.entry id

variable {n : Nat} {named : Nat → String → Prop}

theorem Spares.installAt (h : Spares n named T T') (l : Int)
    (hnamed : ∀ k ≤ n, l = k → named k name) : Spares n named T (T'.installAt name l).2 := by
  refine ⟨(level_installAt l).symm ▸ h.level, fun k hk m hm => ?_, ?_, fun id hid => ?_⟩
  · rw [seen_installAt, ← h.seen k hk m hm]
    split
    case isFalse => rfl
    case isTrue hname =>
      refine getElem?_set_ne fun hc => hm (hname ▸ hnamed k hk ?_)
      have hlevel := h.level
      have hcases := T'.clampLevel_cases l
      omega
  · rw [size_installAt]
    exact Nat.le_succ_of_le h.size
  · rw [entry_installAt_of_lt l (hid.trans_le h.size), h.entry id hid]

theorem Spares.perform (h : Spares n named T T') {r : Request} (hlevel : n < (T'.perform r).level)
    (hnamed : ∀ k ≤ n, ∀ name, r = .installAt name k → named k name) :
    Spares n named T (T'.perform r) := by
  have hn := h.level
  cases r with
  | enter =>
    refine ⟨hlevel, fun k hk name hm => ?_, h.size, h.entry⟩
    rw [← h.seen k hk name hm, Table.perform, seen_enter, getElem?_append_left]
    rw [length_seen]
    omega
  | leave =>
    refine ⟨hlevel, fun k hk name hm => ?_, h.size, h.entry⟩
    rw [← h.seen k hk name hm, Table.perform, seen_leave, getElem?_take_of_lt]
    exact Nat.lt_succ_of_lt (hk.trans_lt hlevel)
  | install name => exact h.installAt _ fun k hk hl => by omega
  | installAt name l => exact h.installAt l fun k hk hl => hnamed k hk name (by rw [hl])

theorem spares_performAll {body : List Request}
    (habove : ∀ p, p <+: body → T.level < (T.enter.performAll p).level) :
    Spares T.level (fun k name => .installAt name k ∈ body) T (T.enter.performAll body) := by
  have hall : ∀ p, p <+: body →
      Spares T.level (fun k name => .installAt name k ∈ body) T (T.enter.performAll p) := by
    intro p
    induction p using reverseRecOn with
    | nil =>
      refine fun hp => ⟨habove [] hp, fun k hk name _ => ?_, le_rfl, fun _ _ => rfl⟩
      rw [performAll, foldl_nil, seen_enter, getElem?_append_left]
      exact length_seen.symm ▸ Nat.lt_succ_of_le hk
    | append_singleton p r ih =>
      intro hp
      have hrun : T.enter.performAll (p ++ [r]) = (T.enter.performAll p).perform r := by
        simp [performAll]
      have hlevel := habove _ hp
      rw [hrun] at hlevel ⊢
      refine (ih ((prefix_append p [r]).trans hp)).perform hlevel fun k _ name hr => ?_
      exact hp.subset (by simp [hr])
  exact hall body prefix_rfl

/-- A new table after any requests. A part of them that enters a scope, never leaves it on the way
and leaves it at its end does nothing to the levels that were there before, except for the names
that it puts on one of these by its number. -/
theorem stack_of_scopes (rs : List Request) :
    let T := empty.performAll rs
    (∀ name, (T.seen name).head? = some (T.lookupGlobal? name)) ∧ (T.level = 0 → T.leave = T) ∧
    (∀ name n m, (T.installAt name n).2.seen m = if m = name then
      (T.seen m).set (T.clampLevel n) (some (T.installAt name n).1) else T.seen m) ∧
    (∀ name k id, (T.seen name)[k]? = some (some id) →
      id < T.entries.size ∧ (T.entry id).name = name ∧ (T.entry id).level = k) ∧
    (∀ name, T.lookup? name = (T.seen name).reverse.findSome? id) ∧
    ∀ body, (∀ p, p <+: body → T.level < (T.enter.performAll p).level) →
      (T.enter.performAll body).level = T.level + 1 →
      let T' := (T.enter.performAll body).leave
      (∀ k ≤ T.level, ∀ name, .installAt name k ∉ body → (T'.seen name)[k]? = (T.seen name)[k]?) ∧
      (∀ name id, some id ∈ T.seen name → T'.entry id = T.entry id) ∧
      ∀ name, (∀ k ≤ T.level, .installAt name k ∉ body) →
        T'.seen name = T.seen name ∧ T'.lookup? name = T.lookup? name := by
  intro T
  have hplaced : T.Placed := placed_performAll rs
  refine ⟨fun _ => rfl, fun h => ?_, fun _ n _ => seen_installAt n, hplaced, lookup?_eq,
    fun body habove hend => ?_⟩
  · have hinner : T.inner = [] := by simpa [level] using h
    rw [Table.leave, hinner, tail_nil, ← hinner]
  have hspares := spares_performAll habove
  intro T'
  have hlevel : T'.level = T.level := by
    have hend' : (T.enter.performAll body).inner.length = T.level + 1 := hend
    simp [T', level, Table.leave, hend']
  have hseen : ∀ k ≤ T.level, ∀ name, .installAt name k ∉ body →
      (T'.seen name)[k]? = (T.seen name)[k]? := by
    intro k hk name hm
    rw [← hspares.seen k hk name hm, seen_leave, getElem?_take_of_lt]
    exact hlevel.symm ▸ Nat.lt_succ_of_le hk
  refine ⟨hseen, fun name id hid => ?_, fun name hname => ?_⟩
  · obtain ⟨k, hk⟩ := mem_iff_getElem?.1 hid
    exact hspares.entry id (hplaced name k id hk).1
  · have hsame : T'.seen name = T.seen name := by
      refine ext_getElem? fun k => ?_
      by_cases hk : k ≤ T.level
      · exact hseen k hk name (hname k hk)
      · simp [length_seen, hlevel, Nat.lt_of_not_le hk]
    exact ⟨hsame, by rw [lookup?_eq, lookup?_eq, hsame]⟩

/-- A loop in a function, in which a global is declared by its level and a local by a level that is
not there. -/
theorem nested_stack_of_scopes :
    let T := empty.performAll [.install "x", .enter, .install "y"]
    let body := [.installAt "x" 7, .enter, .installAt "g" 0, .leave, .install "y"]
    (∀ p, p <+: body → T.level < (T.enter.performAll p).level) ∧
    (T.enter.performAll body).level = T.level + 1 ∧
    (T.enter.performAll body).leave.lookup? "x" = T.lookup? "x" ∧
    (T.enter.performAll body).leave.lookup? "y" = T.lookup? "y" ∧
    (T.enter.performAll body).leave.lookup? "g" ≠ T.lookup? "g" := by
  intro T body
  have habove : ∀ p, p <+: body → T.level < (T.enter.performAll p).level := by
    simp only [← mem_inits]
    decide
  obtain ⟨-, -, -, -, -, hframe⟩ := stack_of_scopes [.install "x", .enter, .install "y"]
  obtain ⟨-, -, hlookup⟩ := hframe body habove (by decide)
  exact ⟨habove, by decide, (hlookup "x" (by decide)).2, (hlookup "y" (by decide)).2, by decide⟩

end Table

end Quadruple.Symbols
