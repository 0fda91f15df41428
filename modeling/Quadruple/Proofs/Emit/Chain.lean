import Quadruple.Emit.Expr
import Quadruple.Proofs.Association
import Quadruple.Proofs.Yields

/-!
# Chains as lists of blanks

A chain is a span of links in a common store, and merging two chains changes the store. As long as
no two chains share a blank, each of them stands for a list of blanks of its own: `Holds links c bs`.

Main statements:
* `Holds.merge` and `Holds.other`: a merge appends the lists of the two chains and leaves the
  lists of all others.
* `resolve_eq`: resolving a chain whose blanks are distinct and have no label yet emits one
  equation for each blank, in order, and nothing else.
-/

namespace Quadruple.Emit

open List

variable {links : Array Link} {bs cs : List Nat} {s : State} {c : Chain} {b : Nat} {n : Int}

/-! ## Runs of links -/

/-- A walk along the links from `i` on meets the blanks `bs` and comes to `j`. -/
inductive Walk (links : Array Link) : Option Nat → List Nat → Option Nat → Prop
  | refl {i : Option Nat} : Walk links i [] i
  | cons {i : Nat} {l : Link} {bs : List Nat} {j : Option Nat} :
      links[i]? = some l → Walk links l.next bs j → Walk links (some i) (l.blank :: bs) j

namespace Walk

variable {i j : Option Nat}

theorem length_le (h : Walk links i bs j) (hd : bs.Nodup) : bs.length ≤ links.size := by
  have hsub : bs ⊆ links.toList.map (·.blank) := by
    induction h with
    | refl => exact nil_subset _
    | cons hi _ ih =>
      have hmem := mem_map_of_mem (f := Link.blank) (Array.mem_toList_iff.2 (Array.mem_of_getElem? hi))
      exact cons_subset.2 ⟨hmem, ih (nodup_cons.1 hd).2⟩
  simpa using (hd.subperm hsub).length_le

theorem blanksFrom_eq (h : Walk links i bs j) (hj : j.bind (links[·]?) = none) {fuel : Nat}
    (hfuel : bs.length ≤ fuel) : blanksFrom links fuel i = bs := by
  induction h generalizing fuel with
  | @refl i =>
    cases fuel with
    | zero => rfl
    | succ fuel =>
      cases i with
      | none => rfl
      | some i => simp [blanksFrom, show links[i]? = none from hj]
  | cons hi _ ih =>
    obtain ⟨fuel, rfl⟩ := Nat.exists_eq_add_of_le' (le_trans (Nat.succ_pos _) hfuel)
    simp [blanksFrom, hi, ih hj (Nat.le_of_succ_le_succ hfuel)]

/-- A walk to the end of the links goes on where a shorter one has come to. -/
theorem rest (h : Walk links i cs j) (hall : Walk links i bs none) :
    ∃ ds, bs = cs ++ ds ∧ Walk links j ds none := by
  induction h generalizing bs with
  | refl => exact ⟨bs, rfl, hall⟩
  | cons hi _ ih =>
    cases hall with
    | cons hi' hall =>
      cases hi.symm.trans hi'
      obtain ⟨ds, rfl, hrest⟩ := ih hall
      exact ⟨ds, rfl, hrest⟩

end Walk

/-- The links from `i` on end with link `l`, and `bs` are their blanks. -/
inductive LinkRun (links : Array Link) : Nat → Nat → List Nat → Prop
  | last {i b : Nat} : links[i]? = some ⟨b, none⟩ → LinkRun links i i [b]
  | cons {i j l b : Nat} {bs : List Nat} :
      links[i]? = some ⟨b, some j⟩ → LinkRun links j l bs → LinkRun links i l (b :: bs)

namespace LinkRun

variable {i l : Nat} (h : LinkRun links i l bs)
include h

theorem last_link : ∃ b ∈ bs, links[l]? = some ⟨b, none⟩ := by
  induction h with
  | last hi => exact ⟨_, mem_singleton_self _, hi⟩
  | cons _ _ ih =>
    obtain ⟨b, hb, hl⟩ := ih
    exact ⟨b, mem_cons_of_mem _ hb, hl⟩

theorem push (x : Link) : LinkRun (links.push x) i l bs := by
  have hold : ∀ {k : Nat} {y : Link}, links[k]? = some y → (links.push x)[k]? = some y := by
    intro k y hk
    obtain ⟨hlt, -⟩ := Array.getElem?_eq_some_iff.1 hk
    rw [Array.getElem?_push_lt hlt, ← Array.getElem?_eq_getElem hlt, hk]
  induction h with
  | last hi => exact .last (hold hi)
  | cons hi _ ih => exact .cons (hold hi) ih

theorem modify_other {k : Nat} {f : Link → Link} {x : Link} (hk : links[k]? = some x)
    (hx : x.blank ∉ bs) : LinkRun (links.modify k f) i l bs := by
  have hold : ∀ {j : Nat} {y : Link}, links[j]? = some y → y.blank ≠ x.blank →
      (links.modify k f)[j]? = some y := by
    intro j y hj hne
    have hkj : k ≠ j := by
      rintro rfl
      exact hne (Option.some.inj (hj.symm.trans hk) ▸ rfl)
    rw [Array.getElem?_modify, if_neg hkj, hj]
  induction h with
  | last hi => exact .last (hold hi fun he => hx (by simp [← he]))
  | cons hi _ ih =>
    exact .cons (hold hi fun he => hx (by simp [← he])) (ih fun hm => hx (mem_cons_of_mem _ hm))

theorem append {j m : Nat} (h' : LinkRun links j m cs) (hd : bs.Disjoint cs) :
    LinkRun (links.modify l ({ · with next := some j })) i m (bs ++ cs) := by
  induction h with
  | @last i b hi =>
    have hb : b ∉ cs := disjoint_left.1 hd (mem_singleton_self b)
    refine .cons ?_ (h'.modify_other hi hb)
    rw [Array.getElem?_modify, if_pos rfl, hi]
    rfl
  | @cons i k l b bs hi hrun ih =>
    obtain ⟨b', -, hl⟩ := hrun.last_link
    have hne : l ≠ i := by
      rintro rfl
      simp [hi] at hl
    refine .cons ?_ (ih (disjoint_of_disjoint_cons_left hd))
    rw [Array.getElem?_modify, if_neg hne, hi]

theorem walk : Walk links (some i) bs none := by
  induction h with
  | last hi => exact .cons hi .refl
  | cons hi _ ih => exact .cons hi ih

end LinkRun

/-! ## Chains -/

inductive Holds (links : Array Link) : Chain → List Nat → Prop
  | empty : Holds links .empty []
  | span {i l : Nat} {bs : List Nat} : LinkRun links i l bs → Holds links (.span i l) bs

namespace Holds

theorem push (h : Holds links c bs) (x : Link) : Holds (links.push x) c bs := by
  cases h with
  | empty => exact .empty
  | span h => exact .span (h.push x)

theorem single (links : Array Link) (b : Nat) :
    Holds (links.push ⟨b, none⟩) (.span links.size links.size) [b] :=
  .span (.last Array.getElem?_push_size)

end Holds

theorem Holds.walk (h : Holds links c bs) :
    Walk links c.first? bs none := by
  cases h with
  | empty => exact .refl
  | span h => exact h.walk

theorem Holds.blanksOf_eq (h : Holds s.links c bs) (hd : bs.Nodup) :
    s.blanksOf c = bs :=
  h.walk.blanksFrom_eq rfl (h.walk.length_le hd)

def mergedLinks (links : Array Link) : Chain → Chain → Array Link
  | .span _ last, .span second _ => links.modify last ({ · with next := some second })
  | _, _ => links

def mergedChain : Chain → Chain → Chain
  | .empty, b => b
  | a, .empty => a
  | .span first _, .span _ last => .span first last

theorem merge_eq (a b : Chain) (s : State) :
    merge a b s = .ok (mergedChain a b) { s with links := mergedLinks s.links a b } := by
  cases a <;> cases b <;> rfl

theorem Holds.merge {a b : Chain} (ha : Holds links a bs) (hb : Holds links b cs)
    (hd : bs.Disjoint cs) : Holds (mergedLinks links a b) (mergedChain a b) (bs ++ cs) := by
  cases ha with
  | empty => exact hb
  | span ha =>
    cases hb with
    | empty => exact (append_nil _).symm ▸ .span ha
    | span hb => exact .span (ha.append hb hd)

theorem Holds.other {a b : Chain} (ha : Holds links a bs) (hc : Holds links c cs)
    (hd : bs.Disjoint cs) : Holds (mergedLinks links a b) c cs := by
  cases ha with
  | empty => cases b <;> exact hc
  | span ha =>
    obtain ⟨x, hx, hl⟩ := ha.last_link
    cases b with
    | empty => exact hc
    | span second last =>
      cases hc with
      | empty => exact .empty
      | span hc => exact .span (hc.modify_other hl (disjoint_left.1 hd hx))

/-! ## Chains side by side -/

/-- The chains stand for lists of blanks that have no blank in common. -/
structure Apart (links : Array Link) (held : List (Chain × List Nat)) : Prop where
  chains : ∀ p ∈ held, Holds links p.1 p.2
  distinct : (held.flatMap (·.2)).Nodup

namespace Apart

variable {held : List (Chain × List Nat)}

theorem perm (h : Apart links held) {held' : List (Chain × List Nat)} (hp : held.Perm held') :
    Apart links held' :=
  ⟨fun p hm => h.chains p (hp.mem_iff.2 hm), (hp.flatMap_right _).nodup_iff.1 h.distinct⟩

theorem push (h : Apart links held) (hb : b ∉ held.flatMap (·.2)) :
    Apart (links.push ⟨b, none⟩) ((.span links.size links.size, [b]) :: held) where
  chains := forall_mem_cons.2 ⟨.single links b, fun p hp => (h.chains p hp).push _⟩
  distinct := nodup_cons.2 ⟨hb, h.distinct⟩

theorem merge {a b : Chain} (h : Apart links ((a, bs) :: (b, cs) :: held)) :
    Apart (mergedLinks links a b) ((mergedChain a b, bs ++ cs) :: held) := by
  obtain ⟨ha, hb, hheld⟩ : Holds links a bs ∧ Holds links b cs ∧
      ∀ p ∈ held, Holds links p.1 p.2 := by simpa using h.chains
  have hd : (bs ++ (cs ++ held.flatMap (·.2))).Nodup := by simpa using h.distinct
  -- The merge writes behind the last link of `a`, which no other chain shares.
  have hapart : bs.Disjoint (cs ++ held.flatMap (·.2)) := fun k hk hk' =>
    (nodup_append.1 hd).2.2 k hk k hk' rfl
  obtain ⟨hcs, hrest⟩ := disjoint_append_right.1 hapart
  refine ⟨forall_mem_cons.2 ⟨ha.merge hb hcs, fun p hp => ?_⟩, by simpa using hd⟩
  exact ha.other (hheld p hp) fun k hk hk' => hrest hk (mem_flatMap.2 ⟨p, hp, hk'⟩)

end Apart

/-! ## Equations -/

/-- The state behind the equations that give the blanks `bs` the label `n`. -/
def State.patchAll (s : State) (bs : List Nat) (n : Int) : State :=
  { s with
    code := s.code ++ bs.map fun b : Nat => Quad.patch b n
    patched := (bs.map fun b => (b, n)).reverse ++ s.patched }

@[simp]
theorem State.patchAll_nil (s : State) (n : Int) : s.patchAll [] n = s := by rfl

theorem State.patchAll_cons (s : State) (b : Nat) (bs : List Nat) (n : Int) :
    s.patchAll (b :: bs) n = (s.patchAll [b] n).patchAll bs n := by
  simp [patchAll]

theorem keys_patchAll (s : State) (bs : List Nat) (n : Int) :
    (s.patchAll bs n).patched.map Prod.fst = bs.reverse ++ s.patched.map Prod.fst := by
  simp [State.patchAll, Function.comp_def]

theorem resolution?_eq_none_iff : s.resolution? b = none ↔ b ∉ s.patched.map Prod.fst :=
  lookup_eq_none

theorem patch_eq (hb : b ∉ s.patched.map Prod.fst) : patch b n s = .ok () (s.patchAll [b] n) := by
  have hl : s.patched.lookup b = none := resolution?_eq_none_iff.2 hb
  exact eq_of_yields (by simp [patch, hl, emit, State.patchAll, keepsMark])

theorem disjoint_patchAll (hb : b ∉ bs) (hnew : (b :: bs).Disjoint (s.patched.map Prod.fst)) :
    bs.Disjoint ((s.patchAll [b] n).patched.map Prod.fst) := by
  simp only [State.patchAll, map_cons, map_nil, reverse_singleton, singleton_append]
  exact disjoint_cons_right.2 ⟨hb, disjoint_of_disjoint_cons_left hnew⟩

theorem forM_patch_eq (n : Int) (hd : bs.Nodup)
    (hnew : bs.Disjoint (s.patched.map Prod.fst)) :
    bs.forM (fun b => patch b n) s = .ok () (s.patchAll bs n) := by
  induction bs generalizing s with
  | nil =>
    rw [State.patchAll_nil]
    rfl
  | cons b bs ih =>
    obtain ⟨hb, hd⟩ := nodup_cons.1 hd
    have hpatch := patch_eq (n := n) (hnew mem_cons_self)
    have hrest := ih hd (disjoint_patchAll (n := n) hb hnew)
    refine eq_of_yields (yields_bind.2 ((yields_iff_of_eq hpatch).2 ?_))
    exact (yields_iff_of_eq hrest).2 (State.patchAll_cons s b bs n).symm

/-- A walk that gives a label to the blanks it meets ends with the links or at a blank that has
one, unless it is cut off. -/
theorem resolveFrom_cases (n : Int) (fuel : Nat) (i : Option Nat) (s : State) :
    ∃ bs j, Walk s.links i bs j ∧ bs.Nodup ∧ bs.Disjoint (s.patched.map Prod.fst) ∧
      ((bs.length = fuel ∨ j.bind (s.links[·]?) = none) ∧
          resolveFrom n fuel i s = .ok () (s.patchAll bs n) ∨
        ∃ l m, j.bind (s.links[·]?) = some l ∧ (s.patchAll bs n).resolution? l.blank = some m ∧
          resolveFrom n fuel i s = .error (.patchedTwice l.blank m n) (s.patchAll bs n)) := by
  have hnil := s.patchAll_nil n
  induction fuel generalizing i s with
  | zero => exact ⟨[], i, .refl, nodup_nil, disjoint_nil_left _, .inl ⟨.inl rfl, by rw [hnil]; rfl⟩⟩
  | succ fuel ih =>
    cases hi : i.bind (s.links[·]?) with
    | none =>
      refine ⟨[], i, .refl, nodup_nil, disjoint_nil_left _, .inl ⟨.inr hi, ?_⟩⟩
      rw [hnil]
      cases i with
      | none => rfl
      | some i => exact eq_of_yields (by simp [resolveFrom, show s.links[i]? = none from hi])
    | some l =>
      obtain ⟨i, rfl, hl⟩ := Option.bind_eq_some_iff.1 hi
      have hstep : resolveFrom n (fuel + 1) (some i) s =
          (patch l.blank n >>= fun _ => resolveFrom n fuel l.next) s := by
        rw [resolveFrom, run_get_bind, hl]
      rw [hstep]
      cases hb : s.resolution? l.blank with
      | some m =>
        refine ⟨[], some i, .refl, nodup_nil, disjoint_nil_left _, .inr ⟨l, m, hi, hnil ▸ hb, ?_⟩⟩
        refine run_bind_of_error ?_
        rw [patch, run_get_bind, show s.patched.lookup l.blank = some m from hb, hnil]
        rfl
      | none =>
        have hkey := resolution?_eq_none_iff.1 hb
        obtain ⟨bs, j, hwalk, hd, hnew, hout⟩ := ih l.next (s.patchAll [l.blank] n) rfl
        rw [keys_patchAll] at hnew
        obtain ⟨hother, hnew⟩ := disjoint_append_right.1 hnew
        refine ⟨l.blank :: bs, j, .cons hl hwalk,
          nodup_cons.2 ⟨fun hm => hother hm (by simp), hd⟩, disjoint_cons_left.2 ⟨hkey, hnew⟩, ?_⟩
        rw [run_bind_of_ok (patch_eq hkey), s.patchAll_cons l.blank bs]
        refine Or.imp_left ?_ hout
        rintro ⟨hend, hrun⟩
        exact ⟨hend.imp_left (congrArg Nat.succ), hrun⟩

theorem resolve_cases (c : Chain) (n : Int) (s : State) :
    ∃ bs j, Walk s.links c.first? bs j ∧ bs.Nodup ∧ bs.Disjoint (s.patched.map Prod.fst) ∧
      (j.bind (s.links[·]?) = none ∧ resolve c n s = .ok () (s.patchAll bs n) ∨
        ∃ l m, j.bind (s.links[·]?) = some l ∧ (s.patchAll bs n).resolution? l.blank = some m ∧
          resolve c n s = .error (.patchedTwice l.blank m n) (s.patchAll bs n)) := by
  obtain ⟨bs, j, hwalk, hd, hnew, hout⟩ := resolveFrom_cases n (s.links.size + 1) c.first? s
  refine ⟨bs, j, hwalk, hd, hnew, hout.imp_left fun ⟨hend, hrun⟩ => ⟨hend.resolve_left ?_, hrun⟩⟩
  -- each link that was visited had a blank of its own without a label
  exact ne_of_lt (Nat.lt_succ_of_le (hwalk.length_le hd))

theorem resolve_eq (h : Holds s.links c bs) (n : Int) (hd : bs.Nodup)
    (hnew : bs.Disjoint (s.patched.map Prod.fst)) : resolve c n s = .ok () (s.patchAll bs n) := by
  obtain ⟨cs, j, hwalk, -, -, hout⟩ := resolve_cases c n s
  obtain ⟨ds, rfl, hrest⟩ := hwalk.rest h.walk
  rcases hout with ⟨hend, hrun⟩ | ⟨l, m, hl, hm, -⟩
  · cases hrest with
    | refl => rwa [append_nil]
    | cons hi => cases hi.symm.trans hend
  · cases hrest with
    | refl => cases hl
    | cons hi =>
      -- the blank at which the walk would end is a later one of the chain
      cases hi.symm.trans hl
      have hkey : l.blank ∈ cs.reverse ++ s.patched.map Prod.fst := by
        rw [← keys_patchAll s cs n]
        exact not_not.1 fun hnone => by simp [resolution?_eq_none_iff.2 hnone] at hm
      rcases mem_append.1 hkey with hcs | hkey
      · exact absurd rfl ((nodup_append.1 hd).2.2 _ (mem_reverse.1 hcs) _ mem_cons_self)
      · exact absurd hkey (hnew (by simp))

/-- Whatever the state and the chain, resolving ends: behind an equation for each blank of the
chain, or with a fault at the first link whose blank has a label, behind an equation for each link
before it. -/
theorem resolve_stops (s : State) (c : Chain) (label : Int) :
    ∃ bs j, Walk s.links c.first? bs j ∧ bs.Nodup ∧ (∀ b ∈ bs, s.resolution? b = none) ∧
      (j.bind (s.links[·]?) = none ∧ bs = s.blanksOf c ∧
          resolve c label s = .ok () (s.patchAll bs label) ∨
        ∃ l first, j.bind (s.links[·]?) = some l ∧
          (s.patchAll bs label).resolution? l.blank = some first ∧
          resolve c label s = .error (.patchedTwice l.blank first label) (s.patchAll bs label)) := by
  obtain ⟨bs, j, hwalk, hd, hnew, hout⟩ := resolve_cases c label s
  refine ⟨bs, j, hwalk, hd, fun b hb => resolution?_eq_none_iff.2 (hnew hb), ?_⟩
  exact hout.imp_left fun ⟨hend, hrun⟩ =>
    ⟨hend, (hwalk.blanksFrom_eq hend (hwalk.length_le hd)).symm, hrun⟩

end Quadruple.Emit
