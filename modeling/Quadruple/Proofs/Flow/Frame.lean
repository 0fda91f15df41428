import Quadruple.Proofs.Flow.Content

/-!
# The frame of a stream

A stream that has a flow graph goes into a function and out of it in turn, and outside of functions
it has nothing but globals and equations. `standing` follows this. Main statement:
`standing_of_build`, with the names that the graph has from the frame of its stream.
-/

namespace Quadruple

open List

/-- Whether an instruction begins or ends a function or declares a global. -/
def Quad.isFrame : Quad → Bool
  | .globalDecl _ | .funcBegin .. | .funcEnd => true
  | _ => false

def Quad.head? : Quad → Option String
  | .funcBegin name _ => some name
  | _ => none

namespace Flow

/-- Where a stream stands behind an instruction: within a function or not. -/
def stand : Bool → Quad → Option Bool
  | within, .patch .. => some within
  | false, .globalDecl _ => some false
  | false, .funcBegin .. => some true
  | true, .funcEnd => some false
  | true, q => if q.isFrame then none else some true
  | false, _ => none

/-- Where a stream stands at its end, if it does not go wrong before. -/
def standing (code : List Quad) : Option Bool := code.foldlM stand false

variable {b a : Bool} {code qs : List Quad} {g : Graph} {part : Option Routine} {q : Quad}

theorem standing_append :
    standing (code ++ qs) = some b ↔ ∃ a, standing code = some a ∧ qs.foldlM stand a = some b := by
  rw [standing, foldlM_append, Option.bind_eq_bind, Option.bind_eq_some_iff]
  rfl

theorem stand_of_not_frame (h : q.isFrame = false) (hq : stand a q = some b) :
    b = a ∧ (q.equation? = none → a = true) := by
  cases q with
  | globalDecl | funcBegin | funcEnd => cases h
  | patch b l => exact ⟨(Option.some.inj hq).symm, nofun⟩
  | _ =>
    cases a with
    | false => cases hq
    | true => exact ⟨(Option.some.inj hq).symm, fun _ => rfl⟩

theorem foldlM_stand_of_not_frame (h : ∀ q ∈ qs, q.isFrame = false)
    (hqs : qs.foldlM stand a = some b) : b = a ∧ ((∃ q ∈ qs, q.equation? = none) → a = true) := by
  induction qs with
  | nil =>
    cases hqs
    exact ⟨rfl, by simp⟩
  | cons q qs ih =>
    obtain ⟨hq, hrest⟩ := forall_mem_cons.1 h
    rw [foldlM_cons, Option.bind_eq_bind, Option.bind_eq_some_iff] at hqs
    obtain ⟨c, hc, hqs⟩ := hqs
    obtain ⟨rfl, hsolid⟩ := stand_of_not_frame hq hc
    obtain ⟨rfl, hrest⟩ := ih hrest hqs
    refine ⟨rfl, ?_⟩
    rintro ⟨p, hp, hsome⟩
    rcases mem_cons.1 hp with rfl | hp
    · exact hsolid hsome
    · exact hrest ⟨p, hp, hsome⟩

theorem frame_of_buildFrom {eqs : Equations} {place : Nat} {g' : Graph} {cur : Option Draft}
    (h : buildFrom eqs place g cur code = .ok g') : code.foldlM stand cur.isSome = some false ∧
      g'.funcs.map (·.name) =
        g.funcs.map (·.name) ++ cur.toList.map (·.name) ++ code.filterMap Quad.head? := by
  fun_induction buildFrom eqs place g cur code with
  | case1 =>
    cases h
    exact ⟨rfl, by simp⟩
  | case3 place g cur b l qs ih =>
    obtain ⟨hstand, hnames⟩ := ih h
    exact ⟨by cases cur <;> exact hstand, hnames⟩
  | case4 place g v qs ih =>
    obtain ⟨hstand, hnames⟩ := ih h
    exact ⟨hstand, hnames⟩
  | case6 place g name tag qs ih =>
    obtain ⟨hstand, hnames⟩ := ih h
    refine ⟨hstand, ?_⟩
    rw [hnames]
    simp [Quad.head?, Draft.start]
  | case9 place g qs d ih =>
    obtain ⟨f, hfin, h⟩ := exists_of_bind_ok h
    obtain ⟨hstand, hnames⟩ := ih f h
    refine ⟨hstand, ?_⟩
    rw [hnames, filterMap_cons_none rfl]
    simp [(Draft.finish_ok_iff.1 hfin).1, (d.heading_add .funcEnd).1]
  | case11 place g c t d u rest ih =>
    obtain ⟨hstand, hnames⟩ := ih h
    refine ⟨hstand, ?_⟩
    rw [hnames, filterMap_cons_none rfl, filterMap_cons_none rfl]
    simp [(d.heading_add _).1]
  | case14 place g q qs h1 h2 h3 h4 h5 d ih =>
    obtain ⟨hstand, hnames⟩ := ih h
    have hq : stand true q = some true ∧ q.head? = none := by
      cases q <;> simp_all [stand, Quad.isFrame, Quad.head?]
    refine ⟨?_, ?_⟩
    · rw [foldlM_cons]
      show (stand true q).bind _ = _
      rw [hq.1]
      exact hstand
    · rw [hnames, filterMap_cons_none hq.2]
      simp [(d.heading_add q).1]
  | case2 | case5 | case7 | case8 | case10 | case12 | case13 => cases h

theorem standing_of_build (h : build code = .ok g) :
    standing code = some false ∧ g.globals = code.filterMap Quad.global? ∧
      g.funcs.map (·.name) = code.filterMap Quad.head? := by
  have hglobals := (builds_of_build h).1
  obtain ⟨eqs, heqs, h⟩ := exists_of_bind_ok h
  obtain ⟨hstand, hnames⟩ := frame_of_buildFrom h
  exact ⟨hstand, hglobals, hnames⟩

/-! ## Functions in their places -/

theorem routinesFrom_cons (h : stand part.isSome q = some b) : ∃ rs part', part'.isSome = b ∧
      ∀ qs, routinesFrom part (q :: qs) = rs ++ routinesFrom part' qs := by
  cases part with
  | none =>
    cases q with
    | funcBegin name tag => exact ⟨[], some ⟨name, tag, []⟩, Option.some.inj h, fun _ => rfl⟩
    | globalDecl | patch => exact ⟨[], none, Option.some.inj h, fun _ => rfl⟩
    | _ => cases h
  | some r =>
    cases q with
    | funcBegin | globalDecl => cases h
    | funcEnd => exact ⟨[r], none, Option.some.inj h, fun _ => rfl⟩
    | _ => exact ⟨[], some { r with body := r.body ++ [_] }, Option.some.inj h, fun _ => rfl⟩

theorem routinesFrom_append (h : qs.foldlM stand part.isSome = some b) :
    ∃ rs part', part'.isSome = b ∧
      ∀ rest, routinesFrom part (qs ++ rest) = rs ++ routinesFrom part' rest := by
  induction qs generalizing part with
  | nil => exact ⟨[], part, Option.some.inj h, fun _ => rfl⟩
  | cons q qs ih =>
    rw [foldlM_cons, Option.bind_eq_bind, Option.bind_eq_some_iff] at h
    obtain ⟨c, hc, hqs⟩ := h
    obtain ⟨rs, part1, rfl, hone⟩ := routinesFrom_cons hc
    obtain ⟨rs', part2, hb, hall⟩ := ih hqs
    refine ⟨rs ++ rs', part2, hb, fun rest => ?_⟩
    rw [cons_append, hone, hall, append_assoc]

end Flow

end Quadruple
