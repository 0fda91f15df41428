import Quadruple.Proofs.Flow.Accept

/-!
# The functions of a stream that has a flow graph

`routines` reads the functions off a stream: each is what stands between its head and the next end
of a function. Main statement: `builds_of_build`. When a stream has a flow graph, the graph has the
globals of the stream in order, and for each routine of the stream the function that is made of it.
-/

namespace Quadruple

open List

def Quad.global? : Quad → Option Decl
  | .globalDecl v => some v
  | _ => none

namespace Flow

/-- The routines of the stream behind the part `cur` of one that has begun. -/
def routinesFrom : Option Routine → List Quad → List Routine
  | _, [] => []
  | none, .funcBegin name tag :: qs => routinesFrom (some ⟨name, tag, []⟩) qs
  | none, _ :: qs => routinesFrom none qs
  | some r, .funcEnd :: qs => r :: routinesFrom none qs
  | some r, q :: qs => routinesFrom (some { r with body := r.body ++ [q] }) qs

def routines (code : List Quad) : List Routine := routinesFrom none code

variable {code body : List Quad} {r : Routine} {d : Draft} {g : Graph}

theorem collectEquations_eq {eqs eqs' : Equations} (h : collectEquations eqs code = .ok eqs') :
    eqs' = eqs ++ code.filterMap Quad.equation? := by
  induction code generalizing eqs with
  | nil =>
    cases h
    simp
  | cons q code ih =>
    cases q with
    | patch b l =>
      rw [collectEquations] at h
      cases hb : eqs.lookup b with
      | none =>
        rw [hb] at h
        simpa [Quad.equation?] using ih h
      | some m =>
        rw [hb] at h
        by_cases hm : m = l
        · simp [hm] at h
        · simp [hm] at h
    | _ => exact ih h

def Reads (r : Routine) (d : Draft) : Prop :=
  ∃ qs, fuse? r.body = some qs ∧ d = (Draft.start r.name r.tag).addAll qs

theorem Reads.add (h : Reads r d) {q : Quad} {more : List Quad}
    (hq : fuse? more = some [q]) : Reads { r with body := r.body ++ more } (d.add q) := by
  obtain ⟨qs, hqs, rfl⟩ := h
  refine ⟨qs ++ [q], fuse?_append hqs hq, ?_⟩
  simp [Draft.addAll]

theorem Reads.patch (h : Reads r d) (b l : Int) :
    Reads { r with body := r.body ++ [.patch b l] } d := by
  obtain ⟨qs, hqs, rfl⟩ := h
  have hpatch : fuse? [.patch b l] = some [] := rfl
  exact ⟨qs, by simpa using fuse?_append hqs hpatch, rfl⟩

/-- What has been read of a stream: nothing but globals and whole functions, or a part of the
routine that has begun. -/
def ReadSoFar : Option Routine → Option Draft → Prop
  | none, none => True
  | some r, some d => Reads r d
  | _, _ => False

variable {part : Option Routine}

theorem ReadSoFar.eq_none (h : ReadSoFar part none) : part = none := by
  cases part with
  | none => rfl
  | some r => exact h.elim

theorem ReadSoFar.exists_reads (h : ReadSoFar part (some d)) : ∃ r, part = some r ∧ Reads r d := by
  cases part with
  | none => exact h.elim
  | some r => exact ⟨r, rfl, h⟩

theorem routinesFrom_cons_of_ne {q : Quad} {qs : List Quad} (hq : q ≠ .funcEnd) :
    routinesFrom (some r) (q :: qs) = routinesFrom (some { r with body := r.body ++ [q] }) qs := by
  cases q <;> simp_all [routinesFrom]

theorem builds_of_buildFrom {eqs : Equations} {place : Nat} {g' : Graph} {cur : Option Draft}
    (part : Option Routine) (hpart : ReadSoFar part cur)
    (h : buildFrom eqs place g cur code = .ok g') :
    g'.globals = g.globals ++ code.filterMap Quad.global? ∧ ∃ fs, g'.funcs = g.funcs ++ fs ∧
        Forall₂ (Routine.Builds eqs) (routinesFrom part code) fs := by
  fun_induction buildFrom eqs place g cur code generalizing part with
  | case1 =>
    cases h
    cases part <;> exact ⟨by simp, [], by simp, .nil⟩
  | case3 place g cur b l qs ih =>
    cases cur with
    | none =>
      obtain rfl := hpart.eq_none
      exact ih none hpart h
    | some d =>
      obtain ⟨r, rfl, hreads⟩ := hpart.exists_reads
      exact ih (some _) (hreads.patch b l) h
  | case4 place g v qs ih =>
    obtain rfl := hpart.eq_none
    obtain ⟨hglobals, hfuncs⟩ := ih none trivial h
    refine ⟨?_, hfuncs⟩
    rw [hglobals]
    simp [Quad.global?]
  | case6 place g name tag qs ih =>
    obtain rfl := hpart.eq_none
    exact ih (some ⟨name, tag, []⟩) ⟨[], rfl, rfl⟩ h
  | case9 place g qs d ih =>
    obtain ⟨r, rfl, us, hus, rfl⟩ := hpart.exists_reads
    obtain ⟨f, hfin, h⟩ := exists_of_bind_ok h
    obtain ⟨hglobals, fs, hfuncs, hall⟩ := ih f none trivial h
    exact ⟨hglobals, f :: fs, by simp [hfuncs], .cons ⟨us, hus, hfin⟩ hall⟩
  | case11 place g c t d u rest ih =>
    obtain ⟨r, rfl, hreads⟩ := hpart.exists_reads
    have hfuse : fuse? [.condJump c t, .jump u] = some [.branch c t u] := rfl
    obtain ⟨hglobals, hfuncs⟩ := ih (some _) (hreads.add hfuse) h
    refine ⟨hglobals, ?_⟩
    simpa [routinesFrom] using hfuncs
  | case14 place g q qs h1 h2 h3 h4 h5 d ih =>
    obtain ⟨r, rfl, hreads⟩ := hpart.exists_reads
    have hfuse : fuse? [q] = some [q] := by cases q <;> simp_all [fuse?]
    have hglobal : q.global? = none := by cases q <;> simp_all [Quad.global?]
    rw [routinesFrom_cons_of_ne h4, filterMap_cons_none hglobal]
    exact ih (some _) (hreads.add hfuse) h
  | case2 | case5 | case7 | case8 | case10 | case12 | case13 => cases h

theorem builds_of_build (h : build code = .ok g) : g.globals = code.filterMap Quad.global? ∧
      Forall₂ (Routine.Builds (code.filterMap Quad.equation?)) (routines code) g.funcs := by
  obtain ⟨eqs, heqs, h⟩ := exists_of_bind_ok h
  obtain rfl : eqs = code.filterMap Quad.equation? := collectEquations_eq heqs
  have hread : ReadSoFar none none := trivial
  obtain ⟨hglobals, fs, hfuncs, hall⟩ := builds_of_buildFrom none hread h
  refine ⟨hglobals, ?_⟩
  rw [hfuncs]
  exact hall

/-! ## Streams in parts -/

theorem Part.func_quads_injective {r' : Routine} (h : (Part.func r).quads = (Part.func r').quads) :
    r = r' := by
  obtain ⟨hhead, hrest⟩ := cons.inj h
  have hbody : r.body = r'.body := append_cancel_right hrest
  cases r
  cases r'
  cases hhead
  cases hbody
  rfl

def Part.global? : Part → Option Decl
  | .global v => some v
  | .func _ => none

theorem inner_of_fuse? (h : (fuse? body).isSome = true) :
    ∀ q ∈ body, q.global? = none ∧ q ≠ .funcEnd := by
  obtain ⟨qs, hqs⟩ := Option.isSome_iff_exists.1 h
  replace h := fuses_of_fuse? hqs
  clear hqs
  induction h with
  | nil => simp
  | patch _ ih => exact forall_mem_cons.2 ⟨⟨rfl, by simp⟩, ih⟩
  | test _ ih => exact forall_mem_cons.2 ⟨⟨rfl, by simp⟩, forall_mem_cons.2 ⟨⟨rfl, by simp⟩, ih⟩⟩
  | @keep q _ _ hq _ ih =>
    refine forall_mem_cons.2 ⟨?_, ih⟩
    cases q with
    | funcEnd | globalDecl => cases hq
    | _ => exact ⟨rfl, by simp⟩

theorem routinesFrom_body (rest : List Quad) (h : ∀ q ∈ body, q ≠ .funcEnd) :
    routinesFrom (some r) (body ++ .funcEnd :: rest) =
      { r with body := r.body ++ body } :: routinesFrom none rest := by
  induction body generalizing r with
  | nil => simp [routinesFrom]
  | cons q body ih =>
    obtain ⟨hq, hbody⟩ := forall_mem_cons.1 h
    have hstep : routinesFrom (some r) (q :: (body ++ .funcEnd :: rest)) =
        routinesFrom (some { r with body := r.body ++ [q] }) (body ++ .funcEnd :: rest) := by
      cases q with
      | funcEnd => exact absurd rfl hq
      | _ => rfl
    rw [cons_append, hstep, ih hbody]
    simp

theorem content_parts {ps : List Part} (h : ∀ r, .func r ∈ ps → (fuse? r.body).isSome = true) :
    (ps.flatMap Part.quads).filterMap Quad.global? = ps.filterMap Part.global? ∧
      routines (ps.flatMap Part.quads) = ps.filterMap Part.routine? := by
  induction ps with
  | nil => exact ⟨rfl, rfl⟩
  | cons part ps ih =>
    obtain ⟨hglobals, hroutines⟩ := ih fun r hr => h r (mem_cons_of_mem _ hr)
    cases part with
    | global v =>
      refine ⟨?_, ?_⟩
      · rw [flatMap_cons, filterMap_append, hglobals]
        rfl
      · rw [filterMap_cons_none rfl]
        exact hroutines
    | func r =>
      have hbody := inner_of_fuse? (h r mem_cons_self)
      refine ⟨?_, ?_⟩
      · have hnone : r.body.filterMap Quad.global? = [] :=
          filterMap_eq_nil_iff.2 fun q hq => (hbody q hq).1
        have hpart : (Part.func r).quads.filterMap Quad.global? = [] := by
          simp [Part.quads, filterMap_cons, Quad.global?, hnone]
        rw [flatMap_cons, filterMap_append, hglobals, hpart, filterMap_cons_none rfl, nil_append]
      · have hrest := routinesFrom_body (r := ⟨r.name, r.tag, []⟩) (ps.flatMap Part.quads)
          fun q hq => (hbody q hq).2
        have hpart : (Part.func r :: ps).filterMap Part.routine? =
          r :: ps.filterMap Part.routine? := rfl
        rw [hpart, ← hroutines]
        simpa [Part.quads, routines, routinesFrom] using hrest

end Flow

end Quadruple
