import Quadruple.Proofs.Emit.Numbering
import Quadruple.Proofs.Emit.Reachable

/-!
# Markers

A marker gives the last label of the code, after a new one if the code has gone on since. Equations
and line marks may stand behind it.

Main statement: `mark_names_current`.
-/

namespace Quadruple

open List

def Quad.isNote : Quad → Bool
  | .patch .. | .stmtBegin _ => true
  | _ => false

variable {q : Quad}

namespace Emit

theorem isNote_of_keepsMark (hq : ∀ n, q ≠ .label n) (hk : keepsMark q = true) :
    q.isNote = true := by
  cases q with
  | label n => exact absurd rfl (hq n)
  | patch | stmtBegin => rfl
  | _ => cases hk

def Numbered (n : Nat) (code : List Quad) : Prop :=
  code.filterMap Quad.label? = (List.range' 1 n).map Nat.cast

/-- The label `n` stands at the end of the code, but for equations and line marks. -/
def EndsAt (n : Nat) (code : List Quad) : Prop :=
  ∃ pre notes, code = pre ++ .label n :: notes ∧ ∀ q ∈ notes, q.isNote = true

variable {code : List Quad} {n : Nat}

/-- Labels count up, so none of them stands behind the last one. -/
theorem Numbered.endsAt (h : Numbered n code) (hm : Marks code n []) : EndsAt n code := by
  obtain ⟨pre, inv, hcode, -, hinv⟩ := hm
  rw [append_nil] at hcode
  refine ⟨pre, inv, hcode, fun q hq => isNote_of_keepsMark (fun l hl => ?_) (hinv q hq)⟩
  have hcons : (Quad.label n :: inv).filterMap Quad.label? =
      (n : Int) :: (inv.filterMap Quad.label? : List Int) := rfl
  rw [Numbered, hcode, filterMap_append, hcons] at h
  have hl : l ∈ inv.filterMap Quad.label? := mem_filterMap.2 ⟨q, hq, by rw [hl]; rfl⟩
  have hsorted : ((range' 1 n).map (Nat.cast : Nat → Int)).Pairwise (· < ·) :=
    (pairwise_lt_range' 1 (by decide)).map _ fun _ _ => Int.ofNat_lt.2
  have hmem : l ∈ (range' 1 n).map (Nat.cast : Nat → Int) := h ▸ by simp [hl]
  rw [← h, pairwise_append, pairwise_cons] at hsorted
  have hlt := hsorted.2.1.1 l hl
  obtain ⟨k, hk, rfl⟩ := mem_map.1 hmem
  rw [mem_range'_1] at hk
  omega

theorem EndsAt.isNote_of_append {more : List Quad} (h : EndsAt n (code ++ more))
    (hmore : more.filterMap Quad.label? = []) : ∀ q ∈ more, q.isNote = true := by
  obtain ⟨pre, notes, heq, hnotes⟩ := h
  have hnew : Quad.label n ∉ more := fun hl => by cases filterMap_eq_nil_iff.1 hmore _ hl
  have hsuffix : more <:+ .label n :: notes := by
    rcases suffix_or_suffix_of_suffix (suffix_append code more) ⟨pre, heq.symm⟩ with h | h
    · exact h
    · exact absurd (h.subset mem_cons_self) hnew
  intro q hq
  rcases mem_cons.1 (hsuffix.subset hq) with rfl | hmem
  · exact absurd hq hnew
  · exact hnotes q hmem

/-! ## Runs -/

theorem Reachable.numbered {s : State} (h : Reachable s) : Numbered s.labels s.code.toList := by
  obtain ⟨settings, table, report, ops, rfl⟩ := h
  exact ((numbered_new settings table report).run ops).labels

theorem exists_mark {s : State} (h : Reachable s) : ∃ (n : Nat) (s' : State), mark s = .ok n s' ∧
    s' = s.run [.mark] ∧ Numbered n s'.code.toList ∧ EndsAt n s'.code.toList := by
  obtain ⟨n, code, -, hrun, -, -, hmarks⟩ := mark_eq h.intact.labelled
  obtain ⟨s', hs'⟩ : ∃ s', s' = { s with labels := n, code, marked := true } := ⟨_, rfl⟩
  have hperform : s' = s.run [.mark] := by
    show s' = after (discard mark) s
    rw [after_discard, after_of_ok hrun, hs']
  have hnumbered : Numbered s'.labels s'.code.toList := hperform ▸ (h.run [.mark]).numbered
  subst hs'
  exact ⟨n, _, hrun, hperform, hnumbered, hnumbered.endsAt hmarks⟩

/-- However the emitter was run, its labels count up from one. A marker gives the last of them, and
nothing but equations and line marks stands behind it. So whatever comes between two markers of one
number, nothing else is emitted. -/
theorem mark_names_current {s : State} (h : Reachable s) :
    (∃ n, s.code.toList.filterMap Quad.label? = (List.range' 1 n).map Nat.cast) ∧
    ∃ (n : Nat) (s' : State), mark s = .ok n s' ∧
      s'.code.toList.filterMap Quad.label? = (List.range' 1 n).map Nat.cast ∧
      (∃ pre notes, s'.code.toList = pre ++ .label n :: notes ∧ ∀ q ∈ notes, q.isNote = true) ∧
      ∀ ops t, mark (s'.run ops) = .ok n t →
        ∃ notes, t.code.toList = s'.code.toList ++ notes ∧ ∀ q ∈ notes, q.isNote = true := by
  obtain ⟨n, s', hmark, hs', hlabels, hends⟩ := exists_mark h
  refine ⟨⟨s.labels, h.numbered⟩, n, s', hmark, hlabels, hends, fun ops t ht => ?_⟩
  obtain ⟨m, t', hmark', ht', hlabels', hends'⟩ := exists_mark ((hs' ▸ h.run [.mark]).run ops)
  obtain ⟨rfl, rfl⟩ : n = m ∧ t = t' := by
    rw [ht] at hmark'
    cases hmark'
    exact ⟨rfl, rfl⟩
  obtain ⟨notes, hcode⟩ : s'.code.toList <+: t.code.toList :=
    (code_prefix_run s' ops).trans (ht' ▸ code_prefix_run (s'.run ops) [.mark])
  have hnone : notes.filterMap Quad.label? = [] := by
    rw [Numbered, ← hcode, List.filterMap_append, hlabels] at hlabels'
    exact List.append_right_eq_self.1 hlabels'
  exact ⟨notes, hcode.symm, (hcode ▸ hends').isNote_of_append hnone⟩

/-- A jump between two markers, and a line mark between the second and a third one. -/
theorem thirdMarker_names_current : ∃ s s' t, Reachable s ∧ mark s = .ok 2 s' ∧
    s'.code.toList.filterMap Quad.label? = [1, 2] ∧
    mark (s'.run [.beginStmt 4]) = .ok 2 t ∧
    ∃ notes, t.code.toList = s'.code.toList ++ notes ∧ ∀ q ∈ notes, q.isNote = true := by
  obtain ⟨s, hs⟩ : ∃ s, s = (State.new {} .empty ⟨none, []⟩).run [.mark, .jumpAhead] := ⟨_, rfl⟩
  have hreach : Reachable s := ⟨_, _, _, _, hs⟩
  obtain ⟨-, n, s', hmark, hlabels, -, hagain⟩ := mark_names_current hreach
  have hfirst : result? mark s = some 2 := by
    rw [hs]
    decide +kernel
  have hsecond : result? mark ((after mark s).run [.beginStmt 4]) = some 2 := by
    rw [hs]
    decide +kernel
  obtain rfl : n = 2 := by
    rw [result?, hmark] at hfirst
    exact Option.some.inj hfirst
  rw [after_of_ok hmark] at hsecond
  obtain ⟨t, ht⟩ := eq_ok_of_result? hsecond
  exact ⟨s, s', t, hreach, hmark, hlabels, ht, hagain _ t ht⟩

end Emit

end Quadruple
