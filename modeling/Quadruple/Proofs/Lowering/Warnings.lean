import Quadruple.Proofs.Flow.Unreached
import Quadruple.Proofs.Lowering.Trail

/-!
# Warnings about blocks that are not reached

Lowering a program warns about the blocks that no path leads to, function by function and behind all
that is reported of the instructions of a function.

Main statement: `warns_of_unreached`.
-/

namespace Quadruple

open List

theorem Flow.Block.hasCode_iff {b : Flow.Block} : b.hasCode = true ↔
    ∃ q ∈ b.quads, q ≠ .funcEnd ∧ ∀ line, q ≠ .stmtBegin line := by
  unfold hasCode
  rw [any_eq_true]
  refine exists_congr fun q => and_congr_right fun _ => ?_
  cases q <;> simp

namespace Lowering

open Quadruple.Flow (Func Graph)

variable {s s' : State}

def State.unreached (s : State) : List Diagnostic :=
  s.report.diagnostics.filter fun d => d.severity = .warning .unreachableCode

def State.warnsUnreached (s : State) : Bool := s.report.flags.all (·.isEnabled .unreachableCode)

def State.unreachedIn (s : State) (f : Func) : List Diagnostic :=
  if s.warnsUnreached then unreachedWarnings s.file f else []

/-- From `s` to `s'` the warnings `ws` were added, and the next ones will look alike. -/
structure Adds (s : State) (ws : List Diagnostic) (s' : State) : Prop where
  unreached : s'.unreached = s.unreached ++ ws
  kept : s'.warnsUnreached = s.warnsUnreached
  file : s'.file = s.file

theorem adds_nil (hreport : s'.report = s.report) (hfile : s'.file = s.file) : Adds s [] s' :=
  ⟨by rw [append_nil, State.unreached, hreport]; rfl, by rw [State.warnsUnreached, hreport]; rfl,
    hfile⟩

theorem Adds.trans {t : State} {ws ws' : List Diagnostic} (h : Adds s ws t) (h' : Adds t ws' s') :
    Adds s (ws ++ ws') s' :=
  ⟨by rw [h'.unreached, h.unreached, append_assoc], h'.kept.trans h.kept, h'.file.trans h.file⟩

theorem Reported.adds {ns : List Notice} (h : Reported s s' ns) (hfile : s'.file = s.file) :
    Adds s [] s' := by
  obtain ⟨ws, hws, hreport⟩ := h
  refine ⟨?_, by rw [State.warnsUnreached, hreport]; rfl, hfile⟩
  have hnone : (ws ++ ns.map s.complaint).filter
      (fun d => d.severity = .warning .unreachableCode) = [] := by
    refine filter_eq_nil_iff.2 fun d hd => ?_
    rcases mem_append.1 hd with hd | hd
    · simp [hws d hd]
    · obtain ⟨n, -, rfl⟩ := mem_map.1 hd
      simp [State.complaint]
  rw [State.unreached, hreport, filter_append, hnone]
  rfl

theorem Runs.adds {vs : List Visit} (h : Runs s vs s') : Adds s [] s' := by
  refine (h.invariant (I := fun t => Adds s [] t) (fun t t' hr ht => ?_) (fun v _ hran ht => ?_)
    (adds_nil rfl rfl)).2
  · rw [hr]
    exact ht.trans (adds_nil rfl rfl)
  · obtain ⟨_, _, _, hafter, -⟩ := hran.makes
    exact ht.trans (hafter.reported.adds hafter.file)

theorem filter_unreachedWarnings (file : String) (f : Func) :
    (unreachedWarnings file f).filter (fun d => d.severity = .warning .unreachableCode) =
      unreachedWarnings file f := by
  refine filter_eq_self.2 fun d hd => ?_
  obtain ⟨b, -, rfl⟩ := mem_map.1 hd
  rfl

theorem adds_warnedReport (f : Func) (s : State) (hs' : s'.report = warnedReport s.file f s.report)
    (hfile : s'.file = s.file) : Adds s (s.unreachedIn f) s' := by
  refine ⟨?_, by rw [State.warnsUnreached, hs']; rfl, hfile⟩
  rw [State.unreached, hs', warnedReport, filter_append, apply_ite (filter _),
    filter_unreachedWarnings]
  rfl

theorem Adds.unreachedIn {ws : List Diagnostic} (h : Adds s ws s') (f : Func) :
    s'.unreachedIn f = s.unreachedIn f := by
  rw [State.unreachedIn, h.kept, h.file]
  rfl

theorem Trail.Leads.adds {c : Trail} {f : Func} (h : c.Leads f s s') :
    Adds s (s.unreachedIn f) s' := by
  have hfirst : Adds s [] c.first := h.first ▸ adds_nil rfl rfl
  have hlast := hfirst.trans h.of.run.adds
  have hwarned : Adds c.last (c.last.unreachedIn f) s' :=
    h.last ▸ adds_warnedReport f c.last rfl rfl
  rw [hlast.unreachedIn f] at hwarned
  exact hlast.trans hwarned

theorem Trails.adds {fs : List Func} {cs : List Trail} (h : Trails s fs cs s') :
    Adds s (fs.flatMap s.unreachedIn) s' := by
  induction h with
  | nil => exact adds_nil rfl rfl
  | cons hleads _ ih =>
    have hrest := hleads.adds.trans ih
    rw [funext (hleads.adds.unreachedIn ·)] at hrest
    exact hrest

/-- The blocks that are listed as not reached are those to which no path of successors leads from the
first block, in order and none twice. A program that is lowered is warned, unless this is disabled,
about exactly those of them that hold anything besides line marks and the end of a function. -/
theorem warns_of_unreached :
    (∀ f : Func, ∃ places : List Nat, places.Pairwise (· < ·) ∧
      (∀ i, i ∈ places ↔ i < f.blocks.length ∧ ¬ f.LeadsTo i) ∧
      f.unreachable.map some = places.map (f.blocks[·]?)) ∧
    (∀ b : Flow.Block, b.hasCode = true ↔
      ∃ q ∈ b.quads, q ≠ .funcEnd ∧ ∀ line, q ≠ .stmtBegin line) ∧
    ∀ (g : Graph) (s s' : State) (p : Ir.Program), lower g s = .ok p s' →
      s'.unreached = s.unreached ++
        if s.report.flags.all (·.isEnabled .unreachableCode) then
          g.funcs.flatMap fun f => (f.unreachable.filter (·.hasCode)).map fun b =>
            ⟨.warning .unreachableCode, ⟨s.file, b.firstLine⟩,
              "unreachable code in block " ++ b.label ++ " of '" ++ f.name ++ "'"⟩
        else [] := by
  refine ⟨Func.exists_unreachable, fun b => Flow.Block.hasCode_iff, fun g s s' p h => ?_⟩
  obtain ⟨cs, htrails, -⟩ := exists_trails h
  have hadds := htrails.adds.unreached
  have hfuncs : g.funcs.flatMap (State.unreachedIn (s.declared g (declaredTable g s.table))) =
      if s.warnsUnreached then g.funcs.flatMap (unreachedWarnings s.file) else [] := by
    show (g.funcs.flatMap fun f => if s.warnsUnreached then unreachedWarnings s.file f else []) = _
    cases s.warnsUnreached <;> simp
  rw [hfuncs] at hadds
  exact hadds

/-- A first block that follows itself, and two blocks that lead to each other only. -/
def islandGraph : Graph where
  globals := []
  funcs :=
    [⟨"main", .int, [], [],
      [⟨"entry", [], [0, 0], some 1⟩, ⟨"a", [.stmtBegin 7, .jump (.label 2)], [2, 1], some 2⟩,
        ⟨"b", [.stmtBegin 9], [1], none⟩]⟩]

/-- The island is not reached, and there is code in one of its blocks. -/
theorem island_unreached : ∃ p s', lower islandGraph (.new {} .empty ⟨none, []⟩ "a.q") = .ok p s' ∧
    s'.unreached = [⟨.warning .unreachableCode, ⟨"a.q", 7⟩,
      "unreachable code in block a of 'main'"⟩] := by
  have hok : (result? (lower islandGraph) (.new {} .empty ⟨none, []⟩ "a.q")).isSome = true := by
    have hwarn : ∀ f, warnUnreachable f = modify fun s =>
        { s with report := warnedReport s.file f s.report } :=
      fun f => funext (run_warnUnreachable f)
    unfold lower lowerFunc
    simp only [hwarn]
    cbv
  obtain ⟨p, s', hs'⟩ := exists_ok_of_isSome hok
  refine ⟨p, s', hs', ?_⟩
  rw [warns_of_unreached.2.2 _ _ _ _ hs']
  cbv

end Lowering

end Quadruple
