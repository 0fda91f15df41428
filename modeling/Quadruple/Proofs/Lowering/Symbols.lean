import Quadruple.Code.Reader
import Quadruple.Proofs.Lowering.Closed
import Quadruple.Proofs.Lowering.Shared

/-!
# Symbols of a program

Main statement: `symbols_nodup_iff`. The variables and functions of a graph with different names
keep them in the lowered program.

A builtin takes the place of a variable of its name. Apart from that nothing that is declared as a
variable is ever called: what is on record for a foreign function that is declared says that it is
a function.
-/

namespace Quadruple

open List

/-- The names of all that a program defines and of all that it takes from elsewhere. -/
def Ir.Program.symbols (p : Ir.Program) : List String :=
  p.globals.map (·.name) ++ p.strings.map (·.name) ++ p.funcs.map (·.name) ++ p.foreign.map (·.name)

namespace Lowering

open Symbols (Entry Table)

variable {s s' : State} {g : Flow.Graph} {p : Ir.Program}

theorem map_name_literalsData (L : List (List UInt8)) :
    (literalsData L).map (·.name) = (List.range L.length).map literalText := by
  rw [range_eq_range', ← zipIdx_map_snd, map_map, literalsData, map_map]
  rfl

/-- What the symbols of a lowered program are, and that no foreign function is declared as a
variable. -/
theorem exists_lowered (hs : s.table = .empty)
    (h : lower g s = .ok p s') : p.globals.map (·.name) = g.globals.map (·.name) ∧
      p.strings.map (·.name) = (List.range p.strings.length).map literalText ∧
      p.funcs.map (·.name) = g.funcs.map (·.name) ∧
      ∀ r ∈ p.foreign, ∀ v, (declaredFaces g).lookup r.name = some v → v.kind = .func := by
  obtain ⟨_, hcourse, -, -, -, -, -, hglobals, hstrings, hforeign⟩ :=
    course_of_lower hs h fun _ => rfl
  refine ⟨by simp [hglobals, globalData], ?_, hcourse.names, fun r hr v hv => ?_⟩
  · rw [hstrings, map_name_literalsData]
    simp [literalsData]
  · rcases hcourse.pausing.steady.foreign r (hforeign ▸ hr) with ⟨w, hw, hk, -⟩ | ⟨hnone, -⟩
    · rwa [← Option.some.inj (hw.symm.trans hv)]
    · rw [hnone] at hv
      cases hv

theorem builtin_of_variable (hs : s.table = .empty)
    (hnames : (g.globals.map (·.name) ++ g.funcs.map (·.name)).Nodup) (h : lower g s = .ok p s')
    {n : String} (hn : n ∈ g.globals.map (·.name)) (hforeign : n ∈ p.foreign.map (·.name)) :
    n ∈ builtins.map (·.name) := by
  obtain ⟨v, hv⟩ : ∃ v, (declaredFaces g).lookup n = some v :=
    Option.ne_none_iff_exists'.1 fun hnone => (lookup_declaredFaces_eq_none_iff.1 hnone).1 hn
  rcases (face_of_declaredFaces hv).2 with hbuiltin | hfunc | hvar
  · exact hbuiltin
  · exact absurd hfunc ((nodup_append'.1 hnames).2.2 hn)
  · obtain ⟨r, hr, rfl⟩ := mem_map.1 hforeign
    rw [(exists_lowered hs h).2.2.2 r hr v hv] at hvar
    cases hvar

theorem nodup_symbols_iff {G S F E : List String} (hGF : (G ++ F).Nodup) (hS : S.Nodup)
    (hE : E.Nodup) (hFE : F.Disjoint E) :
    (G ++ S ++ F ++ E).Nodup ↔ S.Disjoint (G ++ F ++ E) ∧ G.Disjoint E := by
  obtain ⟨hG, hF, hGF⟩ := nodup_append'.1 hGF
  have hcomm : G.Disjoint S ↔ S.Disjoint G := disjoint_comm
  simp only [nodup_append', disjoint_append_left, disjoint_append_right, hG, hF, hGF,
    hS, hE, hFE, hcomm, true_and, and_true]
  tauto

/-- The symbols of a lowered program are all different, exactly if no literal has the name of
anything else and no builtin that is called has that of a variable. -/
theorem symbols_nodup_iff {code : List Quad} {g : Flow.Graph} {p : Ir.Program}
    (hg : Flow.build code = .ok g)
    (hnames : (g.globals.map (·.name) ++ g.funcs.map (·.name)).Nodup) (hs : s.table = .empty)
    (h : lower g s = .ok p s') :
    p.symbols.Nodup ↔
      (∀ k < p.strings.length, literalText k ∉
        p.globals.map (·.name) ++ p.funcs.map (·.name) ++ p.foreign.map (·.name)) ∧
      ∀ b ∈ builtins, b.name ∈ p.globals.map (·.name) → b.name ∉ p.foreign.map (·.name) := by
  obtain ⟨hglobals, hstrings, hfuncs, -⟩ := exists_lowered hs h
  have hbuiltin := fun n => builtin_of_variable (n := n) hs hnames h
  have hclosed : p.Closed := closed_of_lower (Flow.built_of_build hg) hs h
  rw [← hglobals] at hnames hbuiltin
  rw [← hfuncs] at hnames
  have hapart : (p.funcs.map (·.name)).Disjoint (p.foreign.map (·.name)) := by
    intro n hn hforeign
    obtain ⟨f, hf, rfl⟩ := List.mem_map.1 hn
    exact ((hclosed.foreign f.name).1 hforeign).2 f hf rfl
  have hnodup : (p.strings.map (·.name)).Nodup := by
    rw [hstrings]
    exact List.nodup_range.map literalText_injective
  rw [Ir.Program.symbols, nodup_symbols_iff hnames hnodup hclosed.distinct hapart, hstrings]
  refine and_congr ?_ ⟨fun hdisjoint b _ => @hdisjoint b.name, fun hbuiltins n hn hforeign => ?_⟩
  · simp [List.disjoint_left]
  · obtain ⟨b, hb, rfl⟩ := List.mem_map.1 (hbuiltin n hn hforeign)
    exact hbuiltins b hb hn hforeign

/-- Two variables, and a function that calls a builtin with a literal. -/
def greeting (x y : String) : List Quad :=
  [.globalDecl ⟨x, .int, 4⟩, .globalDecl ⟨y, .int, 4⟩, .funcBegin "main" .int, .string ⟨1⟩ "hi",
    .ref ⟨2⟩ .global "printf" 0, .call ⟨3⟩ ⟨2⟩ .int [⟨1⟩], .funcEnd]

def greetingGraph (x y : String) : Flow.Graph where
  globals := [⟨x, .int, 4⟩, ⟨y, .int, 4⟩]
  funcs :=
    [⟨"main", .int, [], [],
      [⟨"entry", [.string ⟨1⟩ "hi", .ref ⟨2⟩ .global "printf" 0, .call ⟨3⟩ ⟨2⟩ .int [⟨1⟩]], [1],
        some 1⟩, ⟨"bb1", [.funcEnd], [], none⟩]⟩]

/-- There is but one literal, and the builtin that is called is another. -/
theorem greeting_symbols : Flow.build (greeting "str.1" "exit") = .ok (greetingGraph "str.1" "exit") ∧
    ∃ p s', lower (greetingGraph "str.1" "exit") (.new {} .empty ⟨none, []⟩ "a.q") = .ok p s' ∧
      p.symbols = ["str.1", "exit", "str.0", "main", "printf"] ∧ p.symbols.Nodup := by
  have hbuild : Flow.build (greeting "str.1" "exit") = .ok (greetingGraph "str.1" "exit") := by
    decide +kernel
  have hok : (result? (lower (greetingGraph "str.1" "exit"))
      (.new {} .empty ⟨none, []⟩ "a.q")).map (fun p => (p.globals.map (·.name),
        p.strings.map (·.name), p.funcs.map (·.name), p.foreign.map (·.name))) =
      some (["str.1", "exit"], ["str.0"], ["main"], ["printf"]) := by cbv
  obtain ⟨p, s', hs', heq⟩ := exists_ok_of_result? hok
  simp only [Prod.mk.injEq] at heq
  obtain ⟨hglobals, hstrings, hfuncs, hforeign⟩ := heq
  have hone : p.strings.length = 1 := by simpa using congrArg List.length hstrings
  refine ⟨hbuild, p, s', hs', ?_, ?_⟩
  · rw [Ir.Program.symbols, hglobals, hstrings, hfuncs, hforeign]
    rfl
  · rw [symbols_nodup_iff hbuild (by decide) rfl hs', hglobals, hfuncs, hforeign, hone]
    decide +kernel

/-- One variable is called as the literal and one as the builtin. -/
theorem namesakes_clash :
    readCode "a.q" ("alloc str.0 1 4\nalloc printf 1 4\nfunc main 1\nt1 := \"hi\"\n" ++
        "t2 := global printf\nt3 := fi t2 1 t1\nfend\n") = .ok (greeting "str.0" "printf") ∧
    Flow.build (greeting "str.0" "printf") = .ok (greetingGraph "str.0" "printf") ∧
    ["str.0", "printf", "main"].Nodup ∧
    ∃ p s', lower (greetingGraph "str.0" "printf") (.new {} .empty ⟨none, []⟩ "a.q") = .ok p s' ∧
      p.symbols = ["str.0", "printf", "str.0", "main", "printf"] ∧ ¬ p.symbols.Nodup := by
  have hok : (result? (lower (greetingGraph "str.0" "printf"))
      (.new {} .empty ⟨none, []⟩ "a.q")).map Ir.Program.symbols =
      some ["str.0", "printf", "str.0", "main", "printf"] := by cbv
  obtain ⟨p, s', hs', hsymbols⟩ := exists_ok_of_result? hok
  exact ⟨by decide +kernel, by decide +kernel, by decide, p, s', hs', hsymbols,
    hsymbols ▸ by decide⟩

end Lowering

end Quadruple
