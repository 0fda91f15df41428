import Quadruple.Output.Qbe
import Quadruple.Proofs.Emit.Tables
import Quadruple.Proofs.Lowering.Again

/-!
# Lowering with the table of the emitter

Main statement: `lower_shared`. The emitter and lowering may share one table. What a run leaves in
it are names that the code declares, which lowering sets anew, and functions that were only called,
which it takes for the same as functions that it does not know. No text depends on the number of
parameters that is on record for such a function.
-/

namespace Quadruple

open List

/-! ## The text of a program -/

namespace Qbe

theorem render_congr {p q : Ir.Program} (hword : q.wordSize = p.wordSize)
    (hglobals : q.globals = p.globals) (hstrings : q.strings = p.strings)
    (hfuncs : q.funcs = p.funcs) (hfixed : ∀ v, fixedCount q v = fixedCount p v) :
    render q = render p := by
  have hcall : callText q = callText p := by
    funext i
    simp only [callText, hword, hfixed]
  have hinstr : instrText q = instrText p := by
    funext func i
    simp only [instrText, hcall, hword]
  have hblock : blockText q = blockText p := by
    funext func b
    simp only [blockText, hinstr]
  have hfunc : funcText q = funcText p := by
    funext f
    simp only [funcText, hblock, hword]
  simp only [render, hword, hglobals, hstrings, hfuncs, hfunc]

theorem fixedCount_congr {p q : Ir.Program} (h : Forall₂ (fun r r' : Ir.Foreign =>
    r'.name = r.name ∧ r'.variadic = r.variadic ∧ (r.variadic = true → r' = r))
    p.foreign q.foreign) (v : Ir.Value) : fixedCount q v = fixedCount p v := by
  cases v with
  | global name =>
    unfold fixedCount Ir.Program.findForeign?
    generalize p.foreign = rs at h
    generalize q.foreign = rs' at h
    dsimp only
    induction h with
    | nil => rfl
    | @cons r r' rs rs' hr _ ih =>
      obtain ⟨hname, hvar, hsame⟩ := hr
      rw [find?_cons, find?_cons, hname]
      cases r.name == name with
      | false => exact ih
      | true =>
        cases hv : r.variadic with
        | true => rw [hsame hv]
        | false => simp [hvar, hv]
  | _ => rfl

end Qbe

namespace Lowering

open Symbols (Entry Table)

/-! ## What a graph declares -/

theorem lookup_declaredFaces_eq_none_iff {g : Flow.Graph} {n : String} :
    (declaredFaces g).lookup n = none ↔ n ∉ g.globals.map (·.name) ∧
      n ∉ g.funcs.map (·.name) ∧ n ∉ builtins.map (·.name) := by
  have hkeys : n ∈ (declaredFaces g).map Prod.fst ↔
      n ∈ (plainBuiltins g).map (·.name) ∨ n ∈ g.funcs.map (·.name) ∨
        n ∈ g.globals.map (·.name) := by
    simp [declaredFaces, builtinFaces, definedFaces, variableFaces]
  have hplain : n ∈ (plainBuiltins g).map (·.name) ↔
      n ∈ builtins.map (·.name) ∧ n ∉ g.funcs.map (·.name) := by
    simp only [plainBuiltins, mem_map, mem_filter, Bool.not_eq_true',
      contains_eq_mem, decide_eq_false_iff_not]
    constructor
    · rintro ⟨b, ⟨hb, hnot⟩, rfl⟩
      exact ⟨⟨b, hb, rfl⟩, hnot⟩
    · rintro ⟨⟨b, hb, rfl⟩, hnot⟩
      exact ⟨b, ⟨hb, hnot⟩, rfl⟩
  rw [lookup_eq_none, hkeys, hplain]
  tauto

/-! ## Equal texts -/

theorem undeclared_of_run {settings : Settings} {report : Report} {ops : List Emit.Op}
    {g : Flow.Graph} (hown : ∀ op ∈ ops, op.isOwn = true)
    (hheads : Emit.headsOpen (.new settings .empty report) ops = true)
    (hclosed : Emit.openBehind 0 (.new settings .empty report) ops = 0)
    (hbuild : Flow.build ((Emit.State.new settings .empty report).run ops).code.toList = .ok g) :
    let T := ((Emit.State.new settings .empty report).run ops).table
    T.Tidy ∧ Blank T ∧ ∀ n v, (declaredFaces g).lookup n = none → T.global? n = some v →
      v = undeclared n false 0 := by
  intro T
  obtain ⟨hstanding, hglobals, hfuncs⟩ := Flow.standing_of_build hbuild
  have hsettled := Emit.settled_run (Emit.settled_new settings report) hown hheads
  rw [hclosed] at hsettled
  cases hsettled.phase false hstanding with
  | spoiled hk => split at hk <;> omega
  | idle _ _ hsound hblank hknown =>
    refine ⟨⟨hsound, fun n id hid => ?_⟩, hblank, fun n v hnone hv => ?_⟩
    · rw [Table.findSome?_blank hblank] at hid
      cases hid
    · obtain ⟨hnoglobal, hnofunc, -⟩ := lookup_declaredFaces_eq_none_iff.1 hnone
      obtain ⟨id, hid, rfl⟩ := Option.map_eq_some_iff.1 hv
      rcases hknown n id hid (by simp) with (⟨d, hd, rfl⟩ | hhead) | hcalled
      · rw [← hglobals] at hd
        exact absurd (mem_map_of_mem hd) hnoglobal
      · exact absurd (hfuncs ▸ hhead) hnofunc
      · exact hcalled

/-- Lowering with the table that a run of the emitter leaves gives the program that a new table
gives, or fails where that does. Only the number of parameters that is on record for a function
which is declared nowhere may differ. -/
theorem lower_shared (settings lowering : Settings) (report report₁ report₂ : Report)
    (file₁ file₂ : String) (ops : List Emit.Op) (g : Flow.Graph)
    (hown : ∀ op ∈ ops, op.isOwn = true)
    (hheads : Emit.headsOpen (.new settings .empty report) ops = true)
    (hclosed : Emit.openBehind 0 (.new settings .empty report) ops = 0)
    (hbuild : Flow.build ((Emit.State.new settings .empty report).run ops).code.toList = .ok g) :
    let T := ((Emit.State.new settings .empty report).run ops).table
    (∃ e s e' s', lower g (.new lowering T report₁ file₁) = .error e s ∧
      lower g (.new lowering .empty report₂ file₂) = .error e' s') ∨
    ∃ p q s t, lower g (.new lowering T report₁ file₁) = .ok p s ∧
      lower g (.new lowering .empty report₂ file₂) = .ok q t ∧
      p.wordSize = q.wordSize ∧ p.globals = q.globals ∧ p.strings = q.strings ∧
      p.funcs = q.funcs ∧ Qbe.render p = Qbe.render q ∧
      List.Forall₂ (fun r r' => r' = r ∨ r' = { r with fixed := r'.fixed } ∧
        r.name ∉ g.globals.map (·.name) ∧ r.name ∉ g.funcs.map (·.name) ∧
        r.name ∉ builtins.map (·.name)) p.foreign q.foreign := by
  intro T
  obtain ⟨htidy, hblank, hother⟩ := undeclared_of_run hown hheads hclosed hbuild
  obtain ⟨T₁, hrun₁, hs, hT₁⟩ := exists_pausing (g := g)
    (s := .new lowering T report₁ file₁) htidy hblank fun n v hn hv => ⟨_, _, hother n v hn hv⟩
  obtain ⟨T₂, hrun₂, ht, hT₂⟩ :=
    exists_pausing_new g (s := .new lowering .empty report₂ file₂) rfl
  rw [hrun₁, hrun₂]
  have hD := fun n v => placed_of_declaredFaces (g := g) (n := n) (v := v)
  -- a function that was only called has no place yet
  have hplaces : ∀ n, T₂.Places n ↔ T₁.Places n := by
    intro n
    unfold Table.Places
    rw [hT₁ n, hT₂ n]
    cases hn : (declaredFaces g).lookup n with
    | some v => rfl
    | none =>
      rw [Option.none_or]
      refine iff_of_false ?_ ?_
      · rintro ⟨v, p, ⟨⟩, -⟩
      · rintro ⟨v, p, hv, hp⟩
        rw [hother n v hn hv] at hp
        cases hp
  have hexact : Exact (State.declared (.new lowering T report₁ file₁) g T₁)
      (State.declared (.new lowering .empty report₂ file₂) g T₂) :=
    ⟨rfl, rfl, fun n => (hplaces n).2⟩
  have hexact' : Exact (State.declared (.new lowering .empty report₂ file₂) g T₂)
      (State.declared (.new lowering T report₁ file₁) g T₁) := ⟨rfl, rfl, fun n => (hplaces n).1⟩
  have hakin : Akin (State.declared (.new lowering T report₁ file₁) g T₁)
      (State.declared (.new lowering .empty report₂ file₂) g T₂) := ⟨rfl, fun _ => Iff.rfl⟩
  generalize State.declared (.new lowering T report₁ file₁) g T₁ = s₀ at *
  generalize State.declared (.new lowering .empty report₂ file₂) g T₂ = t₀ at *
  cases hfs : g.funcs.mapM lowerFunc s₀ with
  | error e s =>
    cases hgs : g.funcs.mapM lowerFunc t₀ with
    | error e' t => exact .inl ⟨e, s, e', t, run_bind_of_error hfs, run_bind_of_error hgs⟩
    | ok ps t =>
      obtain ⟨s', hs', -⟩ := exact_mapM hD ht hs hakin.symm hexact' hgs
      rw [hfs] at hs'
      cases hs'
  | ok ps s =>
    obtain ⟨t, hgs, hs', ht', hakin', ⟨hlit, hnames, -⟩, -⟩ :=
      exact_mapM hD hs ht hakin hexact hfs
    have hforeign := forall₂_foreign hs'.steady.foreign ht'.steady.foreign hnames
    have hword : s.settings.wordSize = t.settings.wordSize := by rw [hakin'.settings]
    have hstrings : literalsData s.literals = literalsData t.literals := by rw [hlit]
    refine .inr ⟨_, _, s, t, run_bind_of_ok hfs, run_bind_of_ok hgs, hword, rfl, hstrings, rfl,
      ?_, ?_⟩
    · refine Eq.symm (Qbe.render_congr hword.symm rfl hstrings.symm rfl fun v => ?_)
      refine Qbe.fixedCount_congr ?_ v
      refine hforeign.imp fun r r' hr => ?_
      rcases hr with rfl | ⟨-, hvar, hr⟩
      · exact ⟨rfl, rfl, fun _ => rfl⟩
      · refine ⟨congrArg (·.name) hr, congrArg (·.variadic) hr, fun h => ?_⟩
        rw [hvar] at h
        cases h
    · refine hforeign.imp fun r r' hr => hr.imp_right fun ⟨hnone, _, hr⟩ => ⟨hr, ?_⟩
      exact lookup_declaredFaces_eq_none_iff.1 hnone

/-- A function that calls a builtin and a function that is defined behind it with another type. -/
def callsAhead : List Emit.Op :=
  [.declareGlobal "x" .int 1, .openFunction .int "f", .declareFormal "n" .int,
    .beginFunction (some 1), .variableRef "y", .call "g" .empty, .call "exit" .empty, .endFunction,
    .openLoop, .openFunction .double "g", .endLoop, .beginFunction (some 4), .endFunction]

def callsAheadGraph : Flow.Graph where
  globals := [⟨"x", .int, 4⟩]
  funcs :=
    [⟨"f", .int, [⟨"n", .int, 4⟩], [⟨"y", .int, 4⟩],
      [⟨"entry", [.ref ⟨1⟩ .stack "y" 0, .ref ⟨2⟩ .global "g" 0, .call ⟨3⟩ ⟨2⟩ .int [],
        .ref ⟨4⟩ .global "exit" 0, .call ⟨5⟩ ⟨4⟩ .int []], [1], some 1⟩,
      ⟨"bb1", [.funcEnd], [], none⟩]⟩,
    ⟨"g", .double, [], [], [⟨"entry", [.funcEnd], [], none⟩]⟩]

theorem callsAhead_shared :
    let s₀ := Emit.State.new {} .empty ⟨none, []⟩
    (∀ op ∈ callsAhead, op.isOwn = true) ∧ Emit.headsOpen s₀ callsAhead = true ∧
    Emit.openBehind 0 s₀ callsAhead = 0 ∧
    Flow.build (s₀.run callsAhead).code.toList = .ok callsAheadGraph ∧
    ∃ p q s t, lower callsAheadGraph (.new {} (s₀.run callsAhead).table ⟨none, []⟩ "f") = .ok p s ∧
      lower callsAheadGraph (.new {} .empty ⟨none, []⟩ "f") = .ok q t ∧ p.funcs = q.funcs ∧
      Qbe.render p = Qbe.render q := by
  have hown : ∀ op ∈ callsAhead, op.isOwn = true := by decide
  have hheads : Emit.headsOpen (.new {} .empty ⟨none, []⟩) callsAhead = true := by decide +kernel
  have hclosed : Emit.openBehind 0 (.new {} .empty ⟨none, []⟩) callsAhead = 0 := by decide +kernel
  have hbuild : Flow.build ((Emit.State.new {} .empty ⟨none, []⟩).run callsAhead).code.toList =
      .ok callsAheadGraph := by decide +kernel
  have hok : (result? (lower callsAheadGraph) (.new {} .empty ⟨none, []⟩ "f")).isSome = true := by
    cbv
  have hsame := lower_shared {} {} ⟨none, []⟩ ⟨none, []⟩ ⟨none, []⟩ "f" "f" callsAhead
    callsAheadGraph hown hheads hclosed hbuild
  refine ⟨hown, hheads, hclosed, hbuild, ?_⟩
  generalize ((Emit.State.new {} .empty ⟨none, []⟩).run callsAhead).table = T at hsame ⊢
  obtain ⟨p, t, ht⟩ := exists_ok_of_isSome hok
  rcases hsame with
    ⟨e, s, e', s', -, hfail⟩ | ⟨p, q, s, t, hs, ht, -, -, -, hfuncs, hrender, -⟩
  · cases ht.symm.trans hfail
  · exact ⟨p, q, s, t, hs, ht, hfuncs, hrender⟩

end Lowering

end Quadruple
