import Quadruple.Compile
import Quadruple.Proofs.Code.Legible
import Quadruple.Proofs.Llvm.Module
import Quadruple.Proofs.Lowering.Closed
import Quadruple.Proofs.Lowering.Formed

/-!
# Programs that both outputs accept

QBE text is written without a look at what names stand for; a module is not.

Main statement: `render_of_lowered`.
-/

namespace Quadruple

open List

/-! ## QBE text -/

variable {p : Ir.Program} {i : Ir.Instr}

namespace Qbe

theorem opText?_isSome (wordSize : Int) (hi : i.Formed) (hcall : i.op ≠ .call) :
    (opText? wordSize i).isSome = true := by
  unfold opText?
  cases hop : i.op with
  | call => exact absurd hop hcall
  | unnamed code => exact absurd hop (hi.op_ne_unnamed code)
  | _ => rfl

theorem instrText_ok (p : Ir.Program) (func : String) (hi : i.Formed) :
    ∃ text, instrText p func i = .ok text := by
  unfold instrText
  by_cases hop : i.op = .call
  · obtain ⟨callee, xs, hargs⟩ := hi.args_of_call hop
    simp only [hop, callText, hargs]
    exact ⟨_, rfl⟩
  · obtain ⟨name, hname⟩ := Option.isSome_iff_exists.1 (opText?_isSome p.wordSize hi hop)
    rw [hname]
    split
    · exact absurd ‹_› hop
    · exact ⟨_, rfl⟩

theorem render_ok {limit : Nat} (h : p.Formed limit) : ∃ text, render p = .ok text := by
  refine exists_bind_ok (exists_mapM_ok fun f hf => ?_) fun _ => ⟨_, rfl⟩
  refine exists_bind_ok (exists_mapM_ok fun b hb => ?_) fun _ => ⟨_, rfl⟩
  refine exists_bind_ok (exists_mapM_ok fun i hi => ?_) fun _ => ⟨_, rfl⟩
  exact instrText_ok p f.name ((h.funcs f hf).instrs i (mem_flatMap.2 ⟨b, hb, hi⟩))

end Qbe

/-! ## Both texts -/

theorem exists_mapError_ok {ε ε' α : Type} {f : ε → ε'} {x : Except ε α} :
    (∃ a, x.mapError f = .ok a) ↔ ∃ a, x = .ok a := by
  cases x <;> simp [Except.mapError]

variable {g : Flow.Graph} {src : Source}

theorem Source.graph_eq_ok (h : src.graph = .ok g) :
    ∃ code, readCode src.name src.text = .ok code ∧ Flow.build code = .ok g := by
  unfold Source.graph at h
  cases hcode : readCode src.name src.text with
  | error e => simp [hcode, Except.mapError, bind, Except.bind] at h
  | ok code =>
    cases hg : Flow.build code with
    | error e => simp [hcode, hg, Except.mapError, bind, Except.bind] at h
    | ok g' => simpa [hcode, hg, Except.mapError, bind, Except.bind] using h

theorem closed_and_formed_of_lowered {settings : Settings} {file : String} (hg : src.graph = .ok g)
    (hp : (lowerGraph settings .empty file g).result = .ok p) :
    p.Closed ∧ p.Formed (maxLineBytes + 1) := by
  obtain ⟨code, hcode, hbuild⟩ := Source.graph_eq_ok hg
  have hbuilt := Flow.built_of_build hbuild
  unfold lowerGraph at hp
  split at hp <;> cases hp
  next p' s' hrun =>
    exact ⟨Lowering.closed_of_lower hbuilt rfl hrun,
      Lowering.formed_of_lower hbuilt (Flow.literalBytes_le_of_build hcode hbuild) hrun⟩

/-- A source that lowering takes has a QBE text. If the program is regular, then it has an LLVM text
too where it has all that it computes with, and else a name that it does not have is refused. -/
theorem render_of_lowered {src : Source} {g : Flow.Graph} {p : Ir.Program} {settings : Settings}
    {file : String} (hg : src.graph = .ok g)
    (hp : (lowerGraph settings .empty file g).result = .ok p) :
    (∃ text, Backend.qbe.render p = .ok text) ∧
      (p.Regular → (p.Known ∧ ∃ text, Backend.llvm.render p = .ok text) ∨
        (¬p.Known ∧ ∃ f ∈ p.funcs, ∃ name, ¬p.Has name ∧
          Backend.llvm.render p = .error (.llvm (.refused f.name (.unknownGlobal name))))) := by
  obtain ⟨hclosed, hformed⟩ := closed_and_formed_of_lowered hg hp
  refine ⟨exists_mapError_ok.2 (Qbe.render_ok hformed), fun hreg => ?_⟩
  unfold Backend.render
  refine (Llvm.succeedsIff_render hclosed hformed (by decide) hreg).imp ?_ ?_
  · rintro ⟨hknown, text, htext, -⟩
    exact ⟨hknown, exists_mapError_ok.2 ⟨text, htext⟩⟩
  · rintro ⟨hnot, _, he, f, hf, name, rfl, hname⟩
    exact ⟨hnot, f, hf, name, hname, by rw [he]; rfl⟩

/-! ## Sources -/

theorem Source.graph_writeCode {code : List Quad} (hw : ∀ q ∈ code, q.Writable)
    (hu : ∀ q ∈ code, q.unfused = [q]) (hsize : ∀ q ∈ code, q.text.utf8ByteSize < 1024 * 1024)
    (hg : Flow.build code = .ok g) (file : String) :
    (Source.mk file (writeCode code)).graph = .ok g := by
  unfold Source.graph
  rw [readCode, readLines_writeCode hw hu hsize]
  simp [Except.mapError, bind, Except.bind, hg]

theorem eq_ok_of_toOption {ε α : Type} {x : Except ε α} {a : α} (h : x.toOption = some a) :
    x = .ok a := by
  cases x with
  | ok b => exact congrArg Except.ok (Option.some.inj h)
  | error e => cases h

/-- A program with data, a literal, a branch, and an address of a function that it defines. -/
def reporter : List Quad :=
  [.globalDecl ⟨"count", .int, 4⟩, .funcBegin "half" .double, .formalDecl ⟨"x", .double, 8⟩,
    .ref ⟨1⟩ .param "x" 0, .load ⟨2⟩ ⟨1⟩ .double, .ret (some ⟨2⟩) .double, .funcEnd,
    .funcBegin "main" .int, .ref ⟨3⟩ .global "count" 0, .load ⟨4⟩ ⟨3⟩ .int, .const ⟨5⟩ "0" .int,
    .binary .compare ⟨6⟩ "<" ⟨4⟩ ⟨5⟩ .int, .condJump ⟨6⟩ (.label 1), .jump (.label 2), .label 1,
    .string ⟨7⟩ "%p", .arg ⟨7⟩ .int, .ref ⟨8⟩ .global "half" 0, .arg ⟨8⟩ .int,
    .ref ⟨9⟩ .global "printf" 0, .call ⟨10⟩ ⟨9⟩ .int [⟨7⟩, ⟨8⟩], .label 2, .ret none .int, .funcEnd]

theorem writable_reporter : ∀ q ∈ reporter, q.Writable := by
  have hint : IsIntWord "0".toList := .inl (by decide)
  have hstring : IsStringBody "%p".toList :=
    .plain (by decide) (by decide) (by decide) (.plain (by decide) (by decide) (by decide) .nil)
  simp only [reporter, forall_mem_cons, not_mem_nil, false_implies, implies_true,
    and_true, Quad.Writable]
  refine ⟨by decide, by decide, by decide, by decide, by decide, by decide, trivial, by decide,
    by decide, by decide, ⟨by decide, .inl ⟨trivial, hint⟩⟩, by decide, by decide, by decide,
    by decide, ⟨by decide, hstring⟩, by decide⟩

theorem reporter_renders :
    ∃ g, (Source.mk "reporter" (writeCode reporter)).graph = .ok g ∧
      ∃ p, (lowerGraph {} .empty "reporter" g).result = .ok p ∧ p.Regular ∧ p.Known ∧
        (∃ text, Backend.qbe.render p = .ok text) ∧ ∃ text, Backend.llvm.render p = .ok text := by
  have hok : ((Flow.build reporter).toOption.bind fun g =>
      (lowerGraph {} .empty "reporter" g).result.toOption.map fun p =>
        decide (p.Regular ∧ p.Known)) = some true := by cbv
  obtain ⟨g, hg, hok⟩ := Option.bind_eq_some_iff.1 hok
  obtain ⟨p, hp, hdecide⟩ := Option.map_eq_some_iff.1 hok
  obtain ⟨hreg, hknown⟩ := of_decide_eq_true hdecide
  have hgraph := Source.graph_writeCode writable_reporter (by decide) (by decide +kernel)
    (eq_ok_of_toOption hg) "reporter"
  have hp := eq_ok_of_toOption hp
  obtain ⟨hqbe, hllvm⟩ := render_of_lowered hgraph hp
  have hllvm := (hllvm hreg).resolve_right fun h => h.1 hknown
  exact ⟨g, hgraph, p, hp, hreg, hknown, hqbe, hllvm.2⟩

/-- A function that stores the address of a variable in the variable, as an integer. -/
def selfKeeper : List Quad :=
  [.funcBegin "main" .int, .localDecl ⟨"x", .int, 4⟩, .ref ⟨1⟩ .stack "x" 0,
    .store ⟨2⟩ ⟨1⟩ ⟨1⟩ .int, .funcEnd]

theorem writable_selfKeeper : ∀ q ∈ selfKeeper, q.Writable := by
  simp only [selfKeeper, forall_mem_cons, not_mem_nil, false_implies, implies_true, and_true,
    Quad.Writable]
  decide

/-- The address has another width than what is stored, which the module does not take. -/
theorem selfKeeper_breaks :
    ∃ g, (Source.mk "a.q"
        "func main 1\nlocalloc x 1 4\nt1 := local x 0\nt2 := t1 =i t1\nfend\n").graph = .ok g ∧
      (lowerGraph {} .empty "a.q" g).report.diagnostics = [] ∧
      ∃ p, (lowerGraph {} .empty "a.q" g).result = .ok p ∧
        (∃ text, Backend.qbe.render p = .ok text) ∧
        Backend.llvm.render p = .error (.llvm (.broken (.storeTypes .i64 .i32))) := by
  have htext : writeCode selfKeeper =
      "func main 1\nlocalloc x 1 4\nt1 := local x 0\nt2 := t1 =i t1\nfend\n" := by decide +kernel
  have hok : ((Flow.build selfKeeper).toOption.bind fun g =>
      (lowerGraph {} .empty "a.q" g).result.toOption.map fun p =>
        ((lowerGraph {} .empty "a.q" g).report.diagnostics, Backend.llvm.render p)) =
      some ([], .error (.llvm (.broken (.storeTypes .i64 .i32)))) := by cbv
  obtain ⟨g, hg, hok⟩ := Option.bind_eq_some_iff.1 hok
  obtain ⟨p, hp, hboth⟩ := Option.map_eq_some_iff.1 hok
  obtain ⟨hreport, hllvm⟩ := Prod.mk.inj hboth
  have hgraph := Source.graph_writeCode writable_selfKeeper (by decide) (by decide +kernel)
    (eq_ok_of_toOption hg) "a.q"
  have hp := eq_ok_of_toOption hp
  have hqbe := Qbe.render_ok (closed_and_formed_of_lowered hgraph hp).2
  exact ⟨g, htext ▸ hgraph, hreport, p, hp, exists_mapError_ok.2 hqbe, hllvm⟩

end Quadruple
