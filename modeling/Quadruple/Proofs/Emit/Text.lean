import Quadruple.Proofs.Emit.Spelling

/-!
# The text of a run

Main statement: `readCode_run`.
-/

namespace Quadruple.Emit

open List
open Symbols (EntryId Table)

variable {N K0 : String → Prop} {K : String → Tag → Prop} {s : State} {text : String}

/-! ## Runs -/

/-- The operation is given names in `N`, numerals in `K`, bodies of strings and lines in range, and
tables with names in `N`. -/
structure Op.Worded (N K : String → Prop) (op : Op) : Prop where
  names : ∀ n ∈ op.names, N n
  numeral : ∀ text ∈ op.numeral?, K text
  literal : ∀ text ∈ op.literal?, IsStringBody text.toList
  line : ∀ line ∈ op.line?, Numeral.InRange line
  table : ∀ t ∈ op.table?, t.Spelled N

/-- Whether the temporaries, labels and entries that an operation is given have been handed out, and
no entry is taken away. -/
def Op.handed (op : Op) (s : State) : Bool :=
  (op.values.all fun v => 0 ≤ v.place.number && v.place.number ≤ s.temps) &&
    (op.marks.all fun l => 0 ≤ l && l ≤ s.labels) &&
    (op.head?.all fun id => decide (id < s.table.entries.size)) &&
    op.table?.all fun t => decide (s.table.entries.size ≤ t.entries.size)

def handed (s : State) : List Op → Bool
  | [] => true
  | op :: ops => op.handed s && handed (after op.perform s) ops

theorem spelled_perform (hK : ∀ text, K0 text → K text (numeralTag text))
    (hzero : K "0" .int) {op : Op} (h : op.Worded N K0) (hhanded : op.handed s = true)
    (hs : s.Spelled N K) : (after op.perform s).Spelled N K := by
  simp only [Op.handed, Bool.and_eq_true, all_eq_true, decide_eq_true_eq,
    Option.all_eq_true] at hhanded
  obtain ⟨⟨⟨hvalues, hmarks⟩, hhead⟩, htables⟩ := hhanded
  cases hop : op.table? with
  | some table =>
    cases op <;> cases hop
    have hle : s.extent ≤ { s with table }.extent := ⟨le_rfl, htables table rfl⟩
    exact { Stock.Spelled.mono hs hle with table := h.table table rfl }
  | none =>
    have hcovers : ∀ n : Int, 0 ≤ n → n ≤ max s.temps s.labels → s.extent.Covers n := by
      intro n hlow hhigh
      refine ⟨hlow, ?_⟩
      simp only [State.extent]
      omega
    have hitems : ∀ i ∈ op.items, i.Spelled N K s.extent := by
      simp only [Op.items, forall_mem_append, forall_mem_map, Option.mem_toList]
      refine ⟨⟨⟨⟨⟨⟨fun v hv => ?_, fun l hl => ?_⟩, h.names⟩, fun text ht => ?_⟩, h.literal⟩,
        h.line⟩, hhead⟩
      · exact hcovers _ (hvalues v hv).1 (by have := (hvalues v hv).2; omega)
      · exact hcovers _ (hmarks l hl).1 (by have := (hmarks l hl).2; omega)
      · exact hK text (h.numeral text ht)
    obtain ⟨I, hacts, -⟩ := does_perform hop s op.items fun _ => id
    exact (Acts.spelled hacts hs hitems hzero).1

theorem spelled_run (hK : ∀ text, K0 text → K text (numeralTag text))
    (hzero : K "0" .int) {ops : List Op} (h : ∀ op ∈ ops, op.Worded N K0)
    (hhanded : handed s ops = true) (hs : s.Spelled N K) : (s.run ops).Spelled N K := by
  induction ops generalizing s with
  | nil => exact hs
  | cons op ops ih =>
    obtain ⟨hop, hops⟩ := forall_mem_cons.1 h
    obtain ⟨hhand, hhanded⟩ := Bool.and_eq_true_iff.1 hhanded
    exact ih hops hhanded (spelled_perform hK hzero hop hhand hs)

/-! ## The text of a run -/

def IsDecimal (text : String) : Prop := IsIntWord text.toList ∨ IsFloatWord text.toList

/-- A decimal or hexadecimal integer, or a floating numeral with digits before the point. -/
def IsLiteral (text : String) : Prop := IsDecimal text ∨ IsHexWord text.toList

theorem numeralTag_of_int (h : IsIntWord text.toList) : numeralTag text = .int := by
  have hchars : ∀ c ∈ text.toList, c.isDigit = true ∨ c = '-' := by
    rcases h with h | ⟨ds, hds, h⟩
    · exact fun c hc => .inl (h.2 c hc)
    · rw [hds]
      exact forall_mem_cons.2 ⟨.inr rfl, fun c hc => .inl (h.2 c hc)⟩
  have hany : (text.toList.any fun c => c == '.' || c == 'e' || c == 'E') = false := by
    rw [any_eq_false]
    intro c hc
    rcases hchars c hc with hd | rfl
    · simp [Token.ne_of_digit hd (show '.'.isDigit = false by rfl),
        Token.ne_of_digit hd (show 'e'.isDigit = false by rfl),
        Token.ne_of_digit hd (show 'E'.isDigit = false by rfl)]
    · decide
  simp [numeralTag, isFloatNumeral, hany]

theorem numeralTag_of_hex (h : IsHexWord text.toList) : numeralTag text = .int := by
  obtain ⟨x, ds, hx, -, -, htext⟩ := h
  unfold numeralTag isFloatNumeral
  rw [htext]
  rcases hx with rfl | rfl <;> rfl

theorem chars_of_float {cs : List Char} (h : IsFloatWord cs) :
    (∃ c ∈ cs, c = '.' ∨ c = 'e' ∨ c = 'E') ∧ ∀ c ∈ cs, c ≠ 'x' ∧ c ≠ 'X' := by
  have hdigits : ∀ {ds : List Char}, (∀ d ∈ ds, d.isDigit = true) →
      ∀ d ∈ ds, d ≠ 'x' ∧ d ≠ 'X' := fun hds d hd =>
    ⟨Token.ne_of_digit (hds d hd) rfl, Token.ne_of_digit (hds d hd) rfl⟩
  have hexponent : ∀ {es : List Char}, IsExponent es →
      (∃ c ∈ es, c = '.' ∨ c = 'e' ∨ c = 'E') ∧ ∀ c ∈ es, c ≠ 'x' ∧ c ≠ 'X' := by
    rintro _ ⟨e, sign, ds, he, hsign, hds, rfl⟩
    refine ⟨⟨e, mem_cons_self, .inr he⟩, forall_mem_cons.2 ⟨?_, ?_⟩⟩
    · rcases he with rfl | rfl <;> decide
    · refine forall_mem_append.2 ⟨?_, hdigits hds.2⟩
      rcases hsign with rfl | rfl | rfl <;> decide
  have hunsigned : ∀ {cs : List Char}, IsUnsignedFloat cs →
      (∃ c ∈ cs, c = '.' ∨ c = 'e' ∨ c = 'E') ∧ ∀ c ∈ cs, c ≠ 'x' ∧ c ≠ 'X' := by
    rintro _ ⟨ds, hds, ⟨fs, es, hfs, hes, rfl⟩ | ⟨es, hes, rfl⟩⟩
    · refine ⟨⟨'.', by simp, .inl rfl⟩, forall_mem_append.2 ⟨hdigits hds.2, ?_⟩⟩
      refine forall_mem_cons.2 ⟨by decide, forall_mem_append.2 ⟨hdigits hfs, ?_⟩⟩
      rcases hes with rfl | hes
      · simp
      · exact (hexponent hes).2
    · obtain ⟨⟨c, hc, hpoint⟩, hes⟩ := hexponent hes
      exact ⟨⟨c, mem_append_right _ hc, hpoint⟩, forall_mem_append.2 ⟨hdigits hds.2, hes⟩⟩
  rcases h with h | ⟨ds, rfl, h⟩
  · exact hunsigned h
  · obtain ⟨⟨c, hc, hpoint⟩, hds⟩ := hunsigned h
    exact ⟨⟨c, mem_cons_of_mem _ hc, hpoint⟩, forall_mem_cons.2 ⟨by decide, hds⟩⟩

theorem numeralTag_of_float (h : IsFloatWord text.toList) : numeralTag text = .double := by
  obtain ⟨⟨c, hc, hpoint⟩, hchars⟩ := chars_of_float h
  have hlead : ∀ x, x = 'x' ∨ x = 'X' → ['0', x].isPrefixOf text.toList = false := by
    intro x hx
    rw [Bool.eq_false_iff]
    intro hlead
    obtain ⟨rest, hrest⟩ := isPrefixOf_iff_prefix.1 hlead
    have hmem : x ∈ text.toList := by
      rw [← hrest]
      simp
    rcases hx with rfl | rfl
    · exact (hchars _ hmem).1 rfl
    · exact (hchars _ hmem).2 rfl
  have hany : (text.toList.any fun c => c == '.' || c == 'e' || c == 'E') = true :=
    any_eq_true.2 ⟨c, hc, by simpa [or_assoc] using hpoint⟩
  have hfloat : isFloatNumeral text = true := by
    show (!(['0', 'x'].isPrefixOf text.toList) && !(['0', 'X'].isPrefixOf text.toList) && _) = true
    rw [hlead 'x' (.inl rfl), hlead 'X' (.inr rfl), hany]
    rfl
  rw [numeralTag, if_pos hfloat]

theorem isNumeral_of_literal (h : IsLiteral text) : IsNumeral text (numeralTag text) := by
  rcases h with (h | h) | h
  · exact .inl ⟨numeralTag_of_int h, .inl h⟩
  · exact .inr ⟨numeralTag_of_float h, h⟩
  · exact .inl ⟨numeralTag_of_hex h, .inr h⟩

theorem not_hex_of_decimal (h : IsDecimal text) : ¬IsHexWord text.toList := by
  rintro ⟨x, ds, hx, -, -, htext⟩
  have hmem : x ∈ text.toList := by
    rw [htext]
    simp
  rcases h with (h | ⟨es, hes, -⟩) | h
  · have hdigit := h.2 x hmem
    rcases hx with rfl | rfl <;> cases hdigit
  · rw [htext] at hes
    cases hes
  · have hchars := (chars_of_float h).2 x hmem
    rcases hx with rfl | rfl
    · exact hchars.1 rfl
    · exact hchars.2 rfl

theorem legible_of_made {B : Int → Prop} {q : Quad}
    (h : q.Made (¬IsDotted ·.toList) (fun text _ => ¬IsHexWord text.toList) B) : q.Legible := by
  cases q with
  | globalDecl | formalDecl | localDecl => exact h.1
  | funcBegin => exact h
  | const => exact h.2
  | ref => exact h.2.1
  | _ => trivial

/-- The text of a run whose tables and operations have names, numerals and literals of the text
format only and use nothing that was not handed out before. No counter passes the range of integers,
and no line is too long. The text stands for the instructions with their types reduced to letters.
If all of them are legible, then it is read as these, and else it is refused. They are legible if no
name is dotted and no numeral is hexadecimal. -/
theorem readCode_run (settings : Settings) (table : Table) (report : Report) (file : String)
    (ops : List Op) (htable : table.Spelled (IsIdent ·.toList))
    (hops : ∀ op ∈ ops, op.Worded (IsIdent ·.toList) IsLiteral)
    (hhanded : handed (State.new settings table report) ops = true)
    (hrange : let s := (State.new settings table report).run ops
      s.temps < 2 ^ 63 ∧ s.labels < 2 ^ 63 ∧ s.blanks < 2 ^ 63 ∧ s.table.entries.size < 2 ^ 63)
    (hsize : ∀ q ∈ ((State.new settings table report).run ops).code.toList,
      q.text.utf8ByteSize < 1024 * 1024) :
    let code := ((State.new settings table report).run ops).code.toList
    writeCode (code.map Quad.reduced) = writeCode code ∧
      ((∀ q ∈ code, q.Legible) → readCode file (writeCode code) = .ok (code.map Quad.reduced)) ∧
      ((∃ q ∈ code, ¬q.Legible) → ∃ e, readCode file (writeCode code) = .error e) ∧
      (table.Spelled (IsName ·.toList) → (∀ op ∈ ops, op.Worded (IsName ·.toList) IsDecimal) →
        ∀ q ∈ code, q.Legible) := by
  intro code
  obtain ⟨htemps, hlabels, hblanks, hentries⟩ := hrange
  have hmade := (spelled_run (fun _ => isNumeral_of_literal) (.inl ⟨rfl, .inl (.inl (by decide))⟩)
    hops hhanded (spelled_new htable settings report)).code
  have hspelled : ∀ q ∈ code, q.Spelled := by
    intro q hq
    refine (hmade q hq).mono (fun _ => id) (fun _ _ => id) ?_
    rintro n ⟨hlow, hhigh⟩
    refine ⟨hlow, ?_, ?_⟩
    · omega
    · simp only [State.extent] at hhigh
      omega
  refine ⟨writeCode_reduced code, fun hlegible => readCode_legible hspelled hsize hlegible file,
    fun hillegible => readCode_illegible hspelled hsize hillegible file, ?_⟩
  intro htable hops q hq
  have hdecimal := (spelled_run (K := fun text _ => IsDecimal text) (fun _ => id)
    (.inl (.inl (by decide))) hops hhanded (spelled_new htable settings report)).code q hq
  exact legible_of_made (hdecimal.mono (fun _ hn => (isName_iff.1 hn).2)
    (fun _ _ => not_hex_of_decimal) fun _ => id)

/-- A function that stores into an array, converts a string and returns what it stored. -/
def storing : List Op :=
  [.openFunction .double "t.f", .declareLocal "x.1" .double 2, .beginFunction (some 0),
    .variableRef "x.1", .constant "-1",
    .element { place := ⟨1⟩, tag := .ofInt 26 } { place := ⟨2⟩, tag := .int }, .constant "2.5",
    .assign "" { place := ⟨3⟩, tag := .ofInt 10 } { place := ⟨4⟩, tag := .double },
    .stringLiteral "a\\n", .cast { place := ⟨6⟩, tag := .string } .string,
    .returnStmt (some { place := ⟨5⟩, tag := .double }), .endFunction]

theorem worded_storing {N K : String → Prop} (hf : N "t.f") (hx : N "x.1") (hone : K "-1")
    (hhalf : K "2.5") : ∀ op ∈ storing, op.Worded N K := by
  have hbody : IsStringBody ['a', '\\', 'n'] :=
    .plain (by decide) (by decide) (by decide) (.escaped (by decide) .nil)
  simp only [storing, forall_mem_cons, not_mem_nil, false_implies, implies_true, and_true]
  refine ⟨?_, ?_, ?_, ?_, ?_, ?_, ?_, ?_, ?_, ?_, ?_, ?_⟩ <;> constructor <;>
    simp [Op.names, Op.numeral?, Op.literal?, Op.line?, Op.table?, hf, hx, hone, hhalf, hbody]

theorem storing_read_back :
    (∀ op ∈ storing, op.Worded (IsIdent ·.toList) IsLiteral) ∧
      handed (.new {} .empty ⟨none, []⟩) storing = true ∧
      ∃ code, ((State.new {} .empty ⟨none, []⟩).run storing).code.toList = code ∧
        readCode "storing" (writeCode code) = .ok (code.map Quad.reduced) ∧
        code.map Quad.reduced ≠ code := by
  have hone : IsDecimal "-1" := .inl (.inr ⟨['1'], rfl, by decide⟩)
  have hhalf : IsDecimal "2.5" :=
    .inr (.inl ⟨['2'], by decide, .inl ⟨['5'], [], by decide, .inl rfl, rfl⟩⟩)
  have hwords : ∀ op ∈ storing, op.Worded (IsIdent ·.toList) IsLiteral :=
    worded_storing (by decide) (by decide) (.inl hone) (.inl hhalf)
  have hhanded : handed (.new {} .empty ⟨none, []⟩) storing = true := by decide +kernel
  have hrange : ((State.new {} .empty ⟨none, []⟩).run storing).temps < 2 ^ 63 ∧
      ((State.new {} .empty ⟨none, []⟩).run storing).labels < 2 ^ 63 ∧
      ((State.new {} .empty ⟨none, []⟩).run storing).blanks < 2 ^ 63 ∧
      ((State.new {} .empty ⟨none, []⟩).run storing).table.entries.size < 2 ^ 63 := by
    decide +kernel
  have hsize : ∀ q ∈ ((State.new {} .empty ⟨none, []⟩).run storing).code.toList,
      q.text.utf8ByteSize < 1024 * 1024 := by decide +kernel
  have hletters : ((State.new {} .empty ⟨none, []⟩).run storing).code.toList.map Quad.reduced ≠
      ((State.new {} .empty ⟨none, []⟩).run storing).code.toList := by decide +kernel
  have hread := readCode_run {} .empty ⟨none, []⟩ "storing" storing Table.spelled_empty hwords
    hhanded hrange hsize
  refine ⟨hwords, hhanded, _, rfl, ?_, hletters⟩
  generalize ((State.new {} .empty ⟨none, []⟩).run storing).code.toList = code at hread ⊢
  obtain ⟨-, hread, -, hlegible⟩ := hread
  refine hread (hlegible Table.spelled_empty ?_)
  exact worded_storing (by decide) (by decide) hone hhalf

/-- A constant and a local whose words fit the text format, in code that is refused. -/
theorem illegible_refused :
    let s₀ := State.new {} .empty ⟨none, []⟩
    let hex := [Op.openFunction .int "main", .beginFunction (some 0), .constant "0x10",
      .returnStmt (some { place := ⟨1⟩, tag := .int }), .endFunction]
    let dotted := [Op.openFunction .int "main", .declareLocal "t1.x" .int 1,
      .beginFunction (some 0), .endFunction]
    IsLiteral "0x10" ∧ IsIdent "t1.x".toList ∧
      (s₀.run hex).code.toList = [.funcBegin "main" .int, .const ⟨1⟩ "0x10" .int,
        .ret (some ⟨1⟩) .int, .funcEnd] ∧
      (∃ e, readCode "f" (writeCode (s₀.run hex).code.toList) = .error e) ∧
      (s₀.run dotted).code.toList = [.funcBegin "main" .int, .localDecl ⟨"t1.x", .int, 4⟩,
        .funcEnd] ∧
      ∃ e, readCode "f" (writeCode (s₀.run dotted).code.toList) = .error e := by
  intro s₀ hex dotted
  have hword : IsHexWord "0x10".toList := ⟨'x', ['1', '0'], .inl rfl, by decide, by decide, rfl⟩
  have hname : IsIdent "t1.x".toList := by decide
  have hhex : (s₀.run hex).code.toList = [.funcBegin "main" .int, .const ⟨1⟩ "0x10" .int,
      .ret (some ⟨1⟩) .int, .funcEnd] := by decide +kernel
  have hdotted : (s₀.run dotted).code.toList = [.funcBegin "main" .int,
      .localDecl ⟨"t1.x", .int, 4⟩, .funcEnd] := by decide +kernel
  have hmain : (Quad.funcBegin "main" .int).Spelled := show IsIdent "main".toList by decide
  have hret : (Quad.ret (some ⟨1⟩) .int).Spelled := fun x hx => Option.some.inj hx ▸ by decide
  refine ⟨.inr hword, hname, hhex, ?_, hdotted, ?_⟩
  · rw [hhex]
    have hillegible : ¬(Quad.const ⟨1⟩ "0x10" .int).Legible := fun h => h hword
    refine readCode_illegible ?_ (by decide +kernel) ⟨_, by simp, hillegible⟩ "f"
    simp only [List.forall_mem_cons, List.not_mem_nil, false_implies, implies_true, and_true]
    exact ⟨hmain, ⟨by decide, .inl ⟨rfl, .inr hword⟩⟩, hret, trivial⟩
  · rw [hdotted]
    have hillegible : ¬(Quad.localDecl ⟨"t1.x", .int, 4⟩).Legible := fun h => h (by decide)
    refine readCode_illegible ?_ (by decide +kernel) ⟨_, by simp, hillegible⟩ "f"
    simp only [List.forall_mem_cons, List.not_mem_nil, false_implies, implies_true, and_true]
    exact ⟨hmain, ⟨hname, by decide⟩, trivial⟩

end Quadruple.Emit
