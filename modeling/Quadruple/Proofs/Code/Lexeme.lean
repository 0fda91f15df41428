import Mathlib
import Quadruple.Code.Token
import Quadruple.Text.Blank

/-!
# Lexemes

The words of the text format, described without the scanners: names, integer and floating
numerals, the bodies of strings. A token is *separable* when every place where it stands in front
of a space or at the end of the line cuts it off whole.

Main statements: `separable_name`, `separable_int`, `separable_float`, `separable_string`,
`separable_op`, `separable_patch`, one for each class of words, and `tokenize_spaced`, that a line
of separable tokens with single spaces between them is cut into those tokens.
-/

namespace Quadruple

open List

/-- What holds of every character of a text is decided along the text, not over all characters. -/
instance (priority := 1100) decidableForallMem (p : Char → Prop) [DecidablePred p]
    (cs : List Char) : Decidable (∀ c ∈ cs, p c) :=
  List.decidableBAll p cs

/-! ### The words -/

def IsDigits (cs : List Char) : Prop := cs ≠ [] ∧ ∀ c ∈ cs, c.isDigit

instance (cs : List Char) : Decidable (IsDigits cs) := inferInstanceAs (Decidable (_ ∧ _))

/-- A letter of a temporary, blank or label with digits behind it, and then a point. -/
def IsDotted : List Char → Prop
  | [] => False
  | c :: cs => c ∈ ['t', 'B', 'L'] ∧ cs.takeWhile Char.isDigit ≠ [] ∧
      (cs.dropWhile Char.isDigit).head? = some '.'

instance (cs : List Char) : Decidable (IsDotted cs) := by
  cases cs <;> unfold IsDotted <;> infer_instance

/-- A letter or `_`, then letters, digits, `_` and points, and not a numbered word with a point
behind it. -/
def IsName : List Char → Prop
  | [] => False
  | c :: cs => (c.isAlpha ∨ c = '_') ∧ (∀ d ∈ cs, d.isAlphanum ∨ d = '_' ∨ d = '.') ∧
      ¬ IsDotted (c :: cs)

instance (cs : List Char) : Decidable (IsName cs) := by
  cases cs <;> unfold IsName <;> infer_instance

def Signed (unsigned : List Char → Prop) (cs : List Char) : Prop :=
  unsigned cs ∨ ∃ ds, cs = '-' :: ds ∧ unsigned ds

def IsIntWord : List Char → Prop := Signed IsDigits

def IsExponent (cs : List Char) : Prop :=
  ∃ e sign ds, (e = 'e' ∨ e = 'E') ∧ (sign = [] ∨ sign = ['-'] ∨ sign = ['+']) ∧ IsDigits ds ∧
    cs = e :: (sign ++ ds)

/-- Digits with a point, more digits or none, and an exponent or none; or digits with an
exponent. -/
def IsUnsignedFloat (cs : List Char) : Prop :=
  ∃ ds, IsDigits ds ∧
    ((∃ fs es, (∀ f ∈ fs, f.isDigit) ∧ (es = [] ∨ IsExponent es) ∧ cs = ds ++ '.' :: (fs ++ es)) ∨
      ∃ es, IsExponent es ∧ cs = ds ++ es)

def IsFloatWord : List Char → Prop := Signed IsUnsignedFloat

/-- What can stand between the quotes of a string: characters other than quotes and backslashes,
and pairs of a backslash and any character, all on one line. -/
inductive IsStringBody : List Char → Prop where
  | nil : IsStringBody []
  | plain {c : Char} {cs : List Char} :
      c ≠ '"' → c ≠ '\\' → c ≠ '\n' → IsStringBody cs → IsStringBody (c :: cs)
  | escaped {c : Char} {cs : List Char} :
      c ≠ '\n' → IsStringBody cs → IsStringBody ('\\' :: c :: cs)

variable {rest : List Char}

namespace Token

/-! ### Runs of digits -/

def NoDigit (cs : List Char) : Prop := ∀ c ∈ cs.head?, c.isDigit = false

def Ends (rest : List Char) : Prop := rest = [] ∨ ∃ tail, rest = ' ' :: tail

theorem Ends.noDigit (h : Ends rest) : NoDigit rest := by
  rcases h with rfl | ⟨tail, rfl⟩
  · intro c hc
    cases hc
  · intro c hc
    cases hc
    rfl

theorem Ends.atBoundary (h : Ends rest) : atBoundary rest = true := by
  rcases h with rfl | ⟨tail, rfl⟩ <;> rfl

variable {ds tail es body cs : List Char} {letter c d : Char}

section

variable (hds : ∀ d ∈ ds, d.isDigit) (ht : NoDigit tail)
include hds ht

theorem takeWhile_digits : (ds ++ tail).takeWhile Char.isDigit = ds := by
  rw [takeWhile_append_of_pos hds]
  cases tail with
  | nil => simp
  | cons c cs => simp [ht c rfl]

theorem dropWhile_digits : (ds ++ tail).dropWhile Char.isDigit = tail := by
  rw [dropWhile_append_of_pos hds]
  cases tail with
  | nil => rfl
  | cons c cs => simp [ht c rfl]

theorem digitRun_append : digitRun (ds ++ tail) = ds.length := by
  rw [digitRun, takeWhile_digits hds ht]

end

theorem digitRun_of_noDigit (h : NoDigit cs) : digitRun cs = 0 := by
  simpa using digitRun_append (forall_mem_nil _) h

theorem exists_digits (cs : List Char) :
    ∃ ds tail, cs = ds ++ tail ∧ (∀ d ∈ ds, d.isDigit) ∧ NoDigit tail := by
  refine ⟨_, _, takeWhile_append_dropWhile.symm, fun d hd => mem_takeWhile_imp hd, ?_⟩
  intro c hc
  by_contra hdigit
  exact absurd (head?_dropWhile_not Char.isDigit cs) (by simp_all)

/-! ### Names -/

/-- The class of a name: names shaped like temporaries, blanks and labels belong to these. -/
def nameKind : List Char → TokenKind
  | [] => .ident
  | c :: cs =>
    if IsDigits cs then
      if c = 't' then .temp else if c = 'B' then .blank else if c = 'L' then .label else .ident
    else .ident

theorem ne_of_letter (h : c.isAlpha ∨ c = '_') (hd : d.isAlpha = false) (hd' : d ≠ '_') :
    c ≠ d := by
  rintro rfl
  simp_all

theorem symbolLength_eq_zero (h : c ∉ "!-+*/%&|^<>=@~[".toList) :
    symbolLength (c :: cs) = 0 := by
  unfold symbolLength
  split <;> simp_all

theorem symbolLength_letter (h : c.isAlpha ∨ c = '_') : symbolLength (c :: cs) = 0 := by
  apply symbolLength_eq_zero
  intro hmem
  have : ∀ d ∈ "!-+*/%&|^<>=@~[".toList, d.isAlpha = false ∧ d ≠ '_' := by decide
  exact ne_of_letter h (this c hmem).1 (this c hmem).2 rfl

theorem isAlpha_iff : c.isAlpha ↔ 65 ≤ c.val.toNat ∧ c.val.toNat ≤ 90 ∨
    97 ≤ c.val.toNat ∧ c.val.toNat ≤ 122 := by
  delta Char.isAlpha Char.isUpper Char.isLower
  simp only [Bool.or_eq_true, Bool.and_eq_true, decide_eq_true_eq, UInt32.le_iff_toNat_le,
    ge_iff_le]
  exact Iff.rfl

theorem not_isDigit_of_letter (h : c.isAlpha ∨ c = '_') : c.isDigit = false := by
  rcases h with h | rfl
  · rw [isAlpha_iff] at h
    simp only [Char.isDigit, Bool.and_eq_false_iff, decide_eq_false_iff_not,
      UInt32.le_iff_toNat_le, ge_iff_le]
    have h9 : '9'.val.toNat = 57 := rfl
    omega
  · rfl

/-- Behind the digits of a name stands its end, a word character, or a point; the point only
where the name is not a numbered word. -/
theorem scanNumbered_name (hl : letter ∈ ['t', 'B', 'L'])
    (h : IsName (c :: cs)) (hr : Ends rest) :
    scanNumbered letter (c :: (cs ++ rest)) =
      if c = letter ∧ IsDigits cs then cs.length + 1 else 0 := by
  obtain ⟨ds, tail, rfl, hds, ht⟩ := exists_digits cs
  obtain ⟨-, hchars, hdotted⟩ := h
  by_cases hc : c ≠ letter
  · simp [scanNumbered, hc]
  obtain rfl := Decidable.not_not.1 hc
  cases tail with
  | nil =>
    have hrun : digitRun (ds ++ rest) = ds.length := digitRun_append hds hr.noDigit
    have hdigits : IsDigits ds ↔ ds.length ≠ 0 :=
      ⟨fun h => by simpa using h.1, fun h => ⟨by simpa using h, hds⟩⟩
    simp [scanNumbered, hrun, hr.atBoundary, hdigits]
  | cons d tail =>
    have hd : d.isDigit = false := ht d rfl
    have hrun : digitRun (ds ++ d :: (tail ++ rest)) = ds.length :=
      digitRun_append hds (fun e he => by cases he; exact hd)
    have hnot : ¬ IsDigits (ds ++ d :: tail) := fun h => by simpa [hd] using h.2 d (by simp)
    have hstop : ds ≠ [] → isWordChar d = true := by
      intro hne
      rcases hchars d (by simp) with hword | rfl | rfl
      · simp [isWordChar, hword]
      · rfl
      · refine absurd ⟨hl, ?_, ?_⟩ hdotted
        · rwa [takeWhile_digits hds ht]
        · rw [dropWhile_digits hds ht]
          rfl
    simp only [scanNumbered, append_assoc, cons_append, hrun, drop_left]
    by_cases hne : ds = []
    · subst hne
      simpa using hnot
    · simp [hnot, atBoundary, hstop hne]

theorem scanPatch_name (h : IsName (c :: cs)) (hr : Ends rest) :
    scanPatch (c :: (cs ++ rest)) = 0 := by
  obtain ⟨ds, tail, rfl, hds, ht⟩ := exists_digits cs
  obtain ⟨-, hchars, -⟩ := h
  have hstop : NoDigit (tail ++ rest) ∧ ∀ us, tail ++ rest ≠ '=' :: us := by
    cases tail with
    | nil => exact ⟨hr.noDigit, by rcases hr with rfl | ⟨us, rfl⟩ <;> simp⟩
    | cons d tail =>
      refine ⟨ht, fun us hus => ?_⟩
      obtain ⟨rfl, -⟩ := cons.inj hus
      exact absurd (hchars '=' (by simp)) (by decide)
  unfold scanPatch
  split
  · next us heq =>
    obtain ⟨-, rfl⟩ := cons.inj heq
    simp only [append_assoc, digitRun_append hds hstop.1, drop_left]
    split
    · rfl
    · split
      · next hus => exact absurd hus (hstop.2 _)
      · rfl
  · rfl

theorem scanIdent_name (h : IsName (c :: cs)) (hr : Ends rest) :
    scanIdent (c :: (cs ++ rest)) = cs.length + 1 := by
  obtain ⟨hc, hchars, -⟩ := h
  have hword : ∀ d ∈ cs, (isWordChar d || d == '.') = true := fun d hd => by
    simpa [isWordChar, or_assoc] using hchars d hd
  have hrest : rest.takeWhile (fun d => isWordChar d || d == '.') = [] := by
    rcases hr with rfl | ⟨tail, rfl⟩ <;> rfl
  have hstart : (c.isAlpha || c == '_') = true := by simpa using hc
  rw [scanIdent, if_pos hstart, takeWhile_append_of_pos hword, hrest, append_nil]

theorem scan_letter (cs : List Char) (h : c.isAlpha ∨ c = '_') :
    scanComment (c :: cs) = 0 ∧ scanString (c :: cs) = 0 ∧ scanOp (c :: cs) = 0 ∧
      scanAssign (c :: cs) = 0 ∧ scanFloat (c :: cs) = 0 ∧ scanInt (c :: cs) = 0 := by
  have hne (d : Char) (hd : d.isAlpha = false) (hd' : d ≠ '_') : c ≠ d := ne_of_letter h hd hd'
  have hrun : digitRun (c :: cs) = 0 :=
    digitRun_of_noDigit fun d hd => by cases hd; exact not_isDigit_of_letter h
  refine ⟨?_, ?_, ?_, ?_, ?_, ?_⟩
  · simp [scanComment, hne '#' rfl (by decide)]
  · simp [scanString, hne '"' rfl (by decide)]
  · simp [scanOp, symbolLength_letter h]
  · simp [scanAssign, hne ':' rfl (by decide)]
  · simp [scanFloat, withMinus, scanUnsignedFloat, hrun, hne '-' rfl (by decide)]
  · simp [scanInt, withMinus, hrun, hne '-' rfl (by decide)]

variable {t : Token} {s : String} {ts : List Token}

theorem scan_name (h : IsName (c :: cs)) (hr : Ends rest) :
    scan (c :: (cs ++ rest)) = some (nameKind (c :: cs), cs.length + 1) := by
  obtain ⟨hcomment, hstring, hop, hassign, hfloat, hint⟩ := scan_letter (cs ++ rest) h.1
  have htemp := scanNumbered_name (show 't' ∈ _ by decide) h hr
  have hblank := scanNumbered_name (show 'B' ∈ _ by decide) h hr
  have hlabel := scanNumbered_name (show 'L' ∈ _ by decide) h hr
  simp only [scan, scanners, findSome?_cons, hcomment, hstring, scanPatch_name h hr, hop,
    hassign, hfloat, hint, htemp, hblank, hlabel, scanIdent_name h hr, nameKind]
  by_cases hd : IsDigits cs
  · by_cases ht : c = 't'
    · simp [hd, ht]
    · by_cases hB : c = 'B'
      · simp [hd, hB]
      · by_cases hL : c = 'L' <;> simp [hd, ht, hB, hL]
  · simp [hd]

/-! ### Numerals -/

/-- The texts that start like a numeral: with a digit, or with a minus sign and a digit. -/
def NumeralStart (cs : List Char) : Prop :=
  ∃ d us, d.isDigit = true ∧ (cs = d :: us ∨ cs = '-' :: d :: us)

theorem ne_of_digit (h : c.isDigit = true) (hd : d.isDigit = false) : c ≠ d := by
  rintro rfl
  simp_all

theorem NumeralStart.scan (h : NumeralStart cs) :
    scanComment cs = 0 ∧ scanString cs = 0 ∧ scanPatch cs = 0 ∧ scanOp cs = 0 ∧
      scanAssign cs = 0 := by
  obtain ⟨d, us, hd, rfl | rfl⟩ := h
  · have hsymbol : symbolLength (d :: us) = 0 := by
      apply symbolLength_eq_zero
      intro hmem
      have : ∀ c ∈ "!-+*/%&|^<>=@~[".toList, c.isDigit = false := by decide
      exact ne_of_digit hd (this d hmem) rfl
    refine ⟨?_, ?_, ?_, ?_, ?_⟩
    · simp [scanComment, ne_of_digit hd (show '#'.isDigit = false by rfl)]
    · simp [scanString, ne_of_digit hd (show '"'.isDigit = false by rfl)]
    · simp [scanPatch, ne_of_digit hd (show 'B'.isDigit = false by rfl)]
    · simp [scanOp, hsymbol]
    · simp [scanAssign, ne_of_digit hd (show ':'.isDigit = false by rfl)]
  · have hi := ne_of_digit hd (show 'i'.isDigit = false by rfl)
    have hf := ne_of_digit hd (show 'f'.isDigit = false by rfl)
    refine ⟨rfl, rfl, rfl, ?_, rfl⟩
    simp [scanOp, symbolLength, hi, hf]

theorem numeralStart_of_digits (h : IsDigits ds) (us : List Char) :
    NumeralStart (ds ++ us) ∧ NumeralStart ('-' :: (ds ++ us)) := by
  obtain ⟨hne, hds⟩ := h
  cases ds with
  | nil => exact absurd rfl hne
  | cons d ds =>
    have hd := hds d (by simp)
    exact ⟨⟨d, ds ++ us, hd, .inl rfl⟩, ⟨d, ds ++ us, hd, .inr rfl⟩⟩

theorem withMinus_of_digit {f : List Char → Nat} {us : List Char} (h : IsDigits ds) :
    withMinus f (ds ++ us) = f (ds ++ us) := by
  obtain ⟨hne, hds⟩ := h
  cases ds with
  | nil => exact absurd rfl hne
  | cons d ds => simp [withMinus, ne_of_digit (hds d (by simp)) (show '-'.isDigit = false by rfl)]

theorem exponentLength_of_ends (h : Ends rest) : exponentLength rest = 0 := by
  rcases h with rfl | ⟨tail, rfl⟩ <;> rfl

theorem exponentLength_append (h : IsExponent es) (hr : Ends rest) :
    exponentLength (es ++ rest) = es.length := by
  obtain ⟨e, sign, ds, he, hsign, ⟨hne, hds⟩, rfl⟩ := h
  have hrun : digitRun (ds ++ rest) = ds.length := digitRun_append hds hr.noDigit
  have hpos : ds.length ≠ 0 := by simpa using hne
  rcases hsign with rfl | rfl | rfl
  · cases ds with
    | nil => exact absurd rfl hne
    | cons d ds =>
      have hd := hds d (by simp)
      have hminus := ne_of_digit hd (show '-'.isDigit = false by rfl)
      have hplus := ne_of_digit hd (show '+'.isDigit = false by rfl)
      simp only [cons_append] at hrun
      simp [exponentLength, he, hminus, hplus, hrun]
  · simp [exponentLength, he, hrun, hpos]
  · simp [exponentLength, he, hrun, hpos]

theorem noDigit_of_exponent (h : IsExponent es) (rest : List Char) : NoDigit (es ++ rest) := by
  obtain ⟨e, sign, ds, he, -, -, rfl⟩ := h
  intro c hc
  cases hc
  rcases he with rfl | rfl <;> rfl

theorem scanUnsignedFloat_digits (h : IsDigits ds) (hr : Ends rest) :
    scanUnsignedFloat (ds ++ rest) = 0 := by
  have hpos : ds.length ≠ 0 := by simpa using h.1
  simp only [scanUnsignedFloat, digitRun_append h.2 hr.noDigit, drop_left, if_neg hpos]
  split
  · next us =>
    rcases hr with hr | ⟨tail, hr⟩ <;> cases hr
  · simp [exponentLength_of_ends hr]

theorem scanUnsignedFloat_append (h : IsUnsignedFloat cs) (hr : Ends rest) :
    scanUnsignedFloat (cs ++ rest) = cs.length := by
  obtain ⟨ds, ⟨hne, hds⟩, ⟨fs, es, hfs, hes, rfl⟩ | ⟨es, hes, rfl⟩⟩ := h
  · have hpos : ds.length ≠ 0 := by simpa using hne
    have hpoint : digitRun (ds ++ '.' :: (fs ++ (es ++ rest))) = ds.length :=
      digitRun_append hds fun c hc => by cases hc; rfl
    have htail : NoDigit (es ++ rest) ∧ exponentLength (es ++ rest) = es.length := by
      rcases hes with rfl | hes
      · exact ⟨hr.noDigit, exponentLength_of_ends hr⟩
      · exact ⟨noDigit_of_exponent hes rest, exponentLength_append hes hr⟩
    simp only [scanUnsignedFloat, append_assoc, cons_append, hpoint, drop_left,
      if_neg hpos, digitRun_append hfs htail.1, htail.2, length_append, length_cons]
    omega
  · have hpos : ds.length ≠ 0 := by simpa using hne
    have hexp := exponentLength_append hes hr
    simp only [scanUnsignedFloat, append_assoc, digitRun_append hds (noDigit_of_exponent hes rest),
      drop_left, if_neg hpos, length_append]
    split
    · next us heq =>
      obtain ⟨e, sign, es, he, -, -, rfl⟩ := hes
      rcases he with rfl | rfl <;> cases heq
    · have : es.length ≠ 0 := by
        obtain ⟨e, sign, es, -, -, -, rfl⟩ := hes
        simp
      simp only [hexp, if_neg this]

theorem scan_of_scanFloat (h : NumeralStart cs) (hf : scanFloat cs ≠ 0) :
    scan cs = some (.float, scanFloat cs) := by
  obtain ⟨hcomment, hstring, hpatch, hop, hassign⟩ := h.scan
  simp [scan, scanners, hcomment, hstring, hpatch, hop, hassign, hf]

theorem scan_of_scanInt (h : NumeralStart cs) (hf : scanFloat cs = 0)
    (hi : scanInt cs ≠ 0) : scan cs = some (.int, scanInt cs) := by
  obtain ⟨hcomment, hstring, hpatch, hop, hassign⟩ := h.scan
  simp [scan, scanners, hcomment, hstring, hpatch, hop, hassign, hf, hi]

theorem scan_int (h : IsIntWord cs) (hr : Ends rest) :
    scan (cs ++ rest) = some (.int, cs.length) := by
  rcases h with h | ⟨ds, rfl, h⟩
  · have hpos : cs.length ≠ 0 := by simpa using h.1
    have hf : scanFloat (cs ++ rest) = 0 := by
      rw [scanFloat, withMinus_of_digit h, scanUnsignedFloat_digits h hr]
    have hi : scanInt (cs ++ rest) = cs.length := by
      rw [scanInt, withMinus_of_digit h, digitRun_append h.2 hr.noDigit]
    rw [scan_of_scanInt (numeralStart_of_digits h rest).1 hf (hi ▸ hpos), hi]
  · have hpos : ds.length ≠ 0 := by simpa using h.1
    have hf : scanFloat ('-' :: (ds ++ rest)) = 0 := by
      simp [scanFloat, withMinus, scanUnsignedFloat_digits h hr]
    have hi : scanInt ('-' :: (ds ++ rest)) = ds.length + 1 := by
      simp [scanInt, withMinus, digitRun_append h.2 hr.noDigit, h.1]
    rw [cons_append, length_cons,
      scan_of_scanInt (numeralStart_of_digits h rest).2 hf (by omega), hi]

theorem IsUnsignedFloat.digits (h : IsUnsignedFloat cs) :
    ∃ ds tail, IsDigits ds ∧ cs = ds ++ tail := by
  obtain ⟨ds, hds, ⟨fs, es, -, -, rfl⟩ | ⟨es, -, rfl⟩⟩ := h
  · exact ⟨ds, _, hds, rfl⟩
  · exact ⟨ds, _, hds, rfl⟩

theorem scan_float (h : IsFloatWord cs) (hr : Ends rest) :
    scan (cs ++ rest) = some (.float, cs.length) := by
  rcases h with h | ⟨us, rfl, h⟩
  · have hlen := scanUnsignedFloat_append h hr
    obtain ⟨ds, tail, hds, rfl⟩ := IsUnsignedFloat.digits h
    have hpos : (ds ++ tail).length ≠ 0 := by simp [hds.1]
    have hf : scanFloat (ds ++ tail ++ rest) = (ds ++ tail).length := by
      rw [scanFloat, append_assoc, withMinus_of_digit hds, ← append_assoc, hlen]
    have hstart : NumeralStart (ds ++ tail ++ rest) :=
      append_assoc ds tail rest ▸ (numeralStart_of_digits hds _).1
    rw [scan_of_scanFloat hstart (hf ▸ hpos), hf]
  · have hlen := scanUnsignedFloat_append h hr
    obtain ⟨ds, tail, hds, rfl⟩ := IsUnsignedFloat.digits h
    have hpos : (ds ++ tail).length ≠ 0 := by simp [hds.1]
    have hf : scanFloat ('-' :: (ds ++ tail ++ rest)) = (ds ++ tail).length + 1 := by
      simp only [scanFloat, withMinus, hlen, if_neg hpos]
    have hstart : NumeralStart ('-' :: (ds ++ tail ++ rest)) :=
      append_assoc ds tail rest ▸ (numeralStart_of_digits hds _).2
    rw [cons_append, length_cons, scan_of_scanFloat hstart (by omega), hf]

/-! ### Strings, operators, equations -/

theorem stringRest_append (h : IsStringBody body) (rest : List Char) :
    stringRest (body ++ '"' :: rest) = some (body.length + 1) := by
  induction h with
  | nil => rfl
  | plain hquote hback _ _ ih => simp [stringRest, hback, ih]
  | escaped hline _ ih => simp [stringRest, hline, ih]

theorem scan_string (h : IsStringBody body) :
    scan ('"' :: (body ++ '"' :: rest)) = some (.string, body.length + 2) := by
  simp [scan, scanners, scanComment, scanString, stringRest_append h]

theorem scan_patch (hds : IsDigits ds) (hes : IsDigits es) (hr : Ends rest) :
    scan ('B' :: (ds ++ '=' :: 'L' :: (es ++ rest))) = some (.patch, ds.length + es.length + 3) := by
  have hblank : digitRun (ds ++ '=' :: 'L' :: (es ++ rest)) = ds.length :=
    digitRun_append hds.2 fun c hc => by cases hc; rfl
  have hlabel : digitRun (es ++ rest) = es.length := digitRun_append hes.2 hr.noDigit
  simp [scan, scanners, scanComment, scanString, scanPatch, hblank, hlabel, hds.1, hes.1]

def symbols : List (List Char) :=
  [['@'], ['~'], ['='], ['[', ']'], ['+'], ['-'], ['*'], ['/'], ['%'], ['&'], ['|'], ['^'],
    ['<', '<'], ['>', '>'], ['=', '='], ['!', '='], ['<'], ['<', '='], ['>'], ['>', '=']]

theorem scan_op {symbol : List Char} (hs : symbol ∈ symbols) (hl : letter = 'i' ∨ letter = 'f')
    (hr : Ends rest) : scan (symbol ++ letter :: rest) = some (.op, symbol.length + 1) := by
  have hlength : symbolLength (symbol ++ letter :: rest) = symbol.length := by
    rcases hl with rfl | rfl <;> revert symbol <;> simp [symbols, symbolLength]
  have hfirst : scanComment (symbol ++ letter :: rest) = 0 ∧
      scanString (symbol ++ letter :: rest) = 0 ∧ scanPatch (symbol ++ letter :: rest) = 0 := by
    revert symbol
    simp [symbols, scanComment, scanString, scanPatch]
  have hpos : symbol.length ≠ 0 := by
    revert symbol
    simp [symbols]
  simp [scan, scanners, hfirst, scanOp, hlength, hpos, hl, hr.atBoundary]

/-! ### Separable tokens -/

structure Compact (t : Token) : Prop where
  start : ∃ c cs, t.text.toList = c :: cs ∧ Text.isBlank c = false
  finish : ∃ cs c, t.text.toList = cs ++ [c] ∧ Text.isBlank c = false
  inLine : '\n' ∉ t.text.toList

/-- A token of the grammar that is cut off whole wherever a space or the end of the line stands
behind it. -/
structure Separable (t : Token) : Prop extends Compact t where
  scan : ∀ rest, Ends rest →
    Token.scan (t.text.toList ++ rest) = some (t.kind, t.text.toList.length)
  significant : t.isSignificant = true

theorem isBlank_of_alphanum (h : c.isAlphanum) : Text.isBlank c = false := by
  simp only [Char.isAlphanum, isAlpha_iff, Char.isDigit, Bool.or_eq_true, Bool.and_eq_true,
    decide_eq_true_eq, UInt32.le_iff_toNat_le, ge_iff_le] at h
  have h0 : '0'.val.toNat = 48 := rfl
  have h9 : '9'.val.toNat = 57 := rfl
  have hc : c.toNat = c.val.toNat := rfl
  simp only [Text.isBlank, Bool.or_eq_false_iff, Bool.and_eq_false_iff, beq_eq_false_iff_ne,
    decide_eq_false_iff_not]
  omega

theorem isBlank_of_digit (h : c.isDigit) : Text.isBlank c = false :=
  isBlank_of_alphanum (by simp [Char.isAlphanum, h])

theorem compact_of_solid (hne : t.text.toList ≠ [])
    (hsolid : ∀ c ∈ t.text.toList, Text.isBlank c = false) : Compact t where
  start := by
    obtain ⟨c, cs, h⟩ := exists_cons_of_ne_nil hne
    exact ⟨c, cs, h, hsolid c (by simp [h])⟩
  finish := by
    have h := dropLast_concat_getLast hne
    exact ⟨_, _, h.symm, hsolid _ (getLast_mem hne)⟩
  inLine := fun h => absurd (hsolid _ h) (by decide)

theorem separable_of_solid (hne : t.text.toList ≠ [])
    (hsolid : ∀ c ∈ t.text.toList, Text.isBlank c = false) (hsig : t.isSignificant = true)
    (hscan : ∀ rest, Ends rest →
      scan (t.text.toList ++ rest) = some (t.kind, t.text.toList.length)) : Separable t where
  toCompact := compact_of_solid hne hsolid
  scan := hscan
  significant := hsig

theorem nameKind_isSignificant (cs : List Char) (text : String) :
    (Token.mk (nameKind cs) text).isSignificant = true := by
  unfold nameKind
  split
  · rfl
  · repeat' split
    all_goals rfl

theorem separable_name (h : IsName s.toList) : Separable ⟨nameKind s.toList, s⟩ := by
  cases hs : s.toList with
  | nil => simp [hs, IsName] at h
  | cons c cs =>
    rw [hs] at h
    obtain ⟨hc, hcs, -⟩ := id h
    apply separable_of_solid
    · simp [hs]
    · intro d hd
      rw [show (Token.mk _ s).text = s from rfl, hs, mem_cons] at hd
      rcases hd with rfl | hd
      · rcases hc with hc | rfl
        · exact isBlank_of_alphanum (by simp [Char.isAlphanum, hc])
        · rfl
      · rcases hcs d hd with hd | rfl | rfl
        · exact isBlank_of_alphanum hd
        · rfl
        · rfl
    · exact nameKind_isSignificant _ _
    · intro rest hr
      simpa [hs] using scan_name h hr

theorem isBlank_of_signed {unsigned : List Char → Prop} (h : Signed unsigned cs)
    (hsolid : ∀ ds, unsigned ds → ds ≠ [] ∧ ∀ d ∈ ds, Text.isBlank d = false) :
    cs ≠ [] ∧ ∀ c ∈ cs, Text.isBlank c = false := by
  rcases h with h | ⟨ds, rfl, h⟩
  · exact hsolid cs h
  · exact ⟨by simp, forall_mem_cons.2 ⟨rfl, (hsolid ds h).2⟩⟩

theorem separable_int (h : IsIntWord s.toList) : Separable ⟨.int, s⟩ := by
  obtain ⟨hne, hsolid⟩ := isBlank_of_signed h fun ds hds =>
    ⟨hds.1, fun d hd => isBlank_of_digit (hds.2 d hd)⟩
  exact separable_of_solid hne hsolid rfl fun rest hr => scan_int h hr

theorem isBlank_of_exponent (h : IsExponent es) : ∀ c ∈ es, Text.isBlank c = false := by
  obtain ⟨e, sign, ds, he, hsign, hds, rfl⟩ := h
  intro c hc
  simp only [mem_cons, mem_append] at hc
  rcases hc with rfl | hc | hc
  · rcases he with rfl | rfl <;> rfl
  · rcases hsign with rfl | rfl | rfl
    · cases hc
    · rw [mem_singleton.1 hc]
      rfl
    · rw [mem_singleton.1 hc]
      rfl
  · exact isBlank_of_digit (hds.2 c hc)

theorem isBlank_of_unsignedFloat (h : IsUnsignedFloat cs) :
    cs ≠ [] ∧ ∀ c ∈ cs, Text.isBlank c = false := by
  obtain ⟨ds, hds, ⟨fs, es, hfs, hes, rfl⟩ | ⟨es, hes, rfl⟩⟩ := h
  · refine ⟨by simp, fun c hc => ?_⟩
    simp only [mem_cons, mem_append] at hc
    rcases hc with hc | rfl | hc | hc
    · exact isBlank_of_digit (hds.2 c hc)
    · rfl
    · exact isBlank_of_digit (hfs c hc)
    · rcases hes with rfl | hes
      · cases hc
      · exact isBlank_of_exponent hes c hc
  · refine ⟨by simp [hds.1], fun c hc => ?_⟩
    rcases mem_append.1 hc with hc | hc
    · exact isBlank_of_digit (hds.2 c hc)
    · exact isBlank_of_exponent hes c hc

theorem separable_float (h : IsFloatWord s.toList) : Separable ⟨.float, s⟩ := by
  obtain ⟨hne, hsolid⟩ := isBlank_of_signed h fun ds => isBlank_of_unsignedFloat
  exact separable_of_solid hne hsolid rfl fun rest hr => scan_float h hr

theorem newline_notMem_of_stringBody (h : IsStringBody body) : '\n' ∉ body := by
  induction h with
  | nil => simp
  | plain _ _ hline _ ih | escaped hline _ ih => simp [ih, hline.symm]

theorem separable_string (h : IsStringBody s.toList) : Separable ⟨.string, "\"" ++ s ++ "\""⟩ where
  scan rest _ := by simpa using scan_string h
  significant := rfl
  start := ⟨'"', s.toList ++ ['"'], by simp, rfl⟩
  finish := ⟨'"' :: s.toList, '"', by simp, rfl⟩
  inLine := by simp [newline_notMem_of_stringBody h]

theorem separable_assign : Separable ⟨.assign, ":="⟩ :=
  separable_of_solid (by decide) (by decide) rfl fun _ _ => rfl

theorem separable_op {op suffix : String} (hop : op.toList ∈ symbols)
    (hs : suffix = "i" ∨ suffix = "f") : Separable ⟨.op, op ++ suffix⟩ := by
  obtain ⟨letter, hletter, hl⟩ : ∃ letter, suffix.toList = [letter] ∧ (letter = 'i' ∨ letter = 'f') := by
    rcases hs with rfl | rfl
    · exact ⟨'i', rfl, .inl rfl⟩
    · exact ⟨'f', rfl, .inr rfl⟩
  have hsymbol : ∀ symbol ∈ symbols, ∀ c ∈ symbol, Text.isBlank c = false := by decide
  apply separable_of_solid
  · simp [hletter]
  · intro c hc
    rw [String.toList_append, hletter, mem_append, mem_singleton] at hc
    rcases hc with hc | rfl
    · exact hsymbol _ hop c hc
    · rcases hl with rfl | rfl <;> rfl
  · rfl
  · intro rest hr
    simpa [hletter] using scan_op hop hl hr

theorem separable_patch {b l : String} (hb : IsDigits b.toList) (hl : IsDigits l.toList) :
    Separable ⟨.patch, "B" ++ b ++ "=" ++ ("L" ++ l)⟩ := by
  apply separable_of_solid
  · simp
  · intro c hc
    simp only [String.toList_append, mem_append] at hc
    rcases hc with ((hc | hc) | hc) | hc | hc
    · rw [mem_singleton.1 hc]
      rfl
    · exact isBlank_of_digit (hb.2 c hc)
    · rw [mem_singleton.1 hc]
      rfl
    · rw [mem_singleton.1 hc]
      rfl
    · exact isBlank_of_digit (hl.2 c hc)
  · rfl
  · intro rest hr
    have hlen (n m : Nat) : n + (m + 1 + 1) + 1 = n + m + 3 := by omega
    simpa [hlen] using scan_patch hb hl hr

/-! ### Lines of separable tokens -/

def spaced : List Token → List Char
  | [] => []
  | t :: ts => t.text.toList ++ ts.flatMap fun u => ' ' :: u.text.toList

theorem ends_flatMap (ts : List Token) : Ends (ts.flatMap fun u => ' ' :: u.text.toList) := by
  cases ts with
  | nil => exact .inl rfl
  | cons t ts => exact .inr ⟨_, rfl⟩

theorem tokenizeFrom_cut {kind : TokenKind} (hne : cs ≠ [])
    (hscan : scan (cs ++ rest) = some (kind, cs.length)) (done : List Token) :
    tokenizeFrom done (cs ++ rest) = tokenizeFrom (⟨kind, String.ofList cs⟩ :: done) rest := by
  obtain ⟨c, cs, rfl⟩ := exists_cons_of_ne_nil hne
  rw [cons_append] at hscan ⊢
  rw [tokenizeFrom, hscan]
  have htake : (c :: (cs ++ rest)).take (c :: cs).length = c :: cs := take_left
  have hdrop : (cs ++ rest).drop ((c :: cs).length - 1) = rest := drop_left
  simp only [htake, hdrop]

theorem tokenizeFrom_append (h : Separable t) (hr : Ends rest) (done : List Token) :
    tokenizeFrom done (t.text.toList ++ rest) = tokenizeFrom (t :: done) rest := by
  obtain ⟨c, cs, hstart, -⟩ := h.start
  have hne : t.text.toList ≠ [] := by
    rw [hstart]
    exact cons_ne_nil c cs
  rw [tokenizeFrom_cut hne (h.scan rest hr), String.ofList_toList]

theorem tokenizeFrom_space (h : Compact t) (rest : List Char) (done : List Token) :
    tokenizeFrom done (' ' :: (t.text.toList ++ rest)) =
      tokenizeFrom (⟨.space, " "⟩ :: done) (t.text.toList ++ rest) := by
  obtain ⟨c, cs, hstart, hblank⟩ := h.start
  have hc : ∀ d : Char, Text.isBlank d = true → c ≠ d := by
    rintro d hd rfl
    simp [hd] at hblank
  have hspace : scanSpace (' ' :: (t.text.toList ++ rest)) = 1 := by
    simp [scanSpace, hstart, hc ' ' rfl, hc '\t' rfl, hc '\r' rfl]
  have hscan : scan (' ' :: (t.text.toList ++ rest)) = some (.space, 1) := by
    simp [scan, scanners, hspace, scanComment, scanString, scanPatch, scanOp, symbolLength,
      scanAssign, scanFloat, scanInt, withMinus, scanUnsignedFloat, digitRun, scanNumbered,
      scanIdent]
  rw [tokenizeFrom, hscan]
  rfl

theorem tokenizeFrom_flatMap_append (h : ∀ t ∈ ts, Separable t) (us : List Token)
    (done : List Token) : ∃ done',
      tokenizeFrom done ((ts ++ us).flatMap fun u => ' ' :: u.text.toList) =
        tokenizeFrom done' (us.flatMap fun u => ' ' :: u.text.toList) ∧
      done'.reverse.filter isSignificant = done.reverse.filter isSignificant ++ ts := by
  induction ts generalizing done with
  | nil => exact ⟨done, rfl, (append_nil _).symm⟩
  | cons t ts ih =>
    obtain ⟨ht, hts⟩ := forall_mem_cons.1 h
    obtain ⟨done', hdone, hfilter⟩ := ih hts (t :: ⟨.space, " "⟩ :: done)
    refine ⟨done', ?_, ?_⟩
    · rw [cons_append, flatMap_cons, cons_append, tokenizeFrom_space ht.toCompact,
        tokenizeFrom_append ht (ends_flatMap _), hdone]
    · have hspace : isSignificant ⟨.space, " "⟩ = false := rfl
      simp [hfilter, ht.significant, hspace]

theorem tokenize_spaced (h : ∀ t ∈ ts, Separable t) :
    ∃ us, tokenize (spaced ts) = .ok us ∧ us.filter isSignificant = ts := by
  cases ts with
  | nil => exact ⟨[], by rw [spaced, tokenize, tokenizeFrom]; rfl, rfl⟩
  | cons t ts =>
    obtain ⟨ht, hts⟩ := forall_mem_cons.1 h
    obtain ⟨done, hrun, hfilter⟩ := tokenizeFrom_flatMap_append hts [] [t]
    rw [append_nil] at hrun
    refine ⟨done.reverse, ?_, by simp [hfilter, ht.significant]⟩
    rw [spaced, tokenize, tokenizeFrom_append ht (ends_flatMap ts), hrun, flatMap_nil, tokenizeFrom]

theorem newline_notMem_spaced (h : ∀ t ∈ ts, Compact t) : '\n' ∉ spaced ts := by
  cases ts with
  | nil => simp [spaced]
  | cons t ts =>
    simp only [spaced, mem_append, mem_flatMap, mem_cons, not_or, not_exists, not_and]
    exact ⟨(h t (by simp)).inLine, fun u hu => ⟨by decide, (h u (by simp [hu])).inLine⟩⟩

theorem start_spaced (ht : Separable t) (ts : List Token) :
    ∃ c cs, spaced (t :: ts) = c :: cs ∧ Text.isBlank c = false ∧ c ≠ '#' := by
  obtain ⟨c, cs, hstart, hblank⟩ := ht.start
  have hspaced : spaced (t :: ts) = c :: (cs ++ ts.flatMap fun u => ' ' :: u.text.toList) := by
    rw [spaced, hstart]
    rfl
  refine ⟨c, _, hspaced, hblank, ?_⟩
  rintro rfl
  -- a text with the comment sign in front is a comment, which is not significant
  have hscan := ht.scan [] (.inl rfl)
  have hsig := ht.significant
  simp only [hstart, append_nil, scan, scanners, scanComment, findSome?_cons,
    if_neg (Nat.succ_ne_zero _), Option.some.injEq, Prod.mk.injEq] at hscan
  simp [isSignificant, ← hscan.1] at hsig

theorem finish_spaced (hne : ts ≠ []) (h : ∀ t ∈ ts, Compact t) :
    ∃ cs c, spaced ts = cs ++ [c] ∧ Text.isBlank c = false := by
  cases ts with
  | nil => exact absurd rfl hne
  | cons t ts =>
    rcases eq_nil_or_concat ts with rfl | ⟨us, u, rfl⟩
    · obtain ⟨cs, c, hfinish, hblank⟩ := (h t (by simp)).finish
      exact ⟨cs, c, by simp [spaced, hfinish], hblank⟩
    · obtain ⟨cs, c, hfinish, hblank⟩ := (h u (by simp)).finish
      refine ⟨t.text.toList ++ (us.flatMap fun u => ' ' :: u.text.toList) ++ ' ' :: cs, c, ?_,
        hblank⟩
      simp [spaced, hfinish]

theorem trimBlanks_spaced (ht : Separable t) (h : ∀ u ∈ ts, Compact u) :
    Text.trimBlanks (spaced (t :: ts)) = spaced (t :: ts) := by
  obtain ⟨c, cs, hstart, hc, -⟩ := start_spaced ht ts
  obtain ⟨ds, d, hfinish, hd⟩ :=
    finish_spaced (cons_ne_nil t ts) (forall_mem_cons.2 ⟨ht.toCompact, h⟩)
  have hdrop : (spaced (t :: ts)).dropWhile Text.isBlank = spaced (t :: ts) := by
    rw [hstart, dropWhile_cons_of_neg (by simp [hc])]
  rw [Text.trimBlanks, hdrop, hfinish, reverse_append, reverse_singleton,
    singleton_append, dropWhile_cons_of_neg (by simp [hd])]
  simp

end Token

end Quadruple
