import Quadruple.Proofs.Source.Emission

/-!
# Emission of statements

The code of a statement is the code of its parts with markers and jumps between them and the
equations of its open blanks behind. The lemmas `stmtAt_…` say, construct by construct, that such
code places the statement; none of them mentions the emitter.

Main statement: `Stmt.emit_ready`.
-/

namespace Quadruple.Source

open List
open Emit
open Quadruple.Flow (Equations)
open Stmt (forwards shape)

/-- However the body goes on behind `seg`, and wherever the blanks of the `continue`s `cs` and of
the `break`s `bs` lead, the statement is placed at the start of `seg` and left behind it. -/
def StmtAt (body seg : List Quad) (cs bs : List Nat) (s : Trace) : Prop :=
  ∀ eqs whole post brk cont, whole = body ++ (seg ++ post) → Settles eqs whole →
    (∀ b ∈ bs, Lands eqs whole b brk) → (∀ b ∈ cs, Lands eqs whole b cont) →
    s.Placed eqs whole (seg ++ post) post brk cont

/-! ## The parts of a statement in its code -/

variable {seg : List Quad}

section Parts

variable {body seg1 seg2 : List Quad} {cs bs : List Nat} {s : Trace}

theorem stmtAt_seq {cs' bs' : List Nat} {t : Trace} (hs : StmtAt body seg1 cs bs s)
    (ht : StmtAt (body ++ seg1) seg2 cs' bs' t) :
    StmtAt body (seg1 ++ seg2) (cs ++ cs') (bs ++ bs') (.seq s t) := by
  intro eqs whole post brk cont hw hr hb hc
  obtain ⟨hb1, hb2⟩ := forall_mem_append.1 hb
  obtain ⟨hc1, hc2⟩ := forall_mem_append.1 hc
  refine ⟨seg2 ++ post, ?_, ?_⟩
  · simpa using hs eqs whole (seg2 ++ post) brk cont (by simp [hw]) hr hb1 hc1
  · exact ht eqs whole post brk cont (by simp [hw]) hr hb2 hc2

/-- The equations of a statement stand behind its code. They lead the blanks of each of its marks
behind the mark, and are passed at the end. -/
theorem stmtAt_settlements (xs : List (List Nat × Int))
    (h : ∀ eqs whole r post brk cont, whole = body ++ (seg ++ r) → Settles eqs whole →
      (∀ {bs m pre rest}, (bs, m) ∈ xs → Marks pre m [] → whole = pre ++ rest →
        ∀ b ∈ bs, Lands eqs whole b rest) → Goes eqs whole r post →
      (∀ b ∈ bs, Lands eqs whole b brk) → (∀ b ∈ cs, Lands eqs whole b cont) →
      s.Placed eqs whole (seg ++ r) post brk cont) :
    StmtAt body (seg ++ settlements xs) cs bs s := by
  intro eqs whole post brk cont hw hr hb hc
  rw [append_assoc] at hw ⊢
  refine h eqs whole _ post brk cont hw hr ?_ (goes_marks (fun q => keepsMark_settlements) post) hb hc
  intro bs m pre rest hmem hm hwhole b hb
  refine lands_patched hm hwhole hr (fun q hq => ?_) hb
  have hset := patches_subset_settlements hmem hq
  simp [hw, hset]

variable {ts fs : List Nat} {c : Cond (List Event)} {m1 m2 m3 : Int} {seg3 seg4 seg5 : List Quad}

section

variable (hc : CondAt body seg1 ts fs c) (hm1 : Marks (body ++ seg1 ++ seg2) m1 [])
  (hs : StmtAt (body ++ seg1 ++ seg2) seg3 cs bs s)
include hc hm1 hs

theorem stmtAt_ifThen (hseg4 : ∀ q ∈ seg4, keepsMark q = true)
    (hm2 : Marks (body ++ seg1 ++ seg2 ++ seg3 ++ seg4) m2 []) :
    StmtAt body (seg1 ++ seg2 ++ seg3 ++ seg4 ++ settlements [(ts, m1), (fs, m2)]) cs bs
      (.ifThen c s) := by
  refine stmtAt_settlements _ fun eqs whole r4 post brk cont hw hr hland hout hb hcn => ?_
  obtain ⟨r3, hr3⟩ : ∃ r, r = seg3 ++ (seg4 ++ r4) := ⟨_, rfl⟩
  refine ⟨r3, ?_, ?_⟩
  · have hplaced := hc eqs whole (seg2 ++ r3) r3 post (by simp [hw, hr3]) hr
      (hland (by simp) hm1 (by simp [hw, hr3]))
      (fun b hb => (hland (by simp) hm2 (by simp [hw]) b hb).goes hout)
    simpa [hr3] using hplaced
  · have hplaced := hs eqs whole (seg4 ++ r4) brk cont (by simp [hw]) hr hb hcn
    rw [← hr3] at hplaced
    exact hplaced.goes ((goes_marks hseg4 _).trans hout) (.refl brk) (.refl cont)

theorem stmtAt_ifElse {seg6 : List Quad} {cs' bs' : List Nat} {t : Trace} {n : Nat}
    (hm2 : Marks (body ++ seg1 ++ seg2 ++ seg3 ++ [.jump (.blank n)] ++ seg4) m2 [])
    (ht : StmtAt (body ++ seg1 ++ seg2 ++ seg3 ++ [.jump (.blank n)] ++ seg4) seg5 cs' bs' t)
    (hseg6 : ∀ q ∈ seg6, keepsMark q = true)
    (hm3 : Marks (body ++ seg1 ++ seg2 ++ seg3 ++ [.jump (.blank n)] ++ seg4 ++ seg5 ++ seg6) m3 []) :
     StmtAt body (seg1 ++ seg2 ++ seg3 ++ [.jump (.blank n)] ++ seg4 ++ seg5 ++ seg6 ++
      settlements [(ts, m1), (fs, m2), ([n], m3)]) (cs ++ cs') (bs ++ bs') (.ifElse c s t) := by
  refine stmtAt_settlements _ fun eqs whole r6 post brk cont hw hr hland hout hb hcn => ?_
  obtain ⟨hb1, hb2⟩ := forall_mem_append.1 hb
  obtain ⟨hc1, hc2⟩ := forall_mem_append.1 hcn
  have hn : Lands eqs whole n post :=
    (hland (by simp) hm3 (by simp [hw]) n (mem_singleton_self n)).goes hout
  obtain ⟨r5, hr5⟩ : ∃ r, r = seg5 ++ (seg6 ++ r6) := ⟨_, rfl⟩
  obtain ⟨r3, hr3⟩ : ∃ r, r = seg3 ++ (.jump (.blank n) :: (seg4 ++ r5)) := ⟨_, rfl⟩
  refine ⟨r3, r5, ?_, ?_, ?_⟩
  · have hplaced := hc eqs whole (seg2 ++ r3) r3 r5 (by simp [hw, hr3, hr5]) hr
      (hland (by simp) hm1 (by simp [hw, hr3, hr5])) (hland (by simp) hm2 (by simp [hw, hr5]))
    simpa [hr3, hr5] using hplaced
  · have hplaced := hs eqs whole (.jump (.blank n) :: (seg4 ++ r5)) brk cont (by simp [hw, hr5]) hr
      hb1 hc1
    rw [← hr3] at hplaced
    exact hplaced.goes (hn.jump _) (.refl brk) (.refl cont)
  · have hplaced := ht eqs whole (seg6 ++ r6) brk cont (by simp [hw]) hr hb2 hc2
    rw [← hr5] at hplaced
    exact hplaced.goes ((goes_marks hseg6 _).trans hout) (.refl brk) (.refl cont)

end

theorem stmtAt_while {n : Nat} (hseg1 : ∀ q ∈ seg1, keepsMark q = true)
    (hm1 : Marks (body ++ seg1) m1 []) (hc : CondAt (body ++ seg1) seg2 ts fs c)
    (hm2 : Marks (body ++ seg1 ++ seg2 ++ seg3) m2 [])
    (hs : StmtAt (body ++ seg1 ++ seg2 ++ seg3) seg4 cs bs s)
    (hm3 : Marks (body ++ seg1 ++ seg2 ++ seg3 ++ seg4 ++ [.jump (.blank n)] ++ seg5) m3 []) :
    StmtAt body (seg1 ++ seg2 ++ seg3 ++ seg4 ++ [.jump (.blank n)] ++ seg5 ++
      settlements [(ts, m2), (fs, m3), ([n], m1), (cs, m1), (bs, m3)]) [] [] (.while c s) := by
  refine stmtAt_settlements _ fun eqs whole r5 post brk cont hw hr hland hout _ _ => ?_
  obtain ⟨r4, hr4⟩ : ∃ r, r = seg4 ++ (.jump (.blank n) :: (seg5 ++ r5)) := ⟨_, rfl⟩
  obtain ⟨r2, hr2⟩ : ∃ r, r = seg2 ++ (seg3 ++ r4) := ⟨_, rfl⟩
  refine ⟨r2, r4, ?_, ?_, ?_⟩
  · have hgo : Goes eqs whole (seg1 ++ r2) r2 := goes_marks hseg1 r2
    simpa [hr2, hr4] using hgo
  · have hplaced := hc eqs whole (seg3 ++ r4) r4 post (by simp [hw, hr4]) hr
      (hland (by simp) hm2 (by simp [hw, hr4]))
      (fun b hb => (hland (by simp) hm3 (by simp [hw]) b hb).goes hout)
    rwa [← hr2] at hplaced
  · have hplaced := hs eqs whole (.jump (.blank n) :: (seg5 ++ r5)) post r2 (by simp [hw]) hr
      (fun b hb => (hland (by simp) hm3 (by simp [hw]) b hb).goes hout)
      (hland (by simp) hm1 (by simp [hw, hr2, hr4]))
    rw [← hr4] at hplaced
    have hn : Lands eqs whole n r2 :=
      hland (by simp) hm1 (by simp [hw, hr2, hr4]) n (mem_singleton_self n)
    exact hplaced.goes (hn.jump _) (.refl _) (.refl _)

theorem stmtAt_doWhile (hseg1 : ∀ q ∈ seg1, keepsMark q = true) (hm1 : Marks (body ++ seg1) m1 [])
    (hs : StmtAt (body ++ seg1) seg2 cs bs s) (hseg3 : ∀ q ∈ seg3, keepsMark q = true)
    (hm2 : Marks (body ++ seg1 ++ seg2 ++ seg3) m2 [])
    (hc : CondAt (body ++ seg1 ++ seg2 ++ seg3) seg4 ts fs c)
    (hm3 : Marks (body ++ seg1 ++ seg2 ++ seg3 ++ seg4 ++ seg5) m3 []) :
    StmtAt body (seg1 ++ seg2 ++ seg3 ++ seg4 ++ seg5 ++
      settlements [(ts, m1), (fs, m3), (cs, m2), (bs, m3)]) [] [] (.doWhile s c) := by
  refine stmtAt_settlements _ fun eqs whole r5 post brk cont hw hr hland hout _ _ => ?_
  obtain ⟨r4, hr4⟩ : ∃ r, r = seg4 ++ (seg5 ++ r5) := ⟨_, rfl⟩
  obtain ⟨r2, hr2⟩ : ∃ r, r = seg2 ++ (seg3 ++ r4) := ⟨_, rfl⟩
  refine ⟨r2, r4, ?_, ?_, ?_⟩
  · have hgo : Goes eqs whole (seg1 ++ r2) r2 := goes_marks hseg1 r2
    simpa [hr2, hr4] using hgo
  · have hplaced := hs eqs whole (seg3 ++ r4) post r4 (by simp [hw, hr4]) hr
      (fun b hb => (hland (by simp) hm3 (by simp [hw]) b hb).goes hout)
      (hland (by simp) hm2 (by simp [hw, hr4]))
    rw [← hr2] at hplaced
    exact hplaced.goes (goes_marks hseg3 r4) (.refl _) (.refl _)
  · have hplaced := hc eqs whole (seg5 ++ r5) r2 post (by simp [hw]) hr
      (hland (by simp) hm1 (by simp [hw, hr2, hr4]))
      (fun b hb => (hland (by simp) hm3 (by simp [hw]) b hb).goes hout)
    rwa [← hr4] at hplaced

theorem stmtAt_for {seg0 seg6 seg7 : List Quad} {m4 : Int} {n1 n2 : Nat} {init step : List Event}
    (hinit : ∀ eqs body r, Carries eqs body (seg0 ++ r) init r)
    (hseg1 : ∀ q ∈ seg1, keepsMark q = true) (hm1 : Marks (body ++ seg0 ++ seg1) m1 [])
    (hc : CondAt (body ++ seg0 ++ seg1) seg2 ts fs c)
    (hm2 : Marks (body ++ seg0 ++ seg1 ++ seg2 ++ seg3) m2 [])
    (hstep : ∀ eqs body r, Carries eqs body (seg4 ++ r) step r)
    (hm3 : Marks (body ++ seg0 ++ seg1 ++ seg2 ++ seg3 ++ seg4 ++ [.jump (.blank n1)] ++ seg5) m3 [])
    (hs : StmtAt (body ++ seg0 ++ seg1 ++ seg2 ++ seg3 ++ seg4 ++ [.jump (.blank n1)] ++ seg5) seg6
      cs bs s)
    (hm4 : Marks (body ++ seg0 ++ seg1 ++ seg2 ++ seg3 ++ seg4 ++ [.jump (.blank n1)] ++ seg5 ++ seg6
      ++ [.jump (.blank n2)] ++ seg7) m4 []) :
    StmtAt body (seg0 ++ seg1 ++ seg2 ++ seg3 ++ seg4 ++ [.jump (.blank n1)] ++ seg5 ++ seg6 ++
      [.jump (.blank n2)] ++ seg7 ++
      settlements [(ts, m3), (fs, m4), ([n1], m1), ([n2], m2), (cs, m2), (bs, m4)]) [] []
      (.for init c step s) := by
  refine stmtAt_settlements _ fun eqs whole r7 post brk cont hw hr hland hout _ _ => ?_
  -- the rest of the body from the loop's code on: the body of the loop, its step, its condition
  obtain ⟨r6, hr6⟩ : ∃ r, r = seg6 ++ (.jump (.blank n2) :: (seg7 ++ r7)) := ⟨_, rfl⟩
  obtain ⟨r4, hr4⟩ : ∃ r, r = seg4 ++ (.jump (.blank n1) :: (seg5 ++ r6)) := ⟨_, rfl⟩
  obtain ⟨r2, hr2⟩ : ∃ r, r = seg2 ++ (seg3 ++ r4) := ⟨_, rfl⟩
  refine ⟨r2, r6, r4, ?_, ?_, ?_, ?_⟩
  · have hgo := (hinit eqs whole (seg1 ++ r2)).goes (goes_marks hseg1 r2)
    simpa [hr2, hr4, hr6] using hgo
  · have hplaced := hc eqs whole (seg3 ++ r4) r6 post (by simp [hw, hr4, hr6]) hr
      (hland (by simp) hm3 (by simp [hw, hr6]))
      (fun b hb => (hland (by simp) hm4 (by simp [hw]) b hb).goes hout)
    rwa [← hr2] at hplaced
  · have hplaced := hs eqs whole (.jump (.blank n2) :: (seg7 ++ r7)) post r4 (by simp [hw]) hr
      (fun b hb => (hland (by simp) hm4 (by simp [hw]) b hb).goes hout)
      (hland (by simp) hm2 (by simp [hw, hr4, hr6]))
    rw [← hr6] at hplaced
    have hn : Lands eqs whole n2 r4 :=
      hland (by simp) hm2 (by simp [hw, hr4, hr6]) n2 (mem_singleton_self n2)
    exact hplaced.goes (hn.jump _) (.refl _) (.refl _)
  · have hn : Lands eqs whole n1 r2 :=
      hland (by simp) hm1 (by simp [hw, hr2, hr4, hr6]) n1 (mem_singleton_self n1)
    have hgo := (hstep eqs whole (.jump (.blank n1) :: (seg5 ++ r6))).goes (hn.jump _)
    rwa [← hr4] at hgo

end Parts

/-! ## Limits -/

/-- The jumps to labels that were not declared yet stay within the limits. -/
def WithinLimits (settings : Settings) (forwards : List String) : Prop :=
  ∀ name ∈ forwards, (forwards.dedup.length : Int) ≤ settings.maxGotoLabels ∧
    (forwards.count name : Int) ≤ settings.maxBlanksPerLabel

theorem WithinLimits.left {settings : Settings} {xs ys : List String}
    (h : WithinLimits settings (xs ++ ys)) :
    WithinLimits settings xs := by
  intro name hm
  obtain ⟨hlen, hcount⟩ := h name (mem_append_left _ hm)
  have hsub : xs.dedup.length ≤ (xs ++ ys).dedup.length := by
    refine ((nodup_dedup xs).subperm fun x hx => ?_).length_le
    exact mem_dedup.2 (mem_append_left _ (mem_dedup.1 hx))
  rw [count_append] at hcount
  omega

structure Permits (o : Outline) (s : Code) : Prop where
  enclosed : s.Enclosed (o.loops ≠ [])
  depth : (o.loops.length + s.depth : Int) ≤ o.settings.maxLoopDepth
  fits : WithinLimits o.settings (o.forwards ++ s.forwards o.declared)
  labels : (o.declared ++ s.labels).Nodup

/-- The loops with more `continue`s and `break`s of the innermost one. -/
def addExits (cs bs : List Nat) : List (List Nat × List Nat) → List (List Nat × List Nat)
  | [] => []
  | (c, b) :: loops => (c ++ cs, b ++ bs) :: loops

@[simp]
theorem addExits_nil (loops : List (List Nat × List Nat)) : addExits [] [] loops = loops := by
  cases loops <;> simp [addExits]

@[simp]
theorem addExits_cons (cs bs c b : List Nat) (loops : List (List Nat × List Nat)) :
    addExits cs bs ((c, b) :: loops) = (c ++ cs, b ++ bs) :: loops := rfl

@[simp]
theorem addExits_addExits (cs bs cs' bs' : List Nat) (loops : List (List Nat × List Nat)) :
    addExits cs' bs' (addExits cs bs loops) = addExits (cs ++ cs') (bs ++ bs') loops := by
  cases loops <;> simp [addExits]

@[simp]
theorem addExits_length (cs bs : List Nat) (loops : List (List Nat × List Nat)) :
    (addExits cs bs loops).length = loops.length := by
  cases loops <;> rfl

@[simp]
theorem addExits_eq_nil {cs bs : List Nat} {loops : List (List Nat × List Nat)} :
    addExits cs bs loops = [] ↔ loops = [] := by
  cases loops <;> simp [addExits]

def after (o : Outline) (s : Code) (seg : List Quad) (cs bs : List Nat) : Outline :=
  { o with
    body := o.body ++ seg
    loops := addExits cs bs o.loops
    forwards := o.forwards ++ s.forwards o.declared
    declared := o.declared ++ s.labels }

theorem after_simple {o : Outline} {s : Code}
    (hf : s.forwards o.declared = []) (hl : s.labels = []) : after o s seg [] [] = o.append seg := by
  simp [after, hf, hl, Outline.append]

variable {a b : Code}

namespace Permits

variable {o o' : Outline} {c : Cond Test}

theorem congr (h : Permits o a) (hset : o'.settings = o.settings)
    (hloops : o'.loops.length = o.loops.length) (hf : o'.forwards = o.forwards)
    (hd : o'.declared = o.declared) : Permits o' a where
  enclosed := by
    have hnil : (o'.loops ≠ []) = (o.loops ≠ []) := by
      rw [ne_eq, ne_eq, ← length_eq_zero_iff, hloops, length_eq_zero_iff]
    rw [hnil]
    exact h.enclosed
  depth := by
    rw [hset, hloops]
    exact h.depth
  fits := by
    rw [hset, hf, hd]
    exact h.fits
  labels := by
    rw [hd]
    exact h.labels

theorem seq_left (h : Permits o (.seq a b)) : Permits o a where
  enclosed := h.enclosed.1
  depth := by
    have := h.depth
    simp only [Stmt.depth] at this
    omega
  fits := by
    have hf := h.fits
    rw [forwards, ← append_assoc] at hf
    exact hf.left
  labels := by
    have hl := h.labels
    rw [Stmt.labels, ← append_assoc] at hl
    exact (nodup_append.1 hl).1

theorem seq_right (h : Permits o (.seq a b)) (seg : List Quad) (cs bs : List Nat) :
    Permits (after o a seg cs bs) b where
  enclosed := by simpa [after] using h.enclosed.2
  depth := by
    have := h.depth
    simp only [Stmt.depth] at this
    simp only [after, addExits_length]
    omega
  fits := by simpa [after, forwards] using h.fits
  labels := by simpa [after, Stmt.labels] using h.labels

theorem room (h : Permits o (.while c a)) : (o.loops.length : Int) < o.settings.maxLoopDepth := by
  have := h.depth
  simp only [Stmt.depth] at this
  omega

theorem loop (h : Permits o (.while c a)) :
    Permits { o with loops := ([], []) :: o.loops } a where
  enclosed := by simpa [Stmt.Enclosed] using h.enclosed
  depth := by
    have := h.depth
    simp only [Stmt.depth] at this
    simp only [length_cons]
    omega
  fits := h.fits
  labels := h.labels

end Permits

/-! ## Statements -/

/-- Wherever the statement is admitted, its emission succeeds and places it. Outside of loops it
has no open `continue` and `break`. -/
def Emits (c : Code) : Prop :=
  ∀ {o : Outline} {s : State}, Ready o s → Permits o c → Yields c.emit s fun t s' =>
    ∃ seg cs bs, Ready (after o c seg cs bs) s' ∧ StmtAt o.body seg cs bs t ∧ t.shape = c.shape ∧
      (o.loops = [] → cs = [] ∧ bs = [])

theorem emits_act (as : List Action) : Emits (.act as) := by
  intro o s h _
  simp only [Stmt.emit, yields_bind, yields_pure]
  refine (emitActions_ready as h).mono ?_
  rintro es s' ⟨seg, h', hcarry⟩
  refine ⟨seg, [], [], ?_, fun eqs whole post _ _ _ _ _ _ => hcarry eqs whole post, rfl,
    fun _ => ⟨rfl, rfl⟩⟩
  rwa [after_simple rfl rfl]

theorem emits_line (n : Int) : Emits (.line n) := by
  intro o s h _
  simp only [Stmt.emit, yields_bind, yields_pure]
  refine (h.beginStmt n).mono fun _ s' h' => ⟨[.stmtBegin n], [], [], ?_, ?_, rfl,
    fun _ => ⟨rfl, rfl⟩⟩
  · rwa [after_simple rfl rfl]
  · exact fun eqs whole post _ _ _ _ _ _ => goes_marks (by simp [keepsMark]) post

theorem emits_ret (v : Option Expr) : Emits (.ret v) := by
  intro o s h _
  have hret : Yields (emitReturn v) s fun _ s' => ∃ qs x tag, (∀ q ∈ qs, q.isPlain = true) ∧
      Ready (o.append (qs ++ [.ret x tag])) s' := by
    cases v with
    | none => exact h.returnStmt none
    | some e =>
      refine yields_bind.2 ((e.plain.ready h).mono ?_)
      rintro y s1 ⟨qs, hqs, -, h1⟩
      refine (h1.returnStmt (some y)).mono ?_
      rintro - s2 ⟨rs, x, tag, hrs, h2⟩
      refine ⟨qs ++ rs, x, tag, forall_mem_append.2 ⟨hqs, hrs⟩, ?_⟩
      simpa [Outline.append] using h2
  simp only [Stmt.emit, yields_bind, yields_recorded, yields_pure]
  refine hret.mono ?_
  rintro - s' ⟨qs, x, tag, hqs, h'⟩
  refine ⟨qs ++ [.ret x tag], [], [], ?_, ?_, rfl, fun _ => ⟨rfl, rfl⟩⟩
  · rwa [after_simple rfl rfl]
  · intro eqs whole post brk cont _ _ _ _ os
    rw [drop_code h h' rfl rfl, flatMap_append, append_assoc]
    exact ⟨_, os, _, _, rfl, carries_plain hqs _ os, .ret⟩

theorem emits_break : Emits .break := by
  intro o s h ha
  obtain ⟨⟨cs, bs⟩, loops, hl⟩ := exists_cons_of_ne_nil ha.enclosed
  have h0 : Ready { o with loops := (cs, bs) :: loops } s := hl ▸ h
  simp only [Stmt.emit, yields_bind, yields_pure]
  refine h0.breakStmt.mono ?_
  rintro - s' ⟨b, h'⟩
  refine ⟨[.jump (.blank b)], [], [b], ?_, ?_, rfl, fun hn => absurd hn ha.enclosed⟩
  · simpa [after, hl, addExits, forwards, Stmt.labels, Outline.append] using h'
  · exact fun eqs whole post _ _ _ _ hb _ => (hb b (mem_singleton_self b)).jump post

theorem emits_continue : Emits .continue := by
  intro o s h ha
  obtain ⟨⟨cs, bs⟩, loops, hl⟩ := exists_cons_of_ne_nil ha.enclosed
  have h0 : Ready { o with loops := (cs, bs) :: loops } s := hl ▸ h
  simp only [Stmt.emit, yields_bind, yields_pure]
  refine h0.continueStmt.mono ?_
  rintro - s' ⟨b, h'⟩
  refine ⟨[.jump (.blank b)], [b], [], ?_, ?_, rfl, fun hn => absurd hn ha.enclosed⟩
  · simpa [after, hl, addExits, forwards, Stmt.labels, Outline.append] using h'
  · exact fun eqs whole post _ _ _ _ _ hc => (hc b (mem_singleton_self b)).jump post

theorem emits_goto (name : String) : Emits (.goto name) := by
  intro o s h ha
  simp only [Stmt.emit, yields_bind, yields_pure]
  by_cases hd : name ∈ o.declared
  · refine (h.gotoDeclared hd).mono ?_
    rintro - s' ⟨t, h'⟩
    refine ⟨[.jump t], [], [], ?_, fun _ _ _ _ _ _ _ _ _ => trivial, rfl, fun _ => ⟨rfl, rfl⟩⟩
    rwa [after_simple (by simp [forwards, hd]) rfl]
  · have hf := ha.fits
    simp only [forwards, hd, if_false] at hf
    obtain ⟨hlabels, hjumps⟩ := hf name (by simp)
    refine (h.gotoForward hd hlabels hjumps).mono ?_
    rintro - s' ⟨b, h'⟩
    refine ⟨[.jump (.blank b)], [], [], ?_, fun _ _ _ _ _ _ _ _ _ => trivial, rfl,
      fun _ => ⟨rfl, rfl⟩⟩
    simpa [after, forwards, hd, Stmt.labels, Outline.append] using h'

theorem emits_label (name : String) : Emits (.label name) := by
  intro o s h ha
  have hd : name ∉ o.declared := fun hm =>
    (nodup_append.1 ha.labels).2.2 name hm name (by simp [Stmt.labels]) rfl
  simp only [Stmt.emit, yields_bind, yields_pure]
  refine (h.labelStmt hd).mono ?_
  rintro - s' ⟨seg, -, h'⟩
  refine ⟨seg, [], [], ?_, fun _ _ _ _ _ _ _ _ _ => trivial, rfl, fun _ => ⟨rfl, rfl⟩⟩
  simpa [after, forwards, Stmt.labels, Outline.append] using h'

theorem emits_seq (iha : Emits a) (ihb : Emits b) : Emits (.seq a b) := by
  intro o s h ha
  simp only [Stmt.emit, yields_bind, yields_pure]
  refine (iha h ha.seq_left).mono ?_
  rintro t s1 ⟨seg1, cs, bs, h1, hs, hshape, hout⟩
  refine (ihb h1 (ha.seq_right seg1 cs bs)).mono ?_
  rintro u s2 ⟨seg2, cs', bs', h2, ht, hshape', hout'⟩
  refine ⟨seg1 ++ seg2, cs ++ cs', bs ++ bs', ?_, stmtAt_seq hs ht, ?_, ?_⟩
  · simpa [after, forwards, Stmt.labels] using h2
  · rw [shape, hshape, hshape']
    rfl
  · intro hn
    obtain ⟨rfl, rfl⟩ := hout hn
    obtain ⟨rfl, rfl⟩ := hout' (addExits_eq_nil.2 hn)
    exact ⟨rfl, rfl⟩

theorem label_mem {o o' : Outline} {pre : List Quad} {n : Int} {cs bs : List Nat}
    (ho : o' = after o a seg cs bs) (hm : Marks pre n []) (h : pre <+: o.body ++ seg) :
    Quad.label n ∈ o'.body :=
  ho ▸ h.subset hm.mem

theorem emits_ifThen (c : Cond Test) (ih : Emits a) : Emits (.ifThen c a) := by
  intro o s h ha
  simp only [Stmt.emit, ifStmt, yields_bind, yields_pure]
  refine (c.emit_ready h).mono ?_
  rintro ⟨v, c'⟩ s1 ⟨seg1, ts, fs, h1, hc, hcs⟩
  refine h1.marker.mono ?_
  rintro m1 s2 ⟨seg2, -, h2, hm1⟩
  have ha1 : Permits o a := ⟨ha.enclosed, ha.depth, ha.fits, ha.labels⟩
  refine (ih h2 (ha1.congr rfl rfl rfl rfl)).mono ?_
  rintro t s3 ⟨seg3, cs, bs, h3, hs, hshape, hout⟩
  refine h3.marker.mono ?_
  rintro m2 s4 ⟨seg4, hseg4, h4, hm2⟩
  -- all the code is there; what is left are the equations
  obtain ⟨o4, ho4⟩ : ∃ o4, o4 = after o a (seg1 ++ seg2 ++ seg3 ++ seg4) cs bs := ⟨_, rfl⟩
  have h4' : Ready { o4 with held := (v.onTrue, ts) :: (v.onFalse, fs) :: o4.held } s4 := by
    simpa [ho4, after, Outline.append] using h4
  have hl1 := label_mem ho4 hm1 (by simp [Outline.append])
  have hl2 := label_mem ho4 hm2 (by simp [after, Outline.append])
  have hat := stmtAt_ifThen hc hm1 hs hseg4 hm2
  refine Ready.resolveAll [(v.onTrue, ts, m1), (v.onFalse, fs, m2)] h4' (by simp [hl1, hl2])
    fun s5 h5 => ⟨_, cs, bs, ?_, hat, ?_, hout⟩
  · rw [ho4] at h5
    simpa [after, forwards, Stmt.labels, Outline.append] using h5
  · rw [shape, hcs, hshape]
    rfl

theorem emits_ifElse (c : Cond Test) (iha : Emits a) (ihb : Emits b) : Emits (.ifElse c a b) := by
  intro o s h ha
  have ha1 : Permits o (.seq a b) := ⟨ha.enclosed, ha.depth, ha.fits, ha.labels⟩
  simp only [Stmt.emit, ifElseStmt, yields_bind, yields_pure]
  refine (c.emit_ready h).mono ?_
  rintro ⟨v, c'⟩ s1 ⟨seg1, ts, fs, h1, hc, hcs⟩
  refine h1.marker.mono ?_
  rintro m1 s2 ⟨seg2, -, h2, hm1⟩
  refine (iha h2 (ha1.seq_left.congr rfl rfl rfl rfl)).mono ?_
  rintro t s3 ⟨seg3, cs, bs, h3, hs, hshape, hout⟩
  refine h3.jumpAhead.mono ?_
  rintro n s4 ⟨k, h4⟩
  refine h4.marker.mono ?_
  rintro m2 s5 ⟨seg4, -, h5, hm2⟩
  refine (ihb h5 ((ha1.seq_right [] cs bs).congr rfl rfl rfl rfl)).mono ?_
  rintro u s6 ⟨seg5, cs', bs', h6, ht, hshape', hout'⟩
  refine h6.marker.mono ?_
  rintro m3 s7 ⟨seg6, hseg6, h7, hm3⟩
  obtain ⟨o7, ho7⟩ : ∃ o7, o7 = after o (.seq a b) (seg1 ++ seg2 ++ seg3 ++ [.jump (.blank k)] ++ seg4
    ++ seg5 ++ seg6) (cs ++ cs') (bs ++ bs') := ⟨_, rfl⟩
  have h7' : Ready { o7 with held := [(v.onTrue, ts), (v.onFalse, fs), (n, [k])] ++ o7.held } s7 := by
    refine h7.reorder_of_eq ?_ (perm_append_comm_assoc [(n, [k])] [_, _] o7.held)
    simp [ho7, after, Outline.append, forwards, Stmt.labels]
  have hl1 := label_mem ho7 hm1 (by simp [Outline.append])
  have hl2 := label_mem ho7 hm2 (by simp [after, Outline.append])
  have hl3 := label_mem ho7 hm3 (by simp [after, Outline.append])
  have hat := stmtAt_ifElse hc hm1 hs hm2 ht hseg6 hm3
  refine Ready.resolveAll [(v.onTrue, ts, m1), (v.onFalse, fs, m2), (n, [k], m3)] h7'
    (by simp [hl1, hl2, hl3]) fun s8 h8 => ⟨_, cs ++ cs', bs ++ bs', ?_, hat, ?_, ?_⟩
  · rw [ho7] at h8
    simpa [after, forwards, Stmt.labels, Outline.append] using h8
  · rw [shape, hcs, hshape, hshape']
    rfl
  · intro hn
    obtain ⟨rfl, rfl⟩ := hout hn
    obtain ⟨rfl, rfl⟩ := hout' (addExits_eq_nil.2 hn)
    exact ⟨rfl, rfl⟩

theorem emits_while (c : Cond Test) (ih : Emits a) : Emits (.while c a) := by
  intro o s h ha
  simp only [Stmt.emit, whileStmt, yields_bind, yields_pure]
  refine (h.openLoop ha.room).mono fun _ s0 h0 => ?_
  refine h0.marker.mono ?_
  rintro m1 s1 ⟨seg1, hseg1, h1, hm1⟩
  refine (c.emit_ready h1).mono ?_
  rintro ⟨v, c'⟩ s2 ⟨seg2, ts, fs, h2, hc, hcs⟩
  refine h2.marker.mono ?_
  rintro m2 s3 ⟨seg3, -, h3, hm2⟩
  refine (ih h3 (ha.loop.congr rfl rfl rfl rfl)).mono ?_
  rintro t s4 ⟨seg4, cs, bs, h4, hs, hshape, -⟩
  refine h4.jumpAhead.mono ?_
  rintro n s5 ⟨k, h5⟩
  refine h5.marker.mono ?_
  rintro m3 s6 ⟨seg5, -, h6, hm3⟩
  obtain ⟨o6, ho6⟩ : ∃ o6, o6 = after o a (seg1 ++ seg2 ++ seg3 ++ seg4 ++ [.jump (.blank k)] ++
    seg5) [] [] := ⟨_, rfl⟩
  have h6' : Ready { o6 with
      loops := (cs, bs) :: o6.loops
      held := [(v.onTrue, ts), (v.onFalse, fs), (n, [k])] ++ o6.held } s6 := by
    refine h6.reorder_of_eq (o := { o6 with loops := (cs, bs) :: o6.loops }) ?_
      (perm_append_comm_assoc [(n, [k])] [_, _] o6.held)
    simp [ho6, after, Outline.append]
  have hl1 := label_mem ho6 hm1 (by simp)
  have hl2 := label_mem ho6 hm2 (by simp [Outline.append])
  have hl3 := label_mem ho6 hm3 (by simp [after, Outline.append])
  have hat := stmtAt_while hseg1 hm1 hc hm2 hs hm3
  refine Ready.resolveAll (o := { o6 with loops := (cs, bs) :: o6.loops })
    [(v.onTrue, ts, m2), (v.onFalse, fs, m3), (n, [k], m1)] h6' (by simp [hl1, hl2, hl3])
    fun s7 h7 => ?_
  refine (h7.closeLoop (o := o6.append _) (mem_append_left _ hl1)
    (mem_append_left _ hl3)).mono fun _ s8 h8 => ⟨_, [], [], ?_, hat, ?_, fun _ => ⟨rfl, rfl⟩⟩
  · rw [ho6] at h8
    simpa [after, settlements, forwards, Stmt.labels, Outline.append] using h8
  · rw [shape, hcs, hshape]
    rfl

theorem emits_doWhile (c : Cond Test) (ih : Emits a) : Emits (.doWhile a c) := by
  intro o s h ha
  have ha1 : Permits o (.while c a) := ⟨ha.enclosed, ha.depth, ha.fits, ha.labels⟩
  simp only [Stmt.emit, doStmt, yields_bind, yields_pure]
  refine (h.openLoop ha1.room).mono fun _ s0 h0 => ?_
  refine h0.marker.mono ?_
  rintro m1 s1 ⟨seg1, hseg1, h1, hm1⟩
  refine (ih h1 (ha1.loop.congr rfl rfl rfl rfl)).mono ?_
  rintro t s2 ⟨seg2, cs, bs, h2, hs, hshape, -⟩
  refine h2.marker.mono ?_
  rintro m2 s3 ⟨seg3, hseg3, h3, hm2⟩
  refine (c.emit_ready h3).mono ?_
  rintro ⟨v, c'⟩ s4 ⟨seg4, ts, fs, h4, hc, hcs⟩
  refine h4.marker.mono ?_
  rintro m3 s5 ⟨seg5, -, h5, hm3⟩
  obtain ⟨o5, ho5⟩ : ∃ o5, o5 = after o a (seg1 ++ seg2 ++ seg3 ++ seg4 ++ seg5) [] [] := ⟨_, rfl⟩
  have h5' : Ready { o5 with
      loops := (cs, bs) :: o5.loops
      held := [(v.onTrue, ts), (v.onFalse, fs)] ++ o5.held } s5 := by
    simpa [ho5, after, Outline.append] using h5
  have hl1 := label_mem ho5 hm1 (by simp)
  have hl2 := label_mem ho5 hm2 (by simp [after, Outline.append])
  have hl3 := label_mem ho5 hm3 (by simp [after, Outline.append])
  have hat := stmtAt_doWhile hseg1 hm1 hs hseg3 hm2 hc hm3
  refine Ready.resolveAll (o := { o5 with loops := (cs, bs) :: o5.loops })
    [(v.onTrue, ts, m1), (v.onFalse, fs, m3)] h5' (by simp [hl1, hl3]) fun s6 h6 => ?_
  refine (h6.closeLoop (o := o5.append _) (mem_append_left _ hl2)
    (mem_append_left _ hl3)).mono fun _ s7 h7 => ⟨_, [], [], ?_, hat, ?_, fun _ => ⟨rfl, rfl⟩⟩
  · rw [ho5] at h7
    simpa [after, settlements, forwards, Stmt.labels, Outline.append] using h7
  · rw [shape, hcs, hshape]
    rfl

theorem emits_for (init step : List Action) (c : Cond Test) (ih : Emits a) :
    Emits (.for init c step a) := by
  intro o s h ha
  have ha1 : Permits o (.while c a) := ⟨ha.enclosed, ha.depth, ha.fits, ha.labels⟩
  simp only [Stmt.emit, forStmt, yields_bind, yields_pure]
  refine (h.openLoop ha1.room).mono fun _ s0 h0 => ?_
  refine (emitActions_ready init h0).mono ?_
  rintro es0 s1 ⟨seg0, h1, hinit⟩
  refine h1.marker.mono ?_
  rintro m1 s2 ⟨seg1, hseg1, h2, hm1⟩
  refine (c.emit_ready h2).mono ?_
  rintro ⟨v, c'⟩ s3 ⟨seg2, ts, fs, h3, hc, hcs⟩
  refine h3.marker.mono ?_
  rintro m2 s4 ⟨seg3, -, h4, hm2⟩
  refine (emitActions_ready step h4).mono ?_
  rintro es1 s5 ⟨seg4, h5, hstep⟩
  refine h5.jumpAhead.mono ?_
  rintro n1 s6 ⟨k1, h6⟩
  refine h6.marker.mono ?_
  rintro m3 s7 ⟨seg5, -, h7, hm3⟩
  refine (ih h7 (ha1.loop.congr rfl rfl rfl rfl)).mono ?_
  rintro t s8 ⟨seg6, cs, bs, h8, hs, hshape, -⟩
  refine h8.jumpAhead.mono ?_
  rintro n2 s9 ⟨k2, h9⟩
  refine h9.marker.mono ?_
  rintro m4 s10 ⟨seg7, -, h10, hm4⟩
  obtain ⟨o1, ho1⟩ : ∃ o1, o1 = after o a (seg0 ++ seg1 ++ seg2 ++ seg3 ++ seg4 ++
    [.jump (.blank k1)] ++ seg5 ++ seg6 ++ [.jump (.blank k2)] ++ seg7) [] [] := ⟨_, rfl⟩
  have h' : Ready { o1 with
      loops := (cs, bs) :: o1.loops
      held := [(v.onTrue, ts), (v.onFalse, fs), (n1, [k1]), (n2, [k2])] ++ o1.held } s10 := by
    refine h10.reorder_of_eq (o := { o1 with loops := (cs, bs) :: o1.loops }) ?_
      ((perm_append_comm_assoc [(n2, [k2]), (n1, [k1])] [_, _] o1.held).trans
        ((Perm.swap _ _ _).append_left [_, _]))
    simp [ho1, after, Outline.append]
  have hl1 := label_mem ho1 hm1 (by simp [Outline.append])
  have hl2 := label_mem ho1 hm2 (by simp [Outline.append])
  have hl3 := label_mem ho1 hm3 (by simp [Outline.append])
  have hl4 := label_mem ho1 hm4 (by simp [after, Outline.append])
  have hat := stmtAt_for hinit hseg1 hm1 hc hm2 hstep hm3 hs hm4
  refine Ready.resolveAll (o := { o1 with loops := (cs, bs) :: o1.loops })
    [(v.onTrue, ts, m3), (v.onFalse, fs, m4), (n1, [k1], m1), (n2, [k2], m2)] h'
    (by simp [hl1, hl2, hl3, hl4]) fun s11 h11 => ?_
  refine (h11.closeLoop (o := o1.append _) (mem_append_left _ hl2)
    (mem_append_left _ hl4)).mono fun _ s12 h12 => ⟨_, [], [], ?_, hat, ?_, fun _ => ⟨rfl, rfl⟩⟩
  · rw [ho1] at h12
    simpa [after, settlements, forwards, Stmt.labels, Outline.append] using h12
  · rw [shape, hcs, hshape]
    rfl

/-- Within the limits, emission of a statement succeeds, keeps the emitter ready, and places the
statement. -/
theorem Stmt.emit_ready (c : Code) : Emits c := by
  induction c with
  | act as => exact emits_act as
  | line n => exact emits_line n
  | seq a b iha ihb => exact emits_seq iha ihb
  | ifThen c a ih => exact emits_ifThen c ih
  | ifElse c a b iha ihb => exact emits_ifElse c iha ihb
  | «while» c a ih => exact emits_while c ih
  | doWhile a c ih => exact emits_doWhile c ih
  | «for» init c step a ih => exact emits_for init step c ih
  | «break» => exact emits_break
  | «continue» => exact emits_continue
  | goto name => exact emits_goto name
  | label name => exact emits_label name
  | ret v => exact emits_ret v

end Quadruple.Source
