import Quadruple.Proofs.Flow.Content

/-!
# Places in a stream and in its graph

The rest of a stream from some place on is the rest of a block and the blocks behind it. `Place`
says which, and follows both: over an instruction that control passes, over a label into the next
block, and along a jump to its target.

Main statement: `walk_of_reach`.
-/

namespace Quadruple.Flow

open List

def afterLabel? (n : Int) : List Quad → Option (List Quad)
  | [] => none
  | q :: qs => if q = .label n then some qs else afterLabel? n qs

variable {n : Int} {ts r rem body : List Quad} {b : Block} {e : Ending} {os : List Bool}
  {es : List Event} {eqs : Equations} {f : Func} {i : Nat} {texts : List (List Quad)}

theorem afterLabel?_append {pre : List Quad} (h : Quad.label n ∉ pre) (r : List Quad) :
    afterLabel? n (pre ++ .label n :: r) = some r := by
  induction pre with
  | nil => simp [afterLabel?]
  | cons q pre ih =>
    rw [mem_cons, not_or] at h
    rw [cons_append, afterLabel?, if_neg (Ne.symm h.1)]
    exact ih h.2

/-! ## Texts of streams -/

/-- `StreamText eqs r ts`: the rest `r` of the stream of a function has the text `ts`. -/
inductive StreamText (eqs : Equations) : List Quad → List Quad → Prop
  | done : StreamText eqs [.funcEnd] [.funcEnd]
  | patch {b l : Int} {r ts : List Quad} : StreamText eqs r ts → StreamText eqs (.patch b l :: r) ts
  | decl {q : Quad} {r ts : List Quad} :
      q.isDecl = true → StreamText eqs r ts → StreamText eqs (q :: r) ts
  | test {c : Temp} {t u : Target} {n m : Int} {r ts : List Quad} :
      targetLabel? eqs t = some n → targetLabel? eqs u = some m → StreamText eqs r ts →
      StreamText eqs (.condJump c t :: .jump u :: r) (.branch c (.label n) (.label m) :: ts)
  | next {q x : Quad} {r ts : List Quad} :
      fuse? [q] = some [q] → q.isDecl = false → q.resolve? eqs = some x → StreamText eqs r ts →
      StreamText eqs (q :: r) (x :: ts)

theorem streamText_of_fuse? {qs : List Quad} (h : fuse? body = some qs)
    (hts : Resolves eqs (qs.filter (fun q => !q.isDecl) ++ [.funcEnd]) ts) :
    StreamText eqs (body ++ [.funcEnd]) ts := by
  replace h := fuses_of_fuse? h
  induction h generalizing ts with
  | nil =>
    cases hts with
    | cons hx hnil =>
      cases hnil
      cases hx
      exact .done
  | patch _ ih => exact .patch (ih hts)
  | test _ ih =>
    cases hts with
    | cons hx hts =>
      simp only [Quad.resolve?, bind, Option.bind_eq_some_iff] at hx
      obtain ⟨n, hn, m, hm, hx⟩ := hx
      cases hx
      exact .test hn hm (ih hts)
  | @keep q _ _ hq _ ih =>
    cases hdecl : q.isDecl with
    | true =>
      simp only [filter_cons, hdecl] at hts
      exact .decl hdecl (ih hts)
    | false =>
      simp only [filter_cons, hdecl] at hts
      cases hts with
      | cons hx hts => exact .next hq hdecl hx (ih hts)

theorem StreamText.afterLabel? {us : List Quad}
    (h : StreamText eqs r (us ++ .label n :: ts)) (hus : Quad.label n ∉ us) :
    ∃ r', afterLabel? n r = some r' ∧ StreamText eqs r' ts := by
  generalize hall : us ++ .label n :: ts = all at h
  -- what stands in the text in front of the label stands in front of it in the stream
  have hcut : ∀ {us : List Quad} {x : Quad} {xs : List Quad}, Quad.label n ∉ us →
      us ++ .label n :: ts = x :: xs →
      (us = [] ∧ x = .label n ∧ xs = ts) ∨
        ∃ us', us = x :: us' ∧ x ≠ .label n ∧ Quad.label n ∉ us' ∧ us' ++ .label n :: ts = xs := by
    intro us x xs hus hall
    cases us with
    | nil =>
      cases hall
      exact .inl ⟨rfl, rfl, rfl⟩
    | cons u us =>
      obtain ⟨rfl, hxs⟩ := cons.inj hall
      rw [mem_cons, not_or] at hus
      exact .inr ⟨us, rfl, Ne.symm hus.1, hus.2, hxs⟩
  induction h generalizing us with
  | done =>
    rcases hcut hus hall with ⟨-, hx, -⟩ | ⟨us', -, -, -, hxs⟩
    · cases hx
    · simp at hxs
  | patch _ ih => exact ih hus hall
  | @decl q _ _ hq _ ih =>
    have hne : q ≠ .label n := by
      rintro rfl
      cases hq
    rw [Flow.afterLabel?, if_neg hne]
    exact ih hus hall
  | test _ _ _ ih =>
    rcases hcut hus hall with ⟨-, hx, -⟩ | ⟨us', -, -, hus', hxs⟩
    · cases hx
    · exact ih hus' hxs
  | @next q x _ _ _ _ hx hr ih =>
    rcases hcut hus hall with ⟨-, rfl, rfl⟩ | ⟨us', -, hne, hus', hxs⟩
    · obtain rfl : q = .label n := Quad.eq_of_resolve? hx (by simp) (by simp)
      exact ⟨_, by simp [Flow.afterLabel?], hr⟩
    · have hq : q ≠ .label n := by
        rintro rfl
        exact hne (Option.some.inj hx).symm
      rw [Flow.afterLabel?, if_neg hq]
      exact ih hus' hxs

/-! ## Places in the stream and in the graph -/

/-- The rest `r` of the stream has the text of the rest `rem` of block `i` and of the blocks behind
it; `texts` are the texts of all blocks. -/
structure Place (eqs : Equations) (f : Func) (texts : List (List Quad)) (r : List Quad) (i : Nat)
    (rem : List Quad) : Prop where
  text : StreamText eqs r (rem ++ (texts.drop (i + 1)).flatten)
  block : ∃ b before, f.blocks[i]? = some b ∧ b.quads = before ++ rem ∧
    ∀ q ∈ before, q.endsBlock = false

/-- The rest of block `i` is the rest of block `j`, or control falls from the end of the one to the
start of the other. -/
inductive Falls (f : Func) : Nat → List Quad → Nat → List Quad → Prop
  | stay {i : Nat} {rem : List Quad} : Falls f i rem i rem
  | next {i : Nat} {b c : Block} : f.blocks[i]? = some b → b.succs = [i + 1] →
      f.blocks[i + 1]? = some c → Falls f i [] (i + 1) c.quads

section Places

variable (hf : f.Built) (htexts : Forall₂ Block.Text f.blocks texts)

include htexts in
theorem text_of_block (hb : f.blocks[i]? = some b) :
    ∃ text, b.Text text ∧ texts.drop i = text :: texts.drop (i + 1) := by
  obtain ⟨hi, rfl⟩ := List.getElem?_eq_some_iff.1 hb
  have hi' : i < texts.length := htexts.length_eq ▸ hi
  exact ⟨texts[i], htexts.get hi hi', drop_eq_getElem_cons hi'⟩

include htexts in
theorem place_start (hf : f.Built) {whole : List Quad}
    (hwhole : StreamText eqs whole texts.flatten) :
    ∃ b, f.blocks[0]? = some b ∧ Place eqs f texts whole 0 b.quads := by
  obtain ⟨b, hb, hentry⟩ := hf.entry
  obtain ⟨text, htext, hdrop⟩ := text_of_block htexts hb
  refine ⟨b, hb, ?_, b, [], hb, rfl, by simp⟩
  cases htext with
  | labelled hn => exact absurd hn (hentry _)
  | plain =>
    rw [drop_zero] at hdrop
    rw [hdrop] at hwhole
    exact hwhole

include hf

/-- A block that has been passed up to an instruction that ends it ends with this instruction. -/
theorem blockEnd_of_passed (hb : f.blocks[i]? = some b) {before : List Quad} {x : Quad}
    (hquads : b.quads = before ++ x :: rem) (hx : x.endsBlock = true) :
    rem = [] ∧ f.BlockEnd i b before := by
  obtain ⟨inner, hinner, hend⟩ := hf.block i b hb
  have hsame : ∀ {y : Quad}, b.quads = inner ++ [y] → rem = [] ∧ f.BlockEnd i b before := by
    intro y hy
    rw [hquads] at hy
    rcases eq_nil_or_concat rem with rfl | ⟨rem, z, rfl⟩
    · obtain rfl := (append_inj' hy rfl).1
      exact ⟨rfl, hend⟩
    · -- otherwise the instruction stands among those that end no block
      have hall : (before ++ x :: rem) ++ [z] = inner ++ [y] := by simpa using hy
      have hmem : x ∈ inner := (append_inj' hall rfl).1 ▸ by simp
      rw [hinner x hmem] at hx
      cases hx
  cases hend with
  | branch hq | jump hq | ret hq | done hq => exact hsame hq
  | fall hq =>
    rw [hinner x (by rw [← hq, hquads]; simp)] at hx
    cases hx

theorem Place.fall (h : Place eqs f texts r i []) :
    ∃ c, f.blocks[i + 1]? = some c ∧ Falls f i [] (i + 1) c.quads := by
  obtain ⟨b, before, hb, hquads, hbefore⟩ := h.block
  rw [append_nil] at hquads
  obtain ⟨inner, hinner, hend⟩ := hf.block i b hb
  cases hend with
  | branch hq | jump hq | ret hq | done hq =>
    have hlast := hbefore _ (by rw [← hquads, hq]; exact mem_append_right _ mem_cons_self)
    cases hlast
  | fall _ _ hsuccs hlt =>
    have hc := getElem?_eq_getElem hlt
    exact ⟨_, hc, .next hb hsuccs hc⟩

theorem exists_cons_of_unlabelled {c : Block} (hc : f.blocks[i + 1]? = some c)
    (hno : ∀ n, c.label ≠ labelName n) : ∃ y rem, c.quads = y :: rem := by
  refine exists_cons_of_ne_nil ((hf.named i c hc).resolve_right ?_)
  rintro ⟨n, hn⟩
  exact hno n hn

include htexts

theorem Place.settle (h : Place eqs f texts r i rem) {x : Quad} {ys : List Quad}
    (hx : rem ++ (texts.drop (i + 1)).flatten = x :: ys) (hl : ∀ n, x ≠ .label n) :
    ∃ j rem', Falls f i rem j (x :: rem') ∧ Place eqs f texts r j (x :: rem') ∧
      rem' ++ (texts.drop (j + 1)).flatten = ys := by
  cases rem with
  | cons y rem' =>
    obtain ⟨rfl, hys⟩ := cons.inj hx
    exact ⟨i, rem', .stay, h, hys⟩
  | nil =>
    obtain ⟨c, hc, hfalls⟩ := h.fall hf
    obtain ⟨text, htext, hdrop⟩ := text_of_block htexts hc
    have hrest : text ++ (texts.drop (i + 1 + 1)).flatten = x :: ys := by
      rw [← hx, hdrop]
      rfl
    cases htext with
    | @labelled n => exact absurd (cons.inj hrest).1.symm (hl n)
    | plain hno =>
      obtain ⟨y, rem', hq⟩ := exists_cons_of_unlabelled hf hc hno
      rw [hq] at hrest hfalls
      obtain ⟨rfl, hys⟩ := cons.inj hrest
      refine ⟨i + 1, rem', hfalls, ⟨?_, c, [], hc, hq, by simp⟩, hys⟩
      rw [hrest, ← hx]
      exact h.text

theorem Place.label (h : Place eqs f texts (.label n :: r) i rem)
    (hts : rem ++ (texts.drop (i + 1)).flatten = .label n :: ts) (hr : StreamText eqs r ts) :
    ∃ j rem', Falls f i rem j rem' ∧ Place eqs f texts r j rem' := by
  -- no block holds a label, so the block is at its end
  obtain rfl : rem = [] := by
    cases rem with
    | nil => rfl
    | cons y rem' =>
      obtain rfl : y = .label n := (cons.inj hts).1
      obtain ⟨b, before, hb, hquads, -⟩ := h.block
      exact absurd (by simp [hquads]) (hf.bare b (mem_of_getElem? hb) n)
  obtain ⟨c, hc, hfalls⟩ := h.fall hf
  obtain ⟨text, htext, hdrop⟩ := text_of_block htexts hc
  have hrest : text ++ (texts.drop (i + 1 + 1)).flatten = .label n :: ts := by
    rw [← hts, hdrop]
    rfl
  refine ⟨i + 1, c.quads, hfalls, ?_, c, [], hc, rfl, by simp⟩
  cases htext with
  | labelled =>
    have htail : c.quads ++ (texts.drop (i + 1 + 1)).flatten = ts := (cons.inj hrest).2
    rw [htail]
    exact hr
  | plain hno =>
    obtain ⟨y, rem', hq⟩ := exists_cons_of_unlabelled hf hc hno
    rw [hq] at hrest
    obtain rfl : y = .label n := (cons.inj hrest).1
    exact absurd (by simp [hq]) (hf.bare c (mem_of_getElem? hc) n)

theorem Place.pass {q : Quad} (h : Place eqs f texts (q :: r) i rem)
    (hts : rem ++ (texts.drop (i + 1)).flatten = q :: ts) (hr : StreamText eqs r ts)
    (hq : q.endsBlock = false) (hl : ∀ n, q ≠ .label n) :
    ∃ j rem', Falls f i rem j (q :: rem') ∧ Place eqs f texts r j rem' := by
  obtain ⟨j, rem', hfalls, hplace, hrem⟩ := h.settle hf htexts hts hl
  obtain ⟨b, before, hb, hquads, hbefore⟩ := hplace.block
  refine ⟨j, rem', hfalls, hrem ▸ hr, b, before ++ [q], hb, by simpa using hquads, fun p hp => ?_⟩
  rcases mem_append.1 hp with hp | hp
  · exact hbefore p hp
  · rw [mem_singleton.1 hp, hq]

theorem place_of_target {whole : List Quad} (hwhole : StreamText eqs whole texts.flatten) {j : Nat}
    (hj : f.IsTarget n j) :
    ∃ c r, f.blocks[j]? = some c ∧ afterLabel? n whole = some r ∧ Place eqs f texts r j c.quads := by
  obtain ⟨c, hc, hlabel⟩ := hj.block
  obtain ⟨text, htext, hdrop⟩ := text_of_block htexts hc
  obtain rfl : text = .label n :: c.quads := by
    cases htext with
    | labelled hm => rw [labelName_injective (hlabel.symm.trans hm)]
    | plain hno => exact absurd hlabel (hno n)
  -- no block before this one has the label
  have hbefore : Quad.label n ∉ (texts.take j).flatten := by
    intro hmem
    obtain ⟨text, htext, hn⟩ := mem_flatten.1 hmem
    obtain ⟨i, hi, rfl⟩ := mem_take_iff_getElem.1 htext
    obtain ⟨hij, hi'⟩ := Nat.lt_min.1 hi
    have hib : i < f.blocks.length := htexts.length_eq ▸ hi'
    have hbare := hf.bare _ (getElem_mem hib) n
    obtain ⟨_, -, hfirst⟩ := findIdx?_eq_some_iff_getElem.1 hj.2
    have htext : f.blocks[i].Text texts[i] := htexts.get hib hi'
    generalize texts[i] = text at hn htext
    cases htext with
    | @labelled m hm =>
      rcases mem_cons.1 hn with hnm | hn
      · obtain rfl : m = n := (Quad.label.inj hnm).symm
        exact hfirst i hij (beq_iff_eq.2 hm)
      · exact hbare hn
    | plain => exact hbare hn
  have hsplit : texts.flatten = (texts.take j).flatten ++ .label n ::
      (c.quads ++ (texts.drop (j + 1)).flatten) := by
    conv_lhs => rw [← take_append_drop j texts, hdrop]
    simp
  rw [hsplit] at hwhole
  obtain ⟨r, hr, hrest⟩ := hwhole.afterLabel? hbefore
  exact ⟨c, r, hc, hr, hrest, c, [], hc, rfl, by simp⟩

section Leaving

variable {whole : List Quad} (hwhole : StreamText eqs whole texts.flatten)

include hwhole

theorem Place.jump (h : Place eqs f texts r i (.jump (.label n) :: rem)) :
    ∃ b j c r', f.blocks[i]? = some b ∧ b.succs = [j] ∧ f.blocks[j]? = some c ∧ rem = [] ∧
      afterLabel? n whole = some r' ∧ Place eqs f texts r' j c.quads := by
  obtain ⟨b, before, hb, hquads, -⟩ := h.block
  obtain ⟨rfl, hend⟩ := blockEnd_of_passed hf hb hquads rfl
  cases hend with
  | @jump n' j hq hsuccs hj =>
    obtain rfl : n = n' := by simpa using append_cancel_left (hquads.symm.trans hq)
    obtain ⟨c, r', hc, hr', hplace⟩ := place_of_target hf htexts hwhole hj
    exact ⟨b, j, c, r', hb, hsuccs, hc, rfl, hr', hplace⟩
  | branch hq | ret hq | done hq | fall hq => simp [hquads] at hq

theorem Place.branch {c : Temp} {m : Int}
    (h : Place eqs f texts r i (.branch c (.label n) (.label m) :: rem)) :
    ∃ b j l cj cl r1 r2, f.blocks[i]? = some b ∧ b.succs = [j, l] ∧ f.blocks[j]? = some cj ∧
      f.blocks[l]? = some cl ∧ rem = [] ∧ afterLabel? n whole = some r1 ∧
      afterLabel? m whole = some r2 ∧ Place eqs f texts r1 j cj.quads ∧
      Place eqs f texts r2 l cl.quads := by
  obtain ⟨b, before, hb, hquads, -⟩ := h.block
  obtain ⟨rfl, hend⟩ := blockEnd_of_passed hf hb hquads rfl
  cases hend with
  | @branch c' n' m' j l hq hsuccs hj hl =>
    obtain ⟨rfl, rfl, rfl⟩ : c = c' ∧ n = n' ∧ m = m' := by
      simpa using append_cancel_left (hquads.symm.trans hq)
    obtain ⟨cj, r1, hcj, hr1, hplace1⟩ := place_of_target hf htexts hwhole hj
    obtain ⟨cl, r2, hcl, hr2, hplace2⟩ := place_of_target hf htexts hwhole hl
    exact ⟨b, j, l, cj, cl, r1, r2, hb, hsuccs, hcj, hcl, rfl, hr1, hr2, hplace1, hplace2⟩
  | jump hq | ret hq | done hq | fall hq => simp [hquads] at hq

end Leaving

end Places

/-! ## Runs and walks -/

inductive Leaves (f : Func) (b : Block) : List Bool → List Event → Ending → Prop
  | stop {os : List Bool} : b.succs = [] → Leaves f b os [] .done
  | next {j : Nat} {os : List Bool} {es : List Event} {e : Ending} :
      b.succs = [j] → Walk f j os es e → Leaves f b os es e
  | wait {t u : Nat} : b.succs = [t, u] → Leaves f b [] [] .waiting
  | branch {t u : Nat} {o : Bool} {os : List Bool} {es : List Event} {e : Ending} :
      b.succs = [t, u] → Walk f (if o then t else u) os es e → Leaves f b (o :: os) es e

theorem Leaves.walk (h : Leaves f b os es e) (hb : f.blocks[i]? = some b) :
    Walk f i os (b.events ++ es) e := by
  cases h with
  | stop hs => simpa using Walk.stop hb hs
  | next hs hw => exact .next hb hs hw
  | wait hs => simpa using Walk.wait hb hs
  | branch hs hw => exact .branch hb hs hw

def Rest (f : Func) (i : Nat) (rem : List Quad) (os : List Bool) (es : List Event) (e : Ending) :
    Prop :=
  ∃ b es', f.blocks[i]? = some b ∧ es = rem.flatMap Quad.events ++ es' ∧ Leaves f b os es' e

theorem Rest.walk (hb : f.blocks[i]? = some b) (h : Rest f i b.quads os es e) :
    Walk f i os es e := by
  obtain ⟨b', es', hb', rfl, hl⟩ := h
  cases hb.symm.trans hb'
  exact hl.walk hb

theorem Falls.rest {j : Nat} {rem' : List Quad} (h : Falls f i rem j rem')
    (hrest : Rest f j rem' os es e) : Rest f i rem os es e := by
  cases h with
  | stay => exact hrest
  | next hb hs hc => exact ⟨_, es, hb, rfl, .next hs (hrest.walk hc)⟩

theorem Leads.afterLabel? {t : Target} (h : Leads eqs body t r) (ht : targetLabel? eqs t = some n) :
    Flow.afterLabel? n (body ++ [.funcEnd]) = some (r ++ [.funcEnd]) := by
  obtain ⟨m, pre, hm, rfl, hpre⟩ := h
  cases ht.symm.trans hm
  rw [append_assoc, cons_append]
  exact afterLabel?_append hpre _

section Simulation

variable (hf : f.Built) (htexts : Forall₂ Block.Text f.blocks texts)

include hf htexts

theorem Halts.rest {r : List Quad} (h : Halts r os es e)
    (hat : Place eqs f texts (r ++ [.funcEnd]) i rem) : Rest f i rem os es e := by
  have htext := hat.text
  generalize hts : rem ++ (texts.drop (i + 1)).flatten = ts at htext
  have hstop : ∀ {x : Quad} {ys : List Quad} {e : Ending}, ts = x :: ys → x.endsBlock = true →
      (∀ j b before, b.quads = before ++ [x] → f.BlockEnd j b before → Leaves f b os [] e) →
      Rest f i rem os x.events e := by
    rintro x ys e rfl hx hleaves
    obtain ⟨j, rem', hfalls, hplace, -⟩ := hat.settle hf htexts hts (by rintro n rfl; cases hx)
    obtain ⟨b, before, hb, hquads, -⟩ := hplace.block
    obtain ⟨rfl, hend⟩ := blockEnd_of_passed hf hb hquads hx
    exact hfalls.rest ⟨b, [], hb, by simp, hleaves j b before hquads hend⟩
  cases h with
  | done =>
    cases htext with
    | done =>
      refine hstop rfl rfl fun j b before hquads hend => ?_
      cases hend with
      | done _ hs => exact .stop hs
      | branch hq | jump hq | ret hq | fall hq => simp [hquads] at hq
    | decl hq => cases hq
    | next hfuse => cases hfuse
  | ret =>
    cases htext with
    | decl hq => cases hq
    | next _ _ hx =>
      cases hx
      refine hstop rfl rfl fun j b before hquads hend => ?_
      cases hend with
      | ret _ hs => exact .stop hs
      | branch hq | jump hq | done hq | fall hq => simp [hquads] at hq
  | wait =>
    cases htext with
    | decl hq => cases hq
    | test =>
      refine hstop rfl rfl fun j b before hquads hend => ?_
      cases hend with
      | branch _ hs => exact .wait hs
      | ret hq | jump hq | done hq | fall hq => simp [hquads] at hq
    | next hfuse => cases hfuse

variable (hbody : StreamText eqs (body ++ [.funcEnd]) texts.flatten)

include hbody

/-- The walk follows the run: a step of the run is a step within a block, a step into the next
block, or a step along a successor. -/
theorem Reach.rest {r r' : List Quad} {os' : List Bool} (h : Reach eqs body r os es r' os')
    (hat : Place eqs f texts (r ++ [.funcEnd]) i rem) :
    ∃ j rem', Place eqs f texts (r' ++ [.funcEnd]) j rem' ∧
      ∀ es' e, Rest f j rem' os' es' e → Rest f i rem os (es ++ es') e := by
  induction h generalizing i rem with
  | refl => exact ⟨i, rem, hat, fun _ _ => id⟩
  | @straight q r r' os os' es hq _ ih =>
    -- where the run goes on, and what the walk meets up to there
    obtain ⟨j, rem1, hat1, hstep⟩ : ∃ j rem1, Place eqs f texts (r ++ [.funcEnd]) j rem1 ∧
        ∀ os es e, Rest f j rem1 os es e → Rest f i rem os (q.events ++ es) e := by
      have htext := hat.text
      generalize hts : rem ++ (texts.drop (i + 1)).flatten = ts at htext
      rw [cons_append] at hat htext
      generalize r ++ [.funcEnd] = w at hat htext
      cases htext with
      | done => cases hq
      | patch hr => exact ⟨i, rem, ⟨hts ▸ hr, hat.block⟩, fun _ _ _ => id⟩
      | decl hdecl hr =>
        rw [Quad.events_of_isDecl hdecl]
        exact ⟨i, rem, ⟨hts ▸ hr, hat.block⟩, fun _ _ _ => id⟩
      | test => cases hq
      | @next _ x _ _ _ _ hx hr =>
        obtain rfl : q = x := by
          cases q with
          | jump | branch => cases hq
          | _ => exact Option.some.inj hx
        by_cases hlabel : ∃ n, q = .label n
        · obtain ⟨n, rfl⟩ := hlabel
          obtain ⟨j, rem1, hfalls, hplace⟩ := hat.label hf htexts hts hr
          exact ⟨j, rem1, hplace, fun _ _ _ => hfalls.rest⟩
        · obtain ⟨j, rem1, hfalls, hplace⟩ := hat.pass hf htexts hts hr
            (Quad.endsBlock_of_isStraight hq) fun n hn => hlabel ⟨n, hn⟩
          refine ⟨j, rem1, hplace, ?_⟩
          rintro os es e ⟨b, es', hb, rfl, hl⟩
          exact hfalls.rest ⟨b, es', hb, by simp, hl⟩
    obtain ⟨k, rem2, hat2, hrest⟩ := ih hat1
    refine ⟨k, rem2, hat2, fun es' e he => ?_⟩
    rw [append_assoc]
    exact hstep _ _ e (hrest es' e he)
  | @jump t r r1 r' os os' es hl _ ih =>
    have htext := hat.text
    generalize hts : rem ++ (texts.drop (i + 1)).flatten = ts at htext
    rw [cons_append] at htext
    cases htext with
    | decl hq => cases hq
    | next _ _ hx hr =>
      simp only [Quad.resolve?, bind, Option.bind_eq_some_iff] at hx
      obtain ⟨n, hn, hx⟩ := hx
      cases hx
      obtain ⟨j, rem', hfalls, hplace, -⟩ := hat.settle hf htexts hts (by simp)
      obtain ⟨b, k, c, w, hb, hs, hc, rfl, hw, hat1⟩ := hplace.jump hf htexts hbody
      cases hw.symm.trans (hl.afterLabel? hn)
      obtain ⟨l, rem2, hat2, hrest⟩ := ih hat1
      refine ⟨l, rem2, hat2, fun es' e he => hfalls.rest ⟨b, _, hb, rfl, .next hs ?_⟩⟩
      exact (hrest es' e he).walk hc
  | @branch c t u o r r1 r' os os' es hl _ ih =>
    have htext := hat.text
    generalize hts : rem ++ (texts.drop (i + 1)).flatten = ts at htext
    rw [cons_append, cons_append] at htext
    cases htext with
    | decl hq => cases hq
    | next hfuse => cases hfuse
    | @test _ _ _ n m _ _ ht hu hr =>
      obtain ⟨j, rem', hfalls, hplace, -⟩ := hat.settle hf htexts hts (by simp)
      obtain ⟨b, k, l, ck, cl, w1, w2, hb, hs, hck, hcl, rfl, hw1, hw2, hat1, hat2⟩ :=
        hplace.branch hf htexts hbody
      cases o with
      | true =>
        cases hw1.symm.trans (hl.afterLabel? ht)
        obtain ⟨x, rem2, hat', hrest⟩ := ih hat1
        refine ⟨x, rem2, hat', fun es' e he => hfalls.rest ⟨b, _, hb, rfl, .branch hs ?_⟩⟩
        exact (hrest es' e he).walk hck
      | false =>
        cases hw2.symm.trans (hl.afterLabel? hu)
        obtain ⟨x, rem2, hat', hrest⟩ := ih hat2
        refine ⟨x, rem2, hat', fun es' e he => hfalls.rest ⟨b, _, hb, rfl, .branch hs ?_⟩⟩
        exact (hrest es' e he).walk hcl

end Simulation

/-- What a run over the whole body meets up to where it stops, a walk from the first block of the
function meets. -/
theorem walk_of_reach {r : Routine} (h : r.Builds eqs f)
    {os' : List Bool} {es' : List Event} {rest : List Quad}
    (hr : Reach eqs r.body r.body os es rest os') (hh : Halts rest os' es' e) :
    Walk f 0 os (es ++ es') e := by
  have hf := built_of_builds h
  obtain ⟨texts, htexts, qs, hqs, hres⟩ := (keeps_of_builds h).text
  have hbody := streamText_of_fuse? hqs hres
  obtain ⟨b, hb, hat⟩ := place_start htexts hf hbody
  obtain ⟨j, rem, hat', hrest⟩ := hr.rest hf htexts hbody hat
  exact (hrest es' e (hh.rest hf htexts hat')).walk hb

end Quadruple.Flow
