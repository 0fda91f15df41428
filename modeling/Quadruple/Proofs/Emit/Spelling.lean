import Quadruple.Proofs.Code.Legible
import Quadruple.Proofs.Emit.Tables

/-!
# What operations write

The text of a run is made of the names, numerals and literals that the run was given, and of the
numbers of temporaries, labels and blanks that the emitter has handed out. `Acts.spelled` says this
of what operations do.
-/

namespace Quadruple

open List
open Symbols (Entry EntryId Table)

namespace Emit

/-! ## What can reach the code -/

/-- How far the numbers of temporaries, labels and blanks go, and how many entries there are. -/
structure Extent where
  numbers : Nat
  entries : Nat

instance : Preorder Extent where
  le m m' := m.numbers ≤ m'.numbers ∧ m.entries ≤ m'.entries
  le_refl _ := ⟨Nat.le_refl _, Nat.le_refl _⟩
  le_trans _ _ _ h h' := ⟨Nat.le_trans h.1 h'.1, Nat.le_trans h.2 h'.2⟩

def Extent.Covers (m : Extent) (n : Int) : Prop := 0 ≤ n ∧ n ≤ max m.numbers m.entries

variable {m' m : Extent}

theorem Extent.Covers.mono {n : Int} (h : m.Covers n) (hm : m ≤ m') : m'.Covers n := by
  obtain ⟨hnumbers, hentries⟩ := hm
  exact ⟨h.1, by have := h.2; omega⟩

theorem Extent.covers_of_le {n : Nat} (h : n ≤ m.numbers ∨ n ≤ m.entries) : m.Covers n :=
  ⟨Int.natCast_nonneg n, by omega⟩

def State.extent (s : State) : Extent := ⟨max s.temps (max s.labels s.blanks), s.table.entries.size⟩

structure Stock where
  code : Array Quad
  table : Table
  links : Array Link
  rows : Array ArgRow
  pending : List PendingLabel
  declared : List (String × Nat)
  formals : List EntryId
  locals : List EntryId

def State.stock (s : State) : Stock :=
  { code := s.code, table := s.table, links := s.links, rows := s.rows, pending := s.pending,
    declared := s.declared, formals := s.formals, locals := s.locals }

/-- The code is made of names in `N`, numerals in `K` and numbers up to `m`, and so will be what is
made of the rest. -/
structure Stock.Spelled (N : String → Prop) (K : String → Tag → Prop) (m : Extent) (k : Stock) :
    Prop where
  code : ∀ q ∈ k.code.toList, q.Made N K m.Covers
  table : k.table.Spelled N
  links : ∀ l ∈ k.links.toList, m.Covers l.blank
  rows : ∀ r ∈ k.rows.toList, ∀ v ∈ r.values, m.Covers v.place.number
  pending : ∀ p ∈ k.pending, ∀ b ∈ p.blanks, m.Covers b
  declared : ∀ p ∈ k.declared, m.Covers p.2
  formals : k.formals.length ≤ m.entries ∧ ∀ id ∈ k.formals, id < m.entries
  locals : k.locals.length ≤ m.entries ∧ ∀ id ∈ k.locals, id < m.entries

variable {N : String → Prop} {K : String → Tag → Prop} {s t : State} {l : Int} {id : EntryId}
  {v x y : Value} {q : Quad}

theorem Stock.Spelled.mono {k : Stock} (h : k.Spelled N K m) (hm : m ≤ m') : k.Spelled N K m' where
  code := fun q hq => (h.code q hq).mono (fun _ => id) (fun _ _ => id) fun _ hn => hn.mono hm
  table := h.table
  links := fun l hl => (h.links l hl).mono hm
  rows := fun r hr v hv => (h.rows r hr v hv).mono hm
  pending := fun p hp b hb => (h.pending p hp b hb).mono hm
  declared := fun p hp => (h.declared p hp).mono hm
  formals := ⟨le_trans h.formals.1 hm.2, fun id hid => (h.formals.2 id hid).trans_le hm.2⟩
  locals := ⟨le_trans h.locals.1 hm.2, fun id hid => (h.locals.2 id hid).trans_le hm.2⟩

def State.Spelled (N : String → Prop) (K : String → Tag → Prop) (s : State) : Prop :=
  s.stock.Spelled N K s.extent

theorem spelled_new {table : Table} (h : table.Spelled N) (settings : Settings) (report : Report) :
    (State.new settings table report).Spelled N K where
  code := fun _ hq => (not_mem_nil hq).elim
  table := h
  links := fun _ hl => (not_mem_nil hl).elim
  rows := fun _ hr => (not_mem_nil hr).elim
  pending := nofun
  declared := nofun
  formals := ⟨Nat.zero_le _, nofun⟩
  locals := ⟨Nat.zero_le _, nofun⟩

/-! ## Numbers -/

theorem State.Spelled.counted (hs : s.Spelled N K) (hstock : t.stock = s.stock)
    (hcount : s.temps ≤ t.temps ∧ s.labels ≤ t.labels ∧ s.blanks ≤ t.blanks) :
    t.Spelled N K ∧ s.extent ≤ t.extent := by
  have htable : t.table = s.table := congrArg Stock.table hstock
  have hle : s.extent ≤ t.extent := by
    refine ⟨?_, by rw [State.extent, State.extent, htable]⟩
    simp only [State.extent]
    omega
  refine ⟨?_, hle⟩
  unfold State.Spelled
  rw [hstock]
  exact Stock.Spelled.mono hs hle

theorem State.extent_covers_label (s : State) : s.extent.Covers s.labels :=
  Extent.covers_of_le (.inl (le_trans (le_max_left _ _) (le_max_right _ _)))

/-! ## Names -/

theorem State.Spelled.declare (hs : s.Spelled N K) {name : String} (hname : N name) (n : Int)
    {f : Entry → Entry} (hf : ∀ level, (f { name, level }).Spelled N (s.table.entries.size + 1))
    (report : Report) {formals locals : List EntryId}
    (hformals : formals = s.formals ∨ formals = s.formals ++ [s.table.entries.size])
    (hlocals : locals = s.locals ∨ locals = s.locals ++ [s.table.entries.size]) :
    let t := { s with
      table := (s.table.installAt name n).2.modifyEntry s.table.entries.size f
      report, formals, locals }
    t.Spelled N K ∧ s.extent ≤ t.extent ∧ s.table.entries.size < t.extent.entries := by
  intro t
  have hsize : t.table.entries.size = s.table.entries.size + 1 := by
    rw [Table.size_modifyEntry, Table.size_installAt]
  have hnew : s.table.entries.size < t.table.entries.size := hsize ▸ Nat.lt_succ_self _
  have hle : s.extent ≤ t.extent := ⟨le_rfl, hnew.le⟩
  -- what a list of entries keeps when the new one is added or not
  have hlist : ∀ {ids ids' : List EntryId},
      ids.length ≤ s.table.entries.size ∧ (∀ id ∈ ids, id < s.table.entries.size) →
      (ids' = ids ∨ ids' = ids ++ [s.table.entries.size]) →
      ids'.length ≤ t.table.entries.size ∧ ∀ id ∈ ids', id < t.table.entries.size := by
    rintro ids ids' ⟨hlength, hids⟩ hids'
    have hold : ∀ id ∈ ids, id < t.table.entries.size := fun id hid =>
      hsize ▸ Nat.lt_succ_of_lt (hids id hid)
    rw [hsize] at hold ⊢
    rcases hids' with rfl | rfl
    · exact ⟨Nat.le_succ_of_le hlength, hold⟩
    · rw [length_append, length_singleton]
      exact ⟨Nat.succ_le_succ hlength,
        forall_mem_append.2 ⟨hold, forall_mem_singleton.2 (Nat.lt_succ_self _)⟩⟩
  exact ⟨{ Stock.Spelled.mono hs hle with
    table := hs.table.declare hname n hf
    formals := hlist hs.formals hformals
    locals := hlist hs.locals hlocals }, hle, hnew⟩

theorem inRange_wrap64 (n : Int) : Numeral.InRange (Numeral.wrap64 n) := by
  have hlow := Int.le_bmod (x := n) (show 0 < 18446744073709551616 by decide)
  have hhigh := Int.bmod_lt (x := n) (show 0 < 18446744073709551616 by decide)
  unfold Numeral.wrap64
  constructor <;> omega

theorem inRange_size (tag : Tag) : Numeral.InRange tag.size := by
  unfold Tag.size
  split <;> decide

/-! ## What is at hand -/

def Item.Spelled (N : String → Prop) (K : String → Tag → Prop) (m : Extent) : Item → Prop
  | .value t _ => m.Covers t.number
  | .label l => m.Covers l
  | .blank b => m.Covers b
  | .entry id => id < m.entries
  | .name n => N n
  | .numeral text => K text (numeralTag text)
  | .literal text => IsStringBody text.toList
  | .line n => Numeral.InRange n

theorem Item.Spelled.mono {i : Item} (h : i.Spelled N K m) (hm : m ≤ m') : i.Spelled N K m' := by
  cases i with
  | value | label | blank => exact Extent.Covers.mono h hm
  | entry => exact h.trans_le hm.2
  | _ => exact h

section Acts

variable {I I' : List Item} {jumps shapes chains : Bool} {s' : State}

theorem Defines.made {tag : Tag} {quad : Temp → Quad} (h : Defines I s tag quad)
    (hs : s.Spelled N K) (hI : ∀ i ∈ I, i.Spelled N K s.extent) (hzero : K "0" .int)
    (hm : s.extent ≤ m) {dst : Temp} (hdst : m.Covers dst.number) : (quad dst).Made N K m.Covers := by
  have hvalue : ∀ {x a}, .value x a ∈ I → m.Covers x.number := fun hx =>
    Extent.Covers.mono (hI _ hx) hm
  cases h with
  | const h =>
    refine ⟨hdst, h.elim ?_ (hI _)⟩
    rintro rfl
    exact hzero
  | string h => exact ⟨hdst, hI _ h⟩
  | ref h =>
    have he : (s.table.entry _).Spelled N s.table.entries.size := hs.table.entries _ (hI _ h)
    refine ⟨hdst, he.name, he.place.imp_right fun ⟨hstorage, hlow, hhigh⟩ => ⟨hstorage, hlow, ?_⟩⟩
    have hsize : s.table.entries.size ≤ m.entries := hm.2
    omega
  | callee h => exact ⟨hdst, hI _ h, .inl ⟨rfl, rfl⟩⟩
  | load h | cast h => exact ⟨hdst, hvalue h⟩
  | negate h => exact ⟨hdst, .inl rfl, hvalue h⟩
  | complement h => exact ⟨hdst, .inr rfl, hvalue h⟩
  | index hx hy | store hx hy => exact ⟨hdst, hvalue hx, hvalue hy⟩
  | arith hop hx hy | bitwise hop hx hy | compare hop hx hy =>
    exact ⟨hdst, hop, hvalue hx, hvalue hy⟩
  | call h hargs => exact ⟨hdst, hvalue h, fun t ht => (hargs t ht).elim fun _ => hvalue⟩

theorem Writes.made (h : Writes I s q) (hs : s.Spelled N K)
    (hI : ∀ i ∈ I, i.Spelled N K s.extent) : q.Made N K s.extent.Covers := by
  have hname : ∀ k < s.table.entries.size, N (s.table.entry k).name := fun k hk =>
    (hs.table.entries k hk).name
  cases h with
  | stmtBegin h | arg h => exact hI _ h
  | goto hl => exact hs.declared _ (mem_of_lookup hl)
  | ret => exact nofun
  | retValue h =>
    rintro _ ⟨⟩
    exact hI _ h
  | globalDecl h => exact ⟨hI _ h, inRange_wrap64 _⟩
  | forgotten h => exact ⟨hI _ h, inRange_size .int⟩
  | funcBegin h => exact hname _ (hI _ h)
  | funcEnd => trivial
  | storage hq =>
    rcases mem_append.1 hq with hq | hq
    · obtain ⟨k, hk, rfl⟩ := mem_map.1 hq
      exact ⟨hname k (hs.formals.2 k hk), inRange_size _⟩
    · obtain ⟨k, hk, rfl⟩ := mem_map.1 hq
      exact ⟨hname k (hs.locals.2 k hk), inRange_wrap64 _⟩

theorem State.Spelled.emitted (hs : s.Spelled N K) (hq : q.Made N K s.extent.Covers)
    (marked : Bool) : ({ s with code := s.code.push q, marked } : State).Spelled N K := by
  refine { hs with code := fun r hr => ?_ }
  rcases mem_append.1 (Array.toList_push ▸ hr) with hr | hr
  · exact hs.code r hr
  · exact mem_singleton.1 hr ▸ hq

theorem State.Spelled.link (hs : s.Spelled N K) {b : Nat} (hb : s.extent.Covers b) :
    ({ s with links := s.links.push ⟨b, none⟩ } : State).Spelled N K := by
  refine { hs with links := fun l hl => ?_ }
  rcases mem_append.1 (Array.toList_push ▸ hl) with hl | hl
  · exact hs.links l hl
  · rw [mem_singleton.1 hl]
    exact hb

theorem State.Spelled.relink (hs : s.Spelled N K) (i j : Nat) :
    ({ s with links := s.links.modify i ({ · with next := some j }) } : State).Spelled N K := by
  refine { hs with links := fun l hl => ?_ }
  obtain ⟨k, hk⟩ := mem_iff_getElem?.1 (Array.toList_modify ▸ hl)
  rw [getElem?_modify] at hk
  obtain ⟨l', hl', rfl⟩ := Option.map_eq_some_iff.1 hk
  have hblank := hs.links l' (mem_of_getElem? hl')
  split <;> exact hblank

theorem State.Spelled.covers_awaited (hs : s.Spelled N K) {b : Nat} {p : Prop}
    (hb : b ∈ s.links.toList.map (·.blank) ∨ p ∧ b ∈ s.pending.flatMap (·.blanks)) :
    s.extent.Covers b := by
  rcases hb with hb | ⟨-, hb⟩
  · obtain ⟨l, hl, rfl⟩ := mem_map.1 hb
    exact hs.links l hl
  · obtain ⟨w, hw, hb⟩ := mem_flatMap.1 hb
    exact hs.pending w hw b hb

theorem State.Spelled.redeclare (hs : s.Spelled N K) (hid : id < s.table.entries.size)
    (hkind : (s.table.entry id).kind = .func) (tag : Tag) (report : Report) :
    let t := { s with
      table := s.table.modifyEntry id fun e => { e with
        kind := .func, storage := .global, tag, defined := true, implicit := false }
      report }
    t.Spelled N K ∧ t.extent = s.extent := by
  intro t
  have hentry := hs.table.entries id hid
  have hsize : t.extent = s.extent := by simp [t, State.extent]
  refine ⟨?_, hsize⟩
  unfold State.Spelled
  rw [hsize]
  exact { hs with table := hs.table.modifyEntry fun _ =>
    ⟨hentry.name, .inl ⟨rfl, hentry.func hkind⟩, fun _ => hentry.func hkind⟩ }

theorem Act.spelled (h : Act jumps shapes chains (I, s) (I', s')) (hs : s.Spelled N K)
    (hI : ∀ i ∈ I, i.Spelled N K s.extent) (hzero : K "0" .int) :
    s'.Spelled N K ∧ s.extent ≤ s'.extent ∧ ∀ i ∈ I', i.Spelled N K s'.extent := by
  -- what is at hand stays so, and one more item may come to it
  have hmore : ∀ {i : Item} {t : State}, s.extent ≤ t.extent → i.Spelled N K t.extent →
      ∀ j ∈ i :: I, j.Spelled N K t.extent := fun hle hi =>
    forall_mem_cons.2 ⟨hi, fun j hj => (hI j hj).mono hle⟩
  cases h with
  | define h =>
    obtain ⟨ht, hle⟩ := hs.counted (t := { s with temps := s.temps + 1 }) rfl
      ⟨Nat.le_succ _, le_rfl, le_rfl⟩
    have hdst : ({ s with temps := s.temps + 1 } : State).extent.Covers (s.temps + 1 : Nat) :=
      Extent.covers_of_le (.inl (le_max_left _ _))
    exact ⟨ht.emitted (h.made hs hI hzero hle hdst) _, hle, hmore hle hdst⟩
  | emit h => exact ⟨hs.emitted (h.made hs hI) _, le_rfl, hI⟩
  | label =>
    obtain ⟨ht, hle⟩ := hs.counted (t := { s with labels := s.labels + 1 }) rfl
      ⟨le_rfl, Nat.le_succ _, le_rfl⟩
    have hlabel := ({ s with labels := s.labels + 1 } : State).extent_covers_label
    exact ⟨ht.emitted (q := .label _) hlabel _, hle, hmore hle hlabel⟩
  | marked => exact ⟨hs, le_rfl, hmore le_rfl s.extent_covers_label⟩
  | branch hq =>
    obtain ⟨ht, hle⟩ := hs.counted (t := { s with blanks := s.blanks + 1 }) rfl
      ⟨le_refl _, le_rfl, Nat.le_succ _⟩
    have hblank : ({ s with blanks := s.blanks + 1 } : State).extent.Covers (s.blanks + 1 : Nat) :=
      Extent.covers_of_le (.inl ((Nat.le_max_right _ _).trans (Nat.le_max_right _ _)))
    refine ⟨ht.emitted ?_ _, hle, hmore hle hblank⟩
    rcases hq with rfl | ⟨x, a, hx, rfl⟩
    · exact hblank
    · exact ⟨(hI _ hx).mono hle, hblank⟩
  | link _ _ hb => exact ⟨hs.link (hI _ hb), le_rfl, hI⟩
  | relink => exact ⟨hs.relink _ _, le_rfl, hI⟩
  | @patch _ _ b l _ hb hl =>
    exact ⟨hs.emitted (q := .patch b l) ⟨hs.covers_awaited hb, hI _ hl⟩ s.marked, le_rfl, hI⟩
  | record _ hpending hdeclared =>
    refine ⟨{ hs with
      pending := fun p hp b hb => (hpending p hp b hb).elim (fun h => ?_) fun h => hI _ h
      declared := fun p hp => (hdeclared p hp).elim (hs.declared p) fun h => hI _ h },
      le_rfl, hI⟩
    obtain ⟨q, hq, hb⟩ := mem_flatMap.1 h
    exact hs.pending q hq b hb
  | rows hrows =>
    refine ⟨{ hs with rows := fun r hr v hv => (hrows r hr v hv).elim (fun h => hI _ h) ?_ },
      le_rfl, hI⟩
    rintro ⟨r', hr', hv⟩
    exact hs.rows r' hr' v hv
  | fetch hr hv => exact ⟨hs, le_rfl, hmore le_rfl (hs.rows _ hr _ hv)⟩
  | @view _ _ x a h => exact ⟨hs, le_rfl, hmore (i := .value x _) le_rfl (hI (.value x a) h)⟩
  | look h => exact ⟨hs, le_rfl, hmore le_rfl (hs.table.entries _ (hI _ h)).name⟩
  | find h =>
    have hid := h.elim (fun h => hs.table.lookup? h) fun h => hs.table.lookupGlobal? h
    exact ⟨hs, le_rfl, hmore le_rfl hid⟩
  | enter => exact ⟨{ hs with table := hs.table.enter }, le_rfl, hI⟩
  | leave => exact ⟨{ hs with table := hs.table.leave }, le_rfl, hI⟩
  | declare _ hname hf hformals hlocals =>
    obtain ⟨ht, hle, hnew⟩ := hs.declare (hI _ hname) _
      (fun level => hf N level (hI _ hname) _ hs.formals.1 hs.locals.1) _ hformals hlocals
    exact ⟨ht, hle, hmore hle hnew⟩
  | redeclare _ hid hkind =>
    have hlt := hs.table.lookupGlobal? hid
    obtain ⟨ht, hsize⟩ := hs.redeclare hlt hkind _ _
    exact ⟨ht, hsize.ge, hsize ▸ hmore le_rfl hlt⟩
  | fresh =>
    exact ⟨{ hs with
      table := hs.table.enter
      pending := nofun
      declared := nofun
      formals := ⟨Nat.zero_le _, nofun⟩
      locals := ⟨Nat.zero_le _, nofun⟩ }, le_rfl, hI⟩
  | _ => exact ⟨hs, le_rfl, hI⟩

theorem Acts.spelled {a b : List Item × State} (h : Acts jumps shapes chains a b)
    (hs : a.2.Spelled N K) (hI : ∀ i ∈ a.1, i.Spelled N K a.2.extent) (hzero : K "0" .int) :
    b.2.Spelled N K ∧ ∀ i ∈ b.1, i.Spelled N K b.2.extent := by
  induction h with
  | refl => exact ⟨hs, hI⟩
  | tail _ hact ih =>
    obtain ⟨hspelled, -, hitems⟩ := hact.spelled ih.1 ih.2 hzero
    exact ⟨hspelled, hitems⟩

end Acts

end Emit

end Quadruple
