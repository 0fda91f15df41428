import Quadruple.Proofs.CommandLine.Canonical

/-!
# The order in which glued flags are tried

A flag that collects what is glued to its name is found by trying the names of all such flags in
some order, and the first that fits is taken. Main statement: `parse_reorder`. If one such name
begins with another, what is read may depend on the order.
-/

namespace Quadruple.CommandLine

open List

variable {fs fs' : Flags} {body : String} {names : List String}

/-- The flags with another order of those that collect what is glued to their names. -/
def Flags.reorder (fs : Flags) (names : List String) : Flags := { fs with collecting := names }

/-- No name of a flag that collects what is glued to it begins with another one. -/
def Flags.PrefixFree (fs : Flags) : Prop :=
  ∀ p ∈ fs.collecting, ∀ q ∈ fs.collecting, p.toList <+: q.toList → p = q

/-- What an argument means to the flag of that name that collects what is glued to it. -/
def Flags.fit? (fs : Flags) (body name : String) : Option Use := do
  let rest ← stripLead? name body
  if rest = "" then none else return ⟨← fs.find? name, "-" ++ name, some rest⟩

theorem prefix_of_fit? {name : String} {u : Use} (h : fs.fit? body name = some u) :
    name.toList <+: body.toList := by
  obtain ⟨rest, hrest, -⟩ := Option.bind_eq_some_iff.1 h
  unfold stripLead? at hrest
  split at hrest
  · next hlead => exact isPrefixOf_iff_prefix.1 hlead
  · cases hrest

/-- Of names none of which begins with another one at most one fits. -/
theorem findSome?_fit?_iff (h : fs.PrefixFree) (hsub : names ⊆ fs.collecting) {u : Use} :
    names.findSome? (fs.fit? body) = some u ↔ ∃ p ∈ names, fs.fit? body p = some u := by
  refine ⟨exists_of_findSome?_eq_some, ?_⟩
  rintro ⟨p, hp, hu⟩
  cases hr : names.findSome? (fs.fit? body) with
  | none => cases hu.symm.trans (findSome?_eq_none_iff.1 hr p hp)
  | some v =>
    obtain ⟨q, hq, hv⟩ := exists_of_findSome?_eq_some hr
    have hlead := prefix_or_prefix_of_prefix (prefix_of_fit? hu) (prefix_of_fit? hv)
    have hpq : p = q := hlead.elim (h p (hsub hp) q (hsub hq))
      fun hback => (h q (hsub hq) p (hsub hp) hback).symm
    rw [← hv, ← hpq, hu]

theorem use_reorder (h : fs.PrefixFree) (hp : fs.collecting.Perm names) (dashes body : String) :
    (fs.reorder names).use dashes body = fs.use dashes body := by
  have hcollect : (fs.reorder names).collectingUse? body = fs.collectingUse? body := by
    refine Option.ext fun u => ?_
    show names.findSome? (fs.fit? body) = some u ↔ fs.collecting.findSome? (fs.fit? body) = some u
    rw [findSome?_fit?_iff h hp.symm.subset, findSome?_fit?_iff h (Subset.refl _)]
    exact exists_congr fun p => and_congr_left' hp.mem_iff.symm
  have hglued : (fs.reorder names).gluedUse body = fs.gluedUse body := by
    rw [Flags.gluedUse, hcollect]
    rfl
  rw [Flags.use, hglued]
  rfl

theorem set_reorder (fs : Flags) (f : Flag) (value : String) (names : List String) :
    (fs.reorder names).set f value = (fs.set f value).map (Flags.reorder · names) := by
  simp only [Flags.set]
  cases f.value.set value <;> rfl

theorem collecting_set {f : Flag} {value : String} (h : fs.set f value = .ok fs') :
    fs'.collecting = fs.collecting := by
  unfold Flags.set at h
  cases hv : f.value.set value with
  | error e => simp [hv] at h
  | ok v =>
    simp only [hv] at h
    cases h
    rfl

theorem parseFrom_reorder (h : fs.PrefixFree) (hp : fs.collecting.Perm names)
    (args : List String) : (fs.reorder names).parseFrom args =
      ((fs.parseFrom args).1.reorder names, (fs.parseFrom args).2) := by
  fun_induction Flags.parseFrom fs args with
  | case1 fs => rfl
  | case2 fs arg rest hform ih =>
    rw [Flags.parseFrom]
    simp only [hform]
    exact ih h hp
  | case3 fs arg rest hform =>
    rw [Flags.parseFrom]
    simp only [hform]
    rfl
  | case4 | case7 =>
    rw [Flags.parseFrom]
    simp only [use_reorder h hp, *]
  | case5 fs arg rest dashes body hform flag shown value huse fs' hset ih
  | case8 fs arg dashes body hform flag shown huse value rest fs' hset ih =>
    have hsame := collecting_set hset
    rw [Flags.parseFrom]
    simp only [hform, use_reorder h hp, huse, set_reorder, hset, Except.map]
    exact ih (by rwa [Flags.PrefixFree, hsame]) (by rwa [hsame])
  | case6 | case9 =>
    rw [Flags.parseFrom]
    simp only [use_reorder h hp, set_reorder, Except.map, *]

/-- Flags for `-W…` and for another name. -/
def warningsAnd (name : String) : Flags :=
  (((({} : Flags).registerCollecting (.collecting "W" "" "")).1).registerCollecting
    (.collecting name "" "")).1

end Quadruple.CommandLine
