import Mathlib.Data.List.TakeDrop
import Trieste.Regex.Tree

namespace Trieste.Regex
set_option autoImplicit true
open Library Relation

def Input.slice (x : Input) (i j : Nat) : List Nat := (x.runes.drop i).take (j - i)

namespace Input

theorem slice_self (x : Input) (i : Nat) : x.slice i i = [] := by
  rw [slice, Nat.sub_self, List.take_zero]

theorem slice_succ {x : Input} (h : x.runes[i]? = some r) : x.slice i (i + 1) = [r] := by
  obtain ⟨hlt, rfl⟩ := List.getElem?_eq_some_iff.1 h
  rw [slice, Nat.add_sub_cancel_left, List.drop_eq_getElem_cons hlt]
  rfl

theorem slice_append (x : Input) (hi : i ≤ m) (hj : m ≤ j) :
    x.slice i m ++ x.slice m j = x.slice i j := by
  have hdrop : x.runes.drop m = (x.runes.drop i).drop (m - i) := by
    rw [List.drop_drop, Nat.add_sub_cancel' hi]
  have hlen : j - i = (m - i) + (j - m) := by omega
  rw [slice, slice, slice, hdrop, hlen, List.take_add]

end Input

/-- Every rune of the class is one of the given ones, which are below 128. -/
def RuneClass.within (allowed : List Nat) (c : RuneClass) : Bool :=
  (List.range 128).all (fun r => !c.asciiBitmap.test r || allowed.contains r) &&
    c.ranges.all fun range => decide (range.2 < 128)

theorem RuneClass.within_contains {c : RuneClass} (h : c.within allowed = true)
    (hr : c.contains r = true) : r ∈ allowed := by
  obtain ⟨hascii, hranges⟩ := Bool.and_eq_true_iff.1 h
  unfold RuneClass.contains at hr
  split at hr
  · next hlt =>
    have hlt : r < 128 := of_decide_eq_true hlt
    have htest := List.all_eq_true.1 hascii r (List.mem_range.2 hlt)
    rw [hr, Bool.not_true, Bool.false_or] at htest
    exact List.contains_iff_mem.1 htest
  · next hlt =>
    have hge : ¬ r < 128 := fun hlt' => hlt (decide_eq_true hlt')
    split at hr
    · cases hr
    · next range hlast =>
      have hmem := (List.takeWhile_subset _) (List.mem_of_getLast? hlast)
      have hsmall := of_decide_eq_true (List.all_eq_true.1 hranges range hmem)
      have hle := of_decide_eq_true (Bool.and_eq_true_iff.1 hr).2
      exact absurd (Nat.lt_of_le_of_lt hle hsmall) hge

namespace Regexp

/-- Whether the tree is built from the given runes only. -/
def only (classes : List RuneClass) (allowed : List Nat) : Regexp → Bool
  | literal r => allowed.contains r
  | classRef index => (classes[index]?).any (RuneClass.within allowed)
  | startAnchor | endAnchor | wordBoundary => true
  | cat p q | alt p q => p.only classes allowed && q.only classes allowed
  | zeroOrOne _ p | zeroOrMore _ p | oneOrMore _ p => p.only classes allowed
  | capture _ p => p.only classes allowed

/-- The tree is built from runes of a kind only. -/
def All (classes : List RuneClass) (P : Nat → Prop) : Regexp → Prop
  | literal r => P r
  | classRef index => ∀ c, classes[index]? = some c → ∀ r, c.contains r = true → P r
  | startAnchor | endAnchor | wordBoundary => True
  | cat p q | alt p q => p.All classes P ∧ q.All classes P
  | zeroOrOne _ p | zeroOrMore _ p | oneOrMore _ p => p.All classes P
  | capture _ p => p.All classes P

/-- Whether the tree is built so that its matches start with one of the given runes. -/
def startsIn (classes : List RuneClass) (allowed : List Nat) : Regexp → Bool
  | literal r => allowed.contains r
  | classRef index => (classes[index]?).any (RuneClass.within allowed)
  | startAnchor | endAnchor | wordBoundary => false
  | cat p _ => p.startsIn classes allowed
  | alt p q => p.startsIn classes allowed && q.startsIn classes allowed
  | zeroOrOne _ _ | zeroOrMore _ _ => false
  | oneOrMore _ p => p.startsIn classes allowed
  | capture _ p => p.startsIn classes allowed

/-- The texts that the tree can match, where they are listed in it. -/
def words : Regexp → Option (List (List Nat))
  | literal r => some [[r]]
  | classRef _ => none
  | startAnchor | endAnchor | wordBoundary => some [[]]
  | cat p q => p.words.bind fun ps => q.words.map fun qs =>
    ps.flatMap fun w => qs.map fun w' => w ++ w'
  | alt p q => p.words.bind fun ps => q.words.map fun qs => ps ++ qs
  | zeroOrOne _ p => p.words.map fun ps => [] :: ps
  | zeroOrMore _ _ | oneOrMore _ _ => none
  | capture _ p => p.words

/-- The trees in the groups with the given number. -/
def bodies (index : Nat) : Regexp → List Regexp
  | cat p q | alt p q => p.bodies index ++ q.bodies index
  | zeroOrOne _ p | zeroOrMore _ p | oneOrMore _ p => p.bodies index
  | capture number p => if number = index then p :: p.bodies index else p.bodies index
  | _ => []

/-- Whether the tree is built so that its matches record the group with the given number. -/
def sets (index : Nat) : Regexp → Bool
  | cat p q => p.sets index || q.sets index
  | alt p q => p.sets index && q.sets index
  | oneOrMore _ p => p.sets index
  | capture number p => number == index || p.sets index
  | _ => false

section Texts
variable {x : Input} {allowed : List Nat} {index : Nat}

theorem class_within (h : (x.classes[index]?).any (RuneClass.within allowed) = true)
    (hm : ∃ c r, x.classes[index]? = some c ∧ x.runes[i]? = some r ∧ c.contains r = true) :
    ∃ r, x.slice i (i + 1) = [r] ∧ r ∈ allowed := by
  obtain ⟨c, r, hc, hr, hcontains⟩ := hm
  rw [hc] at h
  exact ⟨r, Input.slice_succ hr, RuneClass.within_contains h hcontains⟩

theorem Matches.all {p : Regexp} (h : p.Matches x i j) (hp : p.All x.classes P) :
    ∀ r ∈ x.slice i j, P r := by
  induction p generalizing i j with
  | literal r =>
    obtain ⟨hr, rfl⟩ := h
    rw [Input.slice_succ hr]
    intro r' hr'
    rw [List.mem_singleton.1 hr']
    exact hp
  | classRef index =>
    obtain ⟨⟨c, r, hc, hr, hcontains⟩, rfl⟩ := h
    rw [Input.slice_succ hr]
    intro r' hr'
    rw [List.mem_singleton.1 hr']
    exact hp c hc r hcontains
  | startAnchor | endAnchor | wordBoundary =>
    obtain ⟨-, rfl⟩ := h
    rw [Input.slice_self]
    exact fun r hr => absurd hr List.not_mem_nil
  | cat p q ihp ihq =>
    obtain ⟨m, hm, hm'⟩ := h
    obtain ⟨hp, hq⟩ := hp
    rw [← x.slice_append hm.le hm'.le]
    intro r hr
    rcases List.mem_append.1 hr with hr | hr
    · exact ihp hm hp r hr
    · exact ihq hm' hq r hr
  | alt p q ihp ihq =>
    obtain ⟨hp, hq⟩ := hp
    rcases h with h | h
    · exact ihp h hp
    · exact ihq h hq
  | zeroOrOne _ p ih =>
    rcases h with h | rfl
    · exact ih h hp
    · rw [Input.slice_self]
      exact fun r hr => absurd hr List.not_mem_nil
  | zeroOrMore isLazy p ih =>
    induction h with
    | refl =>
      rw [Input.slice_self]
      exact fun r hr => absurd hr List.not_mem_nil
    | tail hs hm ihs =>
      have hle := Matches.le (p := zeroOrMore isLazy p) hs
      rw [← x.slice_append hle hm.le]
      intro r hr
      rcases List.mem_append.1 hr with hr | hr
      · exact ihs r hr
      · exact ih hm hp r hr
  | oneOrMore isLazy p ih =>
    induction h with
    | single h => exact ih h hp
    | tail hs hm ihs =>
      have hle := Matches.le (p := oneOrMore isLazy p) hs
      rw [← x.slice_append hle hm.le]
      intro r hr
      rcases List.mem_append.1 hr with hr | hr
      · exact ihs r hr
      · exact ih hm hp r hr
  | capture _ p ih => exact ih h hp

theorem all_of_only {p : Regexp} (h : p.only classes allowed = true) :
    p.All classes (· ∈ allowed) := by
  induction p with
  | literal r => exact List.contains_iff_mem.1 h
  | classRef index =>
    intro c hc r hr
    rw [only, hc] at h
    exact RuneClass.within_contains h hr
  | startAnchor | endAnchor | wordBoundary => trivial
  | cat p q ihp ihq | alt p q ihp ihq =>
    obtain ⟨hp, hq⟩ := Bool.and_eq_true_iff.1 h
    exact ⟨ihp hp, ihq hq⟩
  | zeroOrOne _ p ih | zeroOrMore _ p ih | oneOrMore _ p ih | capture _ p ih => exact ih h

theorem Matches.only {p : Regexp} (h : p.Matches x i j) (hp : p.only x.classes allowed = true) :
    ∀ r ∈ x.slice i j, r ∈ allowed := h.all (all_of_only hp)

theorem slice_starts {x : Input} (hi : i ≤ m) (hj : m ≤ j)
    (h : ∃ r rest, x.slice i m = r :: rest ∧ r ∈ allowed) :
    ∃ r rest, x.slice i j = r :: rest ∧ r ∈ allowed := by
  obtain ⟨r, rest, hslice, hr⟩ := h
  refine ⟨r, rest ++ x.slice m j, ?_, hr⟩
  rw [← x.slice_append hi hj, hslice, List.cons_append]

theorem Matches.startsIn {p : Regexp} (h : p.Matches x i j)
    (hp : p.startsIn x.classes allowed = true) :
    ∃ r rest, x.slice i j = r :: rest ∧ r ∈ allowed := by
  induction p generalizing i j with
  | literal r =>
    obtain ⟨hr, rfl⟩ := h
    exact ⟨r, [], Input.slice_succ hr, List.contains_iff_mem.1 hp⟩
  | classRef index =>
    obtain ⟨hm, rfl⟩ := h
    obtain ⟨r, hslice, hr⟩ := class_within hp hm
    exact ⟨r, [], hslice, hr⟩
  | startAnchor | endAnchor | wordBoundary | zeroOrOne | zeroOrMore => cases hp
  | cat p q ihp _ =>
    obtain ⟨m, hm, hm'⟩ := h
    exact slice_starts hm.le hm'.le (ihp hm hp)
  | alt p q ihp ihq =>
    obtain ⟨hp, hq⟩ := Bool.and_eq_true_iff.1 hp
    rcases h with h | h
    · exact ihp h hp
    · exact ihq h hq
  | oneOrMore isLazy p ih =>
    induction h with
    | single h => exact ih h hp
    | tail hs hm ihs => exact slice_starts (Matches.le (p := oneOrMore isLazy p) hs) hm.le ihs
  | capture _ p ih => exact ih h hp

theorem Matches.words {p : Regexp} (h : p.Matches x i j) (hp : p.words = some ws) :
    x.slice i j ∈ ws := by
  induction p generalizing i j ws with
  | literal r =>
    obtain ⟨hr, rfl⟩ := h
    cases hp
    rw [Input.slice_succ hr]
    exact List.mem_singleton_self _
  | classRef | zeroOrMore | oneOrMore => cases hp
  | startAnchor | endAnchor | wordBoundary =>
    obtain ⟨-, rfl⟩ := h
    cases hp
    rw [Input.slice_self]
    exact List.mem_singleton_self _
  | cat p q ihp ihq =>
    obtain ⟨m, hm, hm'⟩ := h
    obtain ⟨ps, hps, hqs⟩ := Option.bind_eq_some_iff.1 hp
    obtain ⟨qs, hq, rfl⟩ := Option.map_eq_some_iff.1 hqs
    rw [← x.slice_append hm.le hm'.le]
    exact List.mem_flatMap.2 ⟨_, ihp hm hps, List.mem_map.2 ⟨_, ihq hm' hq, rfl⟩⟩
  | alt p q ihp ihq =>
    obtain ⟨ps, hps, hqs⟩ := Option.bind_eq_some_iff.1 hp
    obtain ⟨qs, hq, rfl⟩ := Option.map_eq_some_iff.1 hqs
    rcases h with h | h
    · exact List.mem_append_left _ (ihp h hps)
    · exact List.mem_append_right _ (ihq h hq)
  | zeroOrOne _ p ih =>
    obtain ⟨ps, hps, rfl⟩ := Option.map_eq_some_iff.1 hp
    rcases h with h | rfl
    · exact List.mem_cons_of_mem _ (ih h hps)
    · rw [Input.slice_self]
      exact List.mem_cons_self
  | capture _ p ih => exact ih h hp

end Texts

section Groups
variable {x : Input} {place : Nat → Nat} {index : Nat}

/-- If the group has a start, its span is that of a match of one of the trees before the cursor. -/
def FromGroup (x : Input) (place : Nat → Nat) (index : Nat) (qs : List Regexp) (c : Cursor) : Prop :=
  ∀ a, c.2[index * 2]? = some (some a) → ∃ q ∈ qs, ∃ u v, q.Matches x u v ∧ v ≤ c.1 ∧
    a = place u ∧ c.2[index * 2 + 1]? = some (some (place v))

theorem FromGroup.forward (h : FromGroup x place index qs (i, spans)) (hij : i ≤ j) :
    FromGroup x place index qs (j, spans) := by
  intro a ha
  obtain ⟨q, hq, u, v, hm, hv, hspan⟩ := h a ha
  exact ⟨q, hq, u, v, hm, hv.trans hij, hspan⟩

theorem FromGroup.set_ne (h : FromGroup x place index qs (i, spans)) (hslot : slot / 2 ≠ index)
    (v : Option Nat) : FromGroup x place index qs (i, spans.set slot v) := by
  have hstart : slot ≠ index * 2 := by omega
  have hend : slot ≠ index * 2 + 1 := by omega
  intro a ha
  rw [List.getElem?_set_ne hstart] at ha
  obtain ⟨q, hq, u, v, hm, hv, hu, hspan⟩ := h a ha
  refine ⟨q, hq, u, v, hm, hv, hu, ?_⟩
  rw [List.getElem?_set_ne hend]
  exact hspan

theorem Records.le {p : Regexp} (h : p.Records x place c c') : c.1 ≤ c'.1 := h.matches.le

/-- A tree without the group does not change its span. -/
theorem Records.keeps {p : Regexp} (h : p.Records x place c c') (hp : p.bodies index = []) :
    ∀ slot, slot / 2 = index → c'.2[slot]? = c.2[slot]? := by
  induction p generalizing c c' with
  | literal | classRef | startAnchor | endAnchor | wordBoundary =>
    obtain ⟨-, rfl⟩ := h
    exact fun _ _ => rfl
  | cat p q ihp ihq =>
    obtain ⟨m, hm, hm'⟩ := h
    obtain ⟨hp, hq⟩ := List.append_eq_nil_iff.1 hp
    exact fun slot hslot => (ihq hm' hq slot hslot).trans (ihp hm hp slot hslot)
  | alt p q ihp ihq =>
    obtain ⟨hp, hq⟩ := List.append_eq_nil_iff.1 hp
    rcases h with h | h
    · exact ihp h hp
    · exact ihq h hq
  | zeroOrOne _ p ih =>
    rcases h with h | rfl
    · exact ih h hp
    · exact fun _ _ => rfl
  | zeroOrMore _ p ih =>
    induction h with
    | refl => exact fun _ _ => rfl
    | tail _ hm ihs => exact fun slot hslot => (ih hm hp slot hslot).trans (ihs slot hslot)
  | oneOrMore _ p ih =>
    induction h with
    | single h => exact ih h hp
    | tail _ hm ihs => exact fun slot hslot => (ih hm hp slot hslot).trans (ihs slot hslot)
  | capture number p ih =>
    obtain ⟨m, hm, rfl⟩ := h
    rw [bodies] at hp
    split at hp
    · cases hp
    · next hne =>
      intro slot hslot
      have hstart : number * 2 ≠ slot := by omega
      have hend : number * 2 + 1 ≠ slot := by omega
      rw [List.getElem?_set_ne hend, ih hm hp slot hslot, List.getElem?_set_ne hstart]

/-- What a group has recorded comes from its tree. -/
theorem Records.fromGroup {p : Regexp} (h : p.Records x place c c')
    (hflat : ∀ q ∈ p.bodies index, q.bodies index = []) (hqs : ∀ q ∈ p.bodies index, q ∈ qs)
    (heven : c.2.length % 2 = 0) (hplace : Monotone place)
    (hfrom : FromGroup x place index qs c) : FromGroup x place index qs c' := by
  induction p generalizing c c' with
  | literal | classRef =>
    obtain ⟨-, rfl⟩ := h
    exact hfrom.forward (Nat.le_succ _)
  | startAnchor | endAnchor | wordBoundary =>
    obtain ⟨-, rfl⟩ := h
    exact hfrom
  | cat p q ihp ihq =>
    obtain ⟨m, hm, hm'⟩ := h
    have hlen := (Records.recorded hplace hm heven).length
    refine ihq hm' (fun r hr => ?_) (fun r hr => ?_) (hlen ▸ heven)
      (ihp hm (fun r hr => ?_) (fun r hr => ?_) heven hfrom)
    · exact hflat r (List.mem_append_right _ hr)
    · exact hqs r (List.mem_append_right _ hr)
    · exact hflat r (List.mem_append_left _ hr)
    · exact hqs r (List.mem_append_left _ hr)
  | alt p q ihp ihq =>
    rcases h with h | h
    · exact ihp h (fun r hr => hflat r (List.mem_append_left _ hr))
        (fun r hr => hqs r (List.mem_append_left _ hr)) heven hfrom
    · exact ihq h (fun r hr => hflat r (List.mem_append_right _ hr))
        (fun r hr => hqs r (List.mem_append_right _ hr)) heven hfrom
  | zeroOrOne _ p ih =>
    rcases h with h | rfl
    · exact ih h hflat hqs heven hfrom
    · exact hfrom
  | zeroOrMore isLazy p ih =>
    induction h with
    | refl => exact hfrom
    | tail hs hm ihs =>
      have hlen := (Records.recorded (p := zeroOrMore isLazy p) hplace hs heven).length
      exact ih hm hflat hqs (hlen ▸ heven) ihs
  | oneOrMore isLazy p ih =>
    induction h with
    | single h => exact ih h hflat hqs heven hfrom
    | tail hs hm ihs =>
      have hlen := (Records.recorded (p := oneOrMore isLazy p) hplace hs heven).length
      exact ih hm hflat hqs (hlen ▸ heven) ihs
  | capture number p ih =>
    obtain ⟨m, hm, rfl⟩ := h
    have heven' : (c.2.set (number * 2) (some (place c.1))).length % 2 = 0 := by
      rw [List.length_set]
      exact heven
    by_cases hnumber : number = index
    · subst hnumber
      have hmem : p ∈ (capture number p).bodies number := by
        rw [bodies, if_pos rfl]
        exact List.mem_cons_self
      have hkeeps := Records.keeps hm (hflat p hmem) (number * 2) (by omega)
      intro a ha
      have hne : number * 2 + 1 ≠ number * 2 := Nat.succ_ne_self _
      rw [List.getElem?_set_ne hne, hkeeps] at ha
      have hlt : number * 2 < c.2.length := by
        have := (List.getElem?_eq_some_iff.1 ha).1
        rwa [List.length_set] at this
      rw [List.getElem?_set_self hlt] at ha
      have hlen := (Records.recorded hplace hm heven').length
      rw [List.length_set] at hlen
      refine ⟨p, hqs p hmem, c.1, m.1, hm.matches, Nat.le_refl _, ?_, ?_⟩
      · exact (Option.some.inj (Option.some.inj ha)).symm
      · exact List.getElem?_set_self (by omega)
    · have hsub : (capture number p).bodies index = p.bodies index := by
        rw [bodies, if_neg hnumber]
      have hopen : number * 2 / 2 ≠ index := by omega
      have hclose : (number * 2 + 1) / 2 ≠ index := by omega
      rw [hsub] at hflat hqs
      exact (ih hm hflat hqs heven' (hfrom.set_ne hopen _)).set_ne hclose _

theorem Records.set_mono {p : Regexp} (h : p.Records x place c c')
    (hset : ∃ a, c.2[index * 2]? = some (some a)) : ∃ a, c'.2[index * 2]? = some (some a) := by
  have hslot : ∀ (spans : List (Option Nat)) slot v,
      (∃ a, spans[index * 2]? = some (some a)) →
        ∃ a, (spans.set slot (some v))[index * 2]? = some (some a) := by
    intro spans slot v hset
    obtain ⟨a, ha⟩ := hset
    by_cases heq : slot = index * 2
    · subst heq
      exact ⟨v, List.getElem?_set_self (List.getElem?_eq_some_iff.1 ha).1⟩
    · exact ⟨a, (List.getElem?_set_ne heq).trans ha⟩
  induction p generalizing c c' with
  | literal | classRef | startAnchor | endAnchor | wordBoundary =>
    obtain ⟨-, rfl⟩ := h
    exact hset
  | cat p q ihp ihq =>
    obtain ⟨m, hm, hm'⟩ := h
    exact ihq hm' (ihp hm hset)
  | alt p q ihp ihq =>
    rcases h with h | h
    · exact ihp h hset
    · exact ihq h hset
  | zeroOrOne _ p ih =>
    rcases h with h | rfl
    · exact ih h hset
    · exact hset
  | zeroOrMore _ p ih =>
    induction h with
    | refl => exact hset
    | tail _ hm ihs => exact ih hm ihs
  | oneOrMore _ p ih =>
    induction h with
    | single h => exact ih h hset
    | tail _ hm ihs => exact ih hm ihs
  | capture number p ih =>
    obtain ⟨m, hm, rfl⟩ := h
    exact hslot _ _ _ (ih hm (hslot _ _ _ hset))

theorem Records.sets {p : Regexp} (h : p.Records x place c c') (hp : p.sets index = true)
    (hlen : index * 2 < c.2.length) (heven : c.2.length % 2 = 0) (hplace : Monotone place) :
    ∃ a, c'.2[index * 2]? = some (some a) := by
  induction p generalizing c c' with
  | literal | classRef | startAnchor | endAnchor | wordBoundary | zeroOrOne | zeroOrMore => cases hp
  | cat p q ihp ihq =>
    obtain ⟨m, hm, hm'⟩ := h
    have hlen' := (Records.recorded hplace hm heven).length
    rcases Bool.or_eq_true_iff.1 hp with hp | hq
    · exact Records.set_mono hm' (ihp hm hp hlen heven)
    · exact ihq hm' hq (hlen' ▸ hlen) (hlen' ▸ heven)
  | alt p q ihp ihq =>
    obtain ⟨hp, hq⟩ := Bool.and_eq_true_iff.1 hp
    rcases h with h | h
    · exact ihp h hp hlen heven
    · exact ihq h hq hlen heven
  | oneOrMore _ p ih =>
    induction h with
    | single h => exact ih h hp hlen heven
    | tail _ hm ihs => exact Records.set_mono hm ihs
  | capture number p ih =>
    obtain ⟨m, hm, rfl⟩ := h
    have hne : number * 2 + 1 ≠ index * 2 := by omega
    have heven' : (c.2.set (number * 2) (some (place c.1))).length % 2 = 0 := by
      rw [List.length_set]
      exact heven
    have hlen' : index * 2 < (c.2.set (number * 2) (some (place c.1))).length := by
      rw [List.length_set]
      exact hlen
    rw [List.getElem?_set_ne hne]
    rcases Bool.or_eq_true_iff.1 hp with hnumber | hp
    · obtain rfl := beq_iff_eq.1 hnumber
      exact Records.set_mono hm ⟨place c.1, List.getElem?_set_self hlen⟩
    · exact ih hm hp hlen' heven'

end Groups

end Regexp

end Trieste.Regex
