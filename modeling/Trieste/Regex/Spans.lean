import Mathlib.Computability.Language
import Trieste.Regex.Grouping
import Trieste.Regex.Groups
import Trieste.Regex.FullMatch

namespace Trieste.Regex
set_option autoImplicit true
open Library Relation

namespace Input
variable {x : Input}

theorem length_slice (hij : i ≤ j) (hj : j ≤ x.runes.length) : (x.slice i j).length = j - i := by
  rw [slice, List.length_take, List.length_drop]
  omega

theorem slice_split {u v : List Nat} (hij : i ≤ j) (hj : j ≤ x.runes.length)
    (h : x.slice i j = u ++ v) : ∃ m, i ≤ m ∧ m ≤ j ∧ x.slice i m = u ∧ x.slice m j = v := by
  have hlen := length_slice hij hj
  rw [h, List.length_append] at hlen
  have hm : i + u.length ≤ j := by omega
  have happend := x.slice_append (Nat.le_add_right i u.length) hm
  rw [h] at happend
  have hlength : (x.slice i (i + u.length)).length = u.length := by
    rw [length_slice (Nat.le_add_right ..) (hm.trans hj), Nat.add_sub_cancel_left]
  obtain ⟨hu, hv⟩ := List.append_inj happend hlength
  exact ⟨i + u.length, Nat.le_add_right .., hm, hu, hv⟩

theorem eq_of_slice_nil (hij : i ≤ j) (hj : j ≤ x.runes.length) (h : x.slice i j = []) : j = i := by
  have hlen := length_slice hij hj
  rw [h, List.length_nil] at hlen
  omega

theorem eq_of_slice_singleton (hij : i ≤ j) (hj : j ≤ x.runes.length) (h : x.slice i j = [r]) :
    x.runes[i]? = some r ∧ j = i + 1 := by
  have hlen := length_slice hij hj
  rw [h, List.length_singleton] at hlen
  have hget := congrArg (·[0]?) h
  simp only [slice, List.getElem?_cons_zero] at hget
  rw [List.getElem?_take_of_lt (by omega), List.getElem?_drop, Nat.add_zero] at hget
  exact ⟨hget, by omega⟩

end Input

namespace Regexp

def assertionFree : Regexp → Bool
  | literal _ | classRef _ => true
  | startAnchor | endAnchor | wordBoundary => false
  | cat p q | alt p q => p.assertionFree && q.assertionFree
  | zeroOrOne _ p | zeroOrMore _ p | oneOrMore _ p | capture _ p => p.assertionFree

/-- The words of the tree. An assertion consumes nothing. -/
def language (classes : List RuneClass) : Regexp → Language Nat
  | literal r => {[r]}
  | classRef index => {w | ∃ c r, classes[index]? = some c ∧ c.contains r = true ∧ w = [r]}
  | startAnchor | endAnchor | wordBoundary => 1
  | cat p q => p.language classes * q.language classes
  | alt p q => p.language classes + q.language classes
  | zeroOrOne _ p => 1 + p.language classes
  | zeroOrMore _ p => KStar.kstar (p.language classes)
  | oneOrMore _ p => p.language classes * KStar.kstar (p.language classes)
  | capture _ p => p.language classes

section Words
variable {x : Input}

theorem mem_kstar_append {l : Language Nat} (hu : u ∈ KStar.kstar l) (hv : v ∈ l) :
    u ++ v ∈ KStar.kstar l := by
  obtain ⟨words, rfl, hwords⟩ := Language.mem_kstar.1 hu
  refine Language.mem_kstar.2 ⟨words ++ [v], by simp, ?_⟩
  intro w hw
  rcases List.mem_append.1 hw with hw | hw
  · exact hwords w hw
  · exact List.mem_singleton.1 hw ▸ hv

theorem Matches.slice_mem {p : Regexp} (h : p.Matches x i j) : x.slice i j ∈ p.language x.classes := by
  induction p generalizing i j with
  | literal r =>
    obtain ⟨hr, rfl⟩ := h
    rw [Input.slice_succ hr]
    rfl
  | classRef index =>
    obtain ⟨⟨c, r, hc, hr, hcontains⟩, rfl⟩ := h
    rw [Input.slice_succ hr]
    exact ⟨c, r, hc, hcontains, rfl⟩
  | startAnchor | endAnchor | wordBoundary =>
    obtain ⟨-, rfl⟩ := h
    rw [Input.slice_self]
    exact Language.nil_mem_one
  | cat p q ihp ihq =>
    obtain ⟨m, hm, hm'⟩ := h
    rw [← x.slice_append hm.le hm'.le]
    exact Language.append_mem_mul (ihp hm) (ihq hm')
  | alt p q ihp ihq =>
    rcases h with h | h
    · exact .inl (ihp h)
    · exact .inr (ihq h)
  | zeroOrOne _ p ih =>
    rcases h with h | rfl
    · exact .inr (ih h)
    · rw [Input.slice_self]
      exact .inl Language.nil_mem_one
  | zeroOrMore isLazy p ih =>
    induction h with
    | refl =>
      rw [Input.slice_self]
      exact Language.nil_mem_kstar _
    | tail hs hm ihs =>
      have hle := Matches.le (p := zeroOrMore isLazy p) hs
      rw [← x.slice_append hle hm.le]
      exact mem_kstar_append ihs (ih hm)
  | oneOrMore isLazy p ih =>
    induction h with
    | single h =>
      have hword := Language.append_mem_mul (ih h) (Language.nil_mem_kstar (p.language x.classes))
      rwa [List.append_nil] at hword
    | tail hs hm ihs =>
      have hle := Matches.le (p := oneOrMore isLazy p) hs
      rw [← x.slice_append hle hm.le]
      obtain ⟨u, hu, v, hv, huv⟩ := Language.mem_mul.1 ihs
      rw [← huv, List.append_assoc]
      exact Language.append_mem_mul hu (mem_kstar_append hv (ih hm))
  | capture _ p ih => exact ih h

theorem matches_words {p : Regexp} (hp : ∀ i j, i ≤ j → j ≤ x.runes.length →
      x.slice i j ∈ p.language x.classes → p.Matches x i j)
    (hij : i ≤ j) (hj : j ≤ x.runes.length) {words : List (List Nat)}
    (hwords : x.slice i j = words.flatten) (hall : ∀ w ∈ words, w ∈ p.language x.classes) :
    ReflTransGen (p.Matches x) i j := by
  induction words generalizing i with
  | nil =>
    rw [Input.eq_of_slice_nil hij hj hwords]
  | cons w words ih =>
    obtain ⟨m, him, hmj, hw, hrest⟩ := Input.slice_split hij hj hwords
    have hmatch := hp i m him (hmj.trans hj) (hw ▸ hall w (.head _))
    exact .head hmatch (ih hmj hrest fun v hv => hall v (.tail _ hv))

theorem matches_of_slice {p : Regexp} (hfree : p.assertionFree = true) (hij : i ≤ j)
    (hj : j ≤ x.runes.length) (h : x.slice i j ∈ p.language x.classes) : p.Matches x i j := by
  induction p generalizing i j with
  | literal r => exact Input.eq_of_slice_singleton hij hj h
  | classRef index =>
    obtain ⟨c, r, hc, hcontains, hslice⟩ := h
    obtain ⟨hr, hj'⟩ := Input.eq_of_slice_singleton hij hj hslice
    exact ⟨⟨c, r, hc, hr, hcontains⟩, hj'⟩
  | startAnchor | endAnchor | wordBoundary => cases hfree
  | cat p q ihp ihq =>
    obtain ⟨hp, hq⟩ := Bool.and_eq_true_iff.1 hfree
    obtain ⟨u, hu, v, hv, huv⟩ := Language.mem_mul.1 h
    obtain ⟨m, him, hmj, rfl, rfl⟩ := Input.slice_split hij hj huv.symm
    exact ⟨m, ihp hp him (hmj.trans hj) hu, ihq hq hmj hj hv⟩
  | alt p q ihp ihq =>
    obtain ⟨hp, hq⟩ := Bool.and_eq_true_iff.1 hfree
    rcases h with h | h
    · exact .inl (ihp hp hij hj h)
    · exact .inr (ihq hq hij hj h)
  | zeroOrOne _ p ih =>
    rcases h with h | h
    · exact .inr (Input.eq_of_slice_nil hij hj h)
    · exact .inl (ih hfree hij hj h)
  | zeroOrMore _ p ih =>
    obtain ⟨words, hwords, hall⟩ := Language.mem_kstar.1 h
    exact matches_words (fun _ _ hij hj => ih hfree hij hj) hij hj hwords hall
  | oneOrMore _ p ih =>
    obtain ⟨u, hu, v, hv, huv⟩ := Language.mem_mul.1 h
    obtain ⟨words, rfl, hall⟩ := Language.mem_kstar.1 hv
    obtain ⟨m, him, hmj, rfl, hrest⟩ := Input.slice_split hij hj huv.symm
    exact .head' (ih hfree him (hmj.trans hj) hu)
      (matches_words (fun _ _ hij hj => ih hfree hij hj) hmj hj hrest hall)
  | capture _ p ih => exact ih hfree hij hj h

end Words

def StartsFirst (index : Nat) (spans : List (Option Nat)) : Prop :=
  (spans[index * 2]?).join = none → (spans[index * 2 + 1]?).join = none

theorem Records.startsFirst {p : Regexp} (h : p.Records x place c c') (hplace : Monotone place)
    (heven : c.2.length % 2 = 0) (hc : StartsFirst index c.2) : StartsFirst index c'.2 := by
  induction p generalizing c c' with
  | literal | classRef | startAnchor | endAnchor | wordBoundary =>
    obtain ⟨-, rfl⟩ := h
    exact hc
  | cat p q ihp ihq =>
    obtain ⟨m, hm, hm'⟩ := h
    have hlen := (Records.recorded hplace hm heven).length
    exact ihq hm' (hlen ▸ heven) (ihp hm heven hc)
  | alt p q ihp ihq =>
    rcases h with h | h
    · exact ihp h heven hc
    · exact ihq h heven hc
  | zeroOrOne _ p ih =>
    rcases h with h | rfl
    · exact ih h heven hc
    · exact hc
  | zeroOrMore isLazy p ih =>
    induction h with
    | refl => exact hc
    | tail hs hm ihs =>
      have hlen := (Records.recorded (p := zeroOrMore isLazy p) hplace hs heven).length
      exact ih hm (hlen ▸ heven) ihs
  | oneOrMore isLazy p ih =>
    induction h with
    | single h => exact ih h heven hc
    | tail hs hm ihs =>
      have hlen := (Records.recorded (p := oneOrMore isLazy p) hplace hs heven).length
      exact ih hm (hlen ▸ heven) ihs
  | capture number p ih =>
    obtain ⟨m, hm, rfl⟩ := h
    have heven' : (c.2.set (number * 2) (some (place c.1))).length % 2 = 0 := by
      rw [List.length_set]
      exact heven
    have hlen := (Records.recorded hplace hm heven').length
    rw [List.length_set] at hlen
    intro hstart
    have hne : number * 2 + 1 ≠ index * 2 := by omega
    dsimp only at hstart ⊢
    rw [List.getElem?_set_ne hne] at hstart
    by_cases hnumber : number = index
    · subst hnumber
      by_cases hlt : number * 2 < c.2.length
      · have hset : ∃ a, (c.2.set (number * 2) (some (place c.1)))[number * 2]? = some (some a) :=
          ⟨_, List.getElem?_set_self hlt⟩
        obtain ⟨a, ha⟩ := Records.set_mono hm hset
        rw [ha] at hstart
        cases hstart
      · rw [List.getElem?_eq_none (by rw [List.length_set]; omega)]
        rfl
    · have hend : number * 2 + 1 ≠ index * 2 + 1 := by omega
      have hstart' : number * 2 ≠ index * 2 := by omega
      have hstop : number * 2 ≠ index * 2 + 1 := by omega
      rw [List.getElem?_set_ne hend]
      apply ih hm heven' ?_ hstart
      intro hstart
      dsimp only at hstart ⊢
      rw [List.getElem?_set_ne hstart'] at hstart
      rw [List.getElem?_set_ne hstop]
      exact hc hstart

end Regexp

/-- The trees in the groups of a pattern with the given number. -/
def Pattern.bodies (index : Nat) : Pattern → List Regexp
  | none => []
  | some r => r.bodies index

/-- A span in a match of so many bytes, on rune boundaries, that is a word of the tree where the
tree has no assertions. -/
structure SpanOf (classes : List RuneClass) (view : Bytes) (len : Nat) (body : Regexp) (c : Capture) :
    Prop where
  span : ∃ u v, u ≤ v ∧ v ≤ (runes view).length ∧ c.start = some (offset view u) ∧
    c.end = some (offset view v) ∧ offset view u ≤ offset view v ∧ offset view v ≤ len
  word : body.assertionFree = true → ∀ a z, c.start = some a → c.end = some z →
    runes ((view.drop a).take (z - a)) ∈ body.language classes

theorem spanOf_of_matches {body : Regexp} (h : body.Matches (.ofText classes view atStart) u v)
    (hv : v ≤ k) (hk : k ≤ (runes view).length) :
    SpanOf classes view (offset view k) body
      { start := some (offset view u), «end» := some (offset view v) } := by
  have hle := hv.trans hk
  refine ⟨⟨u, v, h.le, hle, rfl, rfl, offset_mono view h.le, offset_mono view hv⟩, ?_⟩
  intro _ a z ha hz
  cases ha
  cases hz
  rw [runes_slice h.le hle]
  exact h.slice_mem

theorem captures_of_records {p : Pattern} (hp : ∀ r, p = some r → r.Numbered 0 n)
    (hk : k ≤ (runes view).length)
    (h : p.Records (.ofText classes view atStart) (offset view) (0, List.replicate (2 * n) none)
      (k, spans)) (index : Nat) :
    (spans[index * 2]?).join = none ∧ (spans[index * 2 + 1]?).join = none ∨
      ∃ body ∈ p.bodies index, (∀ q ∈ p.bodies index, q = body) ∧ SpanOf classes view (offset view k)
        body { start := (spans[index * 2]?).join, «end» := (spans[index * 2 + 1]?).join } := by
  have hblank : ∀ slot : Nat, ((List.replicate (2 * n) (none : Option Nat))[slot]?).join = none := by
    intro slot
    rw [List.getElem?_replicate]
    split <;> rfl
  cases p with
  | none =>
    obtain rfl : spans = List.replicate (2 * n) none := congrArg Prod.snd h
    exact .inl ⟨hblank _, hblank _⟩
  | some r =>
    have hr := hp r rfl
    have heven : (List.replicate (2 * n) (none : Option Nat)).length % 2 = 0 := by
      rw [List.length_replicate, Nat.mul_mod_right]
    have hplace : Monotone (offset view) := fun _ _ h => offset_mono view h
    cases hstart : (spans[index * 2]?).join with
    | none =>
      have hfirst : Regexp.StartsFirst index (List.replicate (2 * n) none) := fun _ => hblank _
      exact .inl ⟨rfl, Regexp.Records.startsFirst h hplace heven hfirst hstart⟩
    | some a =>
      have hfrom : Regexp.FromGroup (.ofText classes view atStart) (offset view) index
          (r.bodies index) (0, List.replicate (2 * n) none) := by
        intro b hb
        have hnone := hblank (index * 2)
        rw [hb] at hnone
        cases hnone
      obtain ⟨body, hbody, u, v, hmatch, hv, rfl, hstop⟩ := Regexp.Records.fromGroup h
        (hr.flat index) (fun _ hq => hq) heven hplace hfrom a (Option.join_eq_some_iff.1 hstart)
      refine .inr ⟨body, hbody, fun q hq => hr.same index q hq body hbody, ?_⟩
      rw [hstop]
      exact spanOf_of_matches hmatch hv hk

/-- What `find_prefix` records for each group of an accepted pattern lies in the match, on rune
boundaries, and on a word of the group. -/
theorem findPrefix_spans {findCategory : Bytes → Option RuneClass} {mode : SyntaxMode}
    {pattern : Bytes} (hok : (RegexEngine.ofSyntax findCategory mode pattern).ok = true)
    (hctx : MatchContext.LeftOver ctx) (self : Nat) (view : Bytes) (atStart : Bool) :
    ∃ (p : Pattern) (classes : List RuneClass) (n : Nat),
      RegexEngine.ofSyntax findCategory mode pattern = .compile p.toPostfix classes n ∧
      ∀ len captures ctx', (RegexEngine.ofSyntax findCategory mode pattern).findPrefixWithContext
          self view ctx atStart false = (some len, captures, ctx') →
        captures.length = (RegexEngine.ofSyntax findCategory mode pattern).numCaptures ∧
        ∀ index c, captures[index]? = some c → c.start = none ∧ c.end = none ∨
          ∃ body ∈ p.bodies index, (∀ q ∈ p.bodies index, q = body) ∧
            SpanOf classes view len body c := by
  obtain ⟨p, classes, n, hcompile, hp⟩ := RegexEngine.ofSyntax_numbered hok
  refine ⟨p, classes, n, hcompile, ?_⟩
  rw [hcompile] at hok ⊢
  intro len captures ctx' hfound
  have hwell : p.WellFormed classes := by
    cases p with
    | none => trivial
    | some r => exact (hp r rfl).1.wellFormed
  have hgroups : (RegexEngine.compile p.toPostfix classes n).numCaptures = n :=
    RegexEngine.compile_numCaptures hok
  rw [hgroups]
  rcases Nat.eq_zero_or_pos n with hn | hn
  · have hcond : (!(RegexEngine.compile p.toPostfix classes n).ok ||
        (RegexEngine.compile p.toPostfix classes n).numCaptures == 0) = true := by
      rw [hgroups, hn, beq_self_eq_true, Bool.or_true]
    unfold RegexEngine.findPrefixWithContext at hfound
    dsimp only at hfound
    rw [if_pos hcond] at hfound
    obtain rfl : [] = captures := congrArg (fun result => result.2.1) hfound
    exact ⟨hn.symm, fun index c hc => nomatch hc⟩
  · have hx := Input.shows_ofText classes view atStart
    obtain ⟨k, spans, passed, hk, rfl, hpath, -, hcaptures⟩ :=
      (findPrefixWithContext_spec (RegexEngine.compile_ready hok) rfl (hgroups.symm ▸ hn) hx hctx.valid
        self).1 len (congrArg Prod.fst hfound)
    have hrecords := (Pattern.records_iff hwell hok _ rfl _ _ _).1 (CaptureStep.records hpath)
    rw [hgroups, Nat.zero_add] at hrecords
    have hread : captures = (RegexEngine.compile p.toPostfix classes n).readCaptures spans :=
      (congrArg (fun result => result.2.1) hfound).symm.trans hcaptures
    constructor
    · rw [hread, RegexEngine.readCaptures, List.length_map, List.length_range, hgroups]
    · intro index c hc
      rw [hread, RegexEngine.readCaptures, List.getElem?_map] at hc
      obtain ⟨i, hi, rfl⟩ := Option.map_eq_some_iff.1 hc
      obtain ⟨_, rfl⟩ := List.getElem?_eq_some_iff.1 hi
      rw [List.getElem_range]
      exact captures_of_records (fun r hr => (hp r hr).2) hk hrecords index

/-- The group of `(a)*` on the text `aa`. -/
theorem findPrefix_spans_star : ∃ (p : Pattern) (classes : List RuneClass) (n : Nat),
    RegexEngine.ofSyntax (fun _ => none) .extended [0x28, 0x61, 0x29, 0x2A] =
      .compile p.toPostfix classes n ∧
    ∀ len captures ctx', (RegexEngine.ofSyntax (fun _ => none) .extended
        [0x28, 0x61, 0x29, 0x2A]).findPrefixWithContext 0 [0x61, 0x61] {} true false =
          (some len, captures, ctx') →
      captures.length = (RegexEngine.ofSyntax (fun _ => none) .extended
        [0x28, 0x61, 0x29, 0x2A]).numCaptures ∧
      ∀ index c, captures[index]? = some c → c.start = none ∧ c.end = none ∨
        ∃ body ∈ p.bodies index, (∀ q ∈ p.bodies index, q = body) ∧
          SpanOf classes [0x61, 0x61] len body c :=
  findPrefix_spans (by decide +kernel) .fresh 0 [0x61, 0x61] true

theorem TRegex.fullMatch_leftOver (re : TRegex) (self : Nat) (text : List UInt8)
    (hctx : MatchContext.LeftOver ctx) : MatchContext.LeftOver (re.fullMatch self text ctx).2 := by
  rw [fullMatch]
  cases re.engine with
  | none => exact hctx
  | some e =>
    dsimp only
    split
    · exact hctx
    · exact hctx.findPrefix e self text true

/-- Without assertions, the texts that a pattern matches are its words. -/
theorem TRegex.fullMatch_iff {findCategory : Bytes → Option RuneClass}
    (hparse : PatternTree.parse findCategory pattern = some t) (ht : t.tree.WellFormed t.classes)
    (hok : t.engine.ok = true) (hfree : t.tree.assertionFree = true)
    (hctx : MatchContext.LeftOver ctx) (self : Nat) (text : List UInt8) :
    ((TRegex.init (.ofPattern findCategory pattern)).fullMatch self text ctx).1 = true ↔
      runes text ∈ t.tree.language t.classes := by
  rw [RegexEngine.ofPattern_eq hparse]
  simp only [fullMatch, init, hok, matchText, Bool.not_true, Bool.false_eq_true, if_false,
    beq_iff_eq]
  have hwhole := RegexEngine.findPrefix_whole ht hok hctx self text true
  have hslice : (Input.ofText t.classes text true).slice 0 (runes text).length = runes text := by
    rw [Input.slice, List.drop_zero, Nat.sub_zero]
    exact List.take_length
  refine hwhole.trans ⟨fun h => ?_, fun h => ?_⟩
  · have hword := h.slice_mem
    rwa [hslice] at hword
  · apply Regexp.matches_of_slice hfree (Nat.zero_le _) (Nat.le_refl _)
    exact (congrArg (· ∈ t.tree.language t.classes) hslice).mpr h

namespace Regexp

theorem mem_zeroOrOne : w ∈ (zeroOrOne isLazy p).language classes ↔
    w = [] ∨ w ∈ p.language classes := Iff.rfl

theorem mem_cat : w ∈ (cat p q).language classes ↔
    ∃ u ∈ p.language classes, ∃ v ∈ q.language classes, u ++ v = w := Language.mem_mul

theorem mem_classRef (hc : classes[index]? = some c) :
    w ∈ (classRef index).language classes ↔ ∃ r, c.contains r = true ∧ w = [r] := by
  constructor
  · rintro ⟨c', r, hc', hr, rfl⟩
    rw [hc] at hc'
    cases hc'
    exact ⟨r, hr, rfl⟩
  · rintro ⟨r, hr, rfl⟩
    exact ⟨c, r, hc, hr, rfl⟩

theorem mem_star_classRef (hc : classes[index]? = some c) :
    w ∈ (zeroOrMore isLazy (classRef index)).language classes ↔ ∀ r ∈ w, c.contains r = true := by
  rw [language, Language.mem_kstar]
  constructor
  · rintro ⟨words, rfl, hwords⟩ r hr
    obtain ⟨word, hword, hr⟩ := List.mem_flatten.1 hr
    obtain ⟨r', hr', rfl⟩ := (mem_classRef hc).1 (hwords word hword)
    rw [List.mem_singleton.1 hr]
    exact hr'
  · intro h
    refine ⟨w.map fun r => [r], (List.flatMap_singleton' w).symm, ?_⟩
    intro word hword
    obtain ⟨r, hr, rfl⟩ := List.mem_map.1 hword
    exact (mem_classRef hc).2 ⟨r, h r hr, rfl⟩

theorem mem_plus_classRef (hc : classes[index]? = some c) :
    w ∈ (oneOrMore isLazy (classRef index)).language classes ↔
      w ≠ [] ∧ ∀ r ∈ w, c.contains r = true := by
  have hsplit : w ∈ (oneOrMore isLazy (classRef index)).language classes ↔
      ∃ u ∈ (classRef index).language classes,
        ∃ v ∈ (zeroOrMore isLazy (classRef index)).language classes, u ++ v = w := Language.mem_mul
  rw [hsplit]
  constructor
  · rintro ⟨u, hu, v, hv, rfl⟩
    obtain ⟨r, hr, rfl⟩ := (mem_classRef hc).1 hu
    refine ⟨List.cons_ne_nil _ _, ?_⟩
    rw [List.singleton_append, List.forall_mem_cons]
    exact ⟨hr, (mem_star_classRef hc).1 hv⟩
  · rintro ⟨hne, hall⟩
    obtain ⟨r, rest, rfl⟩ := List.exists_cons_of_ne_nil hne
    rw [List.forall_mem_cons] at hall
    exact ⟨[r], (mem_classRef hc).2 ⟨r, hall.1, rfl⟩, rest, (mem_star_classRef hc).2 hall.2, rfl⟩

end Regexp

end Trieste.Regex
