import Trieste.Regex.Language
import Trieste.Regex.RegexSet
import Trieste.Utf8.Hex

namespace Trieste.Regex
set_option autoImplicit true
open Library Relation

/-- A pattern as a tree, with the classes that it refers to and the number of its groups. -/
structure PatternTree where
  tree : Regexp
  classes : List RuneClass
  groups : Nat

namespace PatternTree

/-- The tree of a pattern that parses without an error. -/
def parse (findCategory : Bytes → Option RuneClass) (pattern : Bytes) : Option PatternTree :=
  match regexpToPostfixRunes findCategory .extended pattern with
  | .error _ => none
  | .ok b =>
    (Regexp.ofPostfix [] b.postfixRunes).map fun tree => ⟨tree, b.runeClasses, b.numCaptures⟩

def engine (t : PatternTree) : RegexEngine := .compile t.tree.toPostfix t.classes t.groups

/-- The first runes of a view match, and the groups record the spans. -/
structure MatchesPrefix (t : PatternTree) (view : Bytes) (k : Nat) (spans : List (Option Nat)) :
    Prop where
  le : k ≤ (runes view).length
  records : t.tree.Records (.ofText t.classes view true) (offset view)
    (0, List.replicate (2 * t.groups) none) (k, spans)

/-- Where a group starts in the view, and its length. A group without a span is empty and at the
end, and a number that is not that of a group stands for the match. -/
def group (t : PatternTree) (view : Bytes) (k : Nat) (spans : List (Option Nat)) (index : Nat) :
    Nat × Nat :=
  if index = 0 ∨ t.groups < index then (0, offset view k)
  else match (spans[(index - 1) * 2]?).join with
    | none => (offset view k, 0)
    | some start =>
      let stop := ((spans[(index - 1) * 2 + 1]?).join).getD npos
      if stop < start then (offset view k, 0) else (start, stop - start)

end PatternTree

theorem RegexEngine.ofPattern_eq (h : PatternTree.parse findCategory pattern = some t) :
    RegexEngine.ofPattern findCategory pattern = t.engine := by
  unfold PatternTree.parse at h
  unfold RegexEngine.ofPattern
  cases hb : regexpToPostfixRunes findCategory .extended pattern with
  | error code =>
    rw [hb] at h
    cases h
  | ok b =>
    rw [hb] at h
    dsimp only at h ⊢
    obtain ⟨tree, htree, rfl⟩ := Option.map_eq_some_iff.1 h
    have htokens := Regexp.toPostfix_ofPostfix htree
    have hnil : Regexp.stackTokens [] = [] := rfl
    rw [hnil, List.nil_append] at htokens
    rw [PatternTree.engine, htokens]

theorem TRegex.init_compiled (t : PatternTree) : (TRegex.init t.engine).Compiled := by
  intro e he _
  exact ⟨t.tree.toPostfix, t.classes, t.groups, (Option.some.inj he).symm⟩

namespace PatternTree
variable {t : PatternTree} {view : Bytes} {index : Nat}

theorem MatchesPrefix.matches (h : t.MatchesPrefix view k spans) :
    t.tree.Matches (.ofText t.classes view true) 0 k :=
  h.records.matches

/-- The trees that a group of the given number may have matched. -/
def body (t : PatternTree) (index : Nat) : List Regexp :=
  if index = 0 then [t.tree] else t.tree.bodies (index - 1)

theorem offset_monotone (view : Bytes) : Monotone (offset view) := fun _ _ h => offset_mono view h

/-- A group stands for a match of its tree, or for nothing at the end of the match. -/
theorem MatchesPrefix.group (h : t.MatchesPrefix view k spans) (hindex : index ≤ t.groups)
    (hflat : ∀ q ∈ t.tree.bodies (index - 1), q.bodies (index - 1) = []) :
    (t.group view k spans index = (offset view k, 0) ∧ index ≠ 0 ∧
      t.tree.sets (index - 1) = false) ∨
    ∃ q ∈ t.body index, ∃ u v, q.Matches (.ofText t.classes view true) u v ∧ v ≤ k ∧
      t.group view k spans index = (offset view u, offset view v - offset view u) := by
  cases index with
  | zero =>
    refine .inr ⟨t.tree, List.mem_singleton_self _, 0, k, h.matches, Nat.le_refl k, ?_⟩
    rw [PatternTree.group, if_pos (.inl rfl)]
    rfl
  | succ i =>
    have heven : (List.replicate (2 * t.groups) (none : Option Nat)).length % 2 = 0 := by
      rw [List.length_replicate, Nat.mul_mod_right]
    have hlen : i * 2 < (List.replicate (2 * t.groups) (none : Option Nat)).length := by
      rw [List.length_replicate]
      omega
    have hstart : Regexp.FromGroup (.ofText t.classes view true) (offset view) i (t.tree.bodies i)
        (0, List.replicate (2 * t.groups) none) := by
      intro a ha
      cases List.eq_of_mem_replicate (List.mem_of_getElem? ha)
    have hfrom := h.records.fromGroup hflat (fun _ hq => hq) heven (offset_monotone view) hstart
    rw [PatternTree.group, if_neg (by omega), Nat.add_sub_cancel]
    cases hspan : (spans[i * 2]?).join with
    | none =>
      refine .inl ⟨rfl, Nat.succ_ne_zero i, Bool.eq_false_iff.2 fun hsets => ?_⟩
      obtain ⟨a, ha⟩ := h.records.sets hsets hlen heven (offset_monotone view)
      rw [Option.join_eq_some_iff.2 ha] at hspan
      cases hspan
    | some a =>
      obtain ⟨q, hq, u, v, hm, hv, rfl, hstop⟩ := hfrom a (Option.join_eq_some_iff.1 hspan)
      refine .inr ⟨q, hq, u, v, hm, hv, ?_⟩
      have hjoin : (spans[i * 2 + 1]?).join = some (offset view v) :=
        Option.join_eq_some_iff.2 hstop
      rw [hjoin]
      exact if_neg (Nat.not_lt.2 (offset_mono view hm.le))

theorem findPrefixWithContext_matches (ht : t.tree.WellFormed t.classes) (hok : t.engine.ok = true)
    (hctx : ctx.visited.Valid) (self : Nat)
    (h : (t.engine.findPrefixWithContext self view ctx true false).1 = some len) :
    ∃ k spans, t.MatchesPrefix view k spans ∧ len = offset view k ∧
      (t.engine.findPrefixWithContext self view ctx true false).2.1 =
        t.engine.readCaptures spans := by
  have hx := Input.shows_ofText t.classes view true
  have hready := RegexEngine.compile_ready hok
  have hgroups : t.engine.numCaptures = t.groups := RegexEngine.compile_numCaptures hok
  rcases Nat.eq_zero_or_pos t.engine.numCaptures with hn | hn
  · obtain ⟨k, hk, hlen, hactive⟩ := findPrefixWithContext_active hok rfl hx hctx self h
    have hmatches := (Pattern.active_accept_iff (p := some t.tree) ht hok rfl 0 k).1 hactive
    rw [Nat.zero_add] at hmatches
    obtain ⟨spans, hrecords⟩ := Regexp.Matches.records hmatches (offset view)
      (List.replicate (2 * t.groups) none)
    refine ⟨k, spans, ⟨hk, hrecords⟩, hlen, ?_⟩
    have hcond : (!t.engine.ok || t.engine.numCaptures == 0) = true := by
      rw [hn, beq_self_eq_true, Bool.or_true]
    unfold RegexEngine.findPrefixWithContext RegexEngine.readCaptures
    dsimp only
    rw [if_pos hcond, hn]
    rfl
  · obtain ⟨k, spans, passed, hk, hlen, hpath, -, hcaptures⟩ :=
      (findPrefixWithContext_spec hready rfl hn hx hctx self).1 len h
    have hrecords : t.tree.Records (.ofText t.classes view true) (offset view)
        (0, List.replicate (2 * t.engine.numCaptures) none) (0 + k, spans) :=
      (Pattern.records_iff (p := some t.tree) ht hok _ rfl _ _ _).1 (CaptureStep.records hpath)
    rw [Nat.zero_add, hgroups] at hrecords
    exact ⟨k, spans, ⟨hk, hrecords⟩, hlen, hcaptures⟩

theorem getElem?_matchLocations (view : Bytes) (source : SourceDef) (pos k : Nat) (spans : List (Option Nat))
    (hgroups : t.engine.numCaptures = t.groups) (index : Nat) :
    (TRegexMatch.matchLocations source pos (offset view k) (t.groups + 1)
      (t.engine.readCaptures spans))[if t.groups + 1 ≤ index then 0 else index]? = some
        { source := some source, pos := pos + (t.group view k spans index).1,
          len := (t.group view k spans index).2 } := by
  have hlen : (t.engine.readCaptures spans).length = t.groups := by
    rw [RegexEngine.readCaptures, List.length_map, List.length_range, hgroups]
  unfold group TRegexMatch.matchLocations
  dsimp only
  rw [hlen, Nat.add_sub_cancel, Nat.min_self, Nat.sub_self, List.replicate_zero, List.append_nil,
    ← hlen, List.take_length, hlen]
  by_cases hlast : t.groups + 1 ≤ index
  · rw [if_pos hlast, if_pos (.inr hlast), Nat.add_zero]
    rfl
  rw [if_neg hlast]
  cases index with
  | zero =>
    rw [if_pos (.inl rfl), Nat.add_zero]
    rfl
  | succ i =>
    have hlt : i < t.groups := by omega
    have hcapture : (t.engine.readCaptures spans)[i]? =
        some { start := (spans[i * 2]?).join, «end» := (spans[i * 2 + 1]?).join } := by
      rw [RegexEngine.readCaptures, List.getElem?_map, hgroups, List.getElem?_range hlt]
      rfl
    rw [if_neg (by omega), List.getElem?_cons_succ, List.getElem?_map, hcapture,
      Nat.add_sub_cancel, Option.map_some, TRegexMatch.captureLocation]
    dsimp only
    cases (spans[i * 2]?).join with
    | none => rfl
    | some start =>
      dsimp only
      split
      · rfl
      · rfl

theorem tryMatch_groups {re : SharedRegex} {m : TRegexMatch} (ht : t.tree.WellFormed t.classes)
    (hre : re.toTRegex = .init t.engine) (hm : m.ctx.visited.Valid) (source : SourceDef)
    (pos : Nat) (h : (m.tryMatch re view source pos).1 = true) :
    ∃ k spans, t.MatchesPrefix view k spans ∧ ∀ index,
      (m.tryMatch re view source pos).2.location index = some
        { source := some source, pos := pos + (t.group view k spans index).1,
          len := (t.group view k spans index).2 } := by
  have hsome := (TRegexMatch.tryMatch_fst m re view source pos).symm.trans h
  have hfind : re.findPrefix re.address view m.captures m.ctx = if !t.engine.ok then
      (none, m.captures, m.ctx) else
        t.engine.findPrefixWithContext re.address view m.ctx true false := by
    rw [hre]
    rfl
  have hcaptures : re.numCaptures = t.engine.numCaptures := by
    rw [hre]
    rfl
  cases hok : t.engine.ok with
  | false =>
    rw [hok] at hfind
    rw [hfind] at hsome
    cases hsome
  | true =>
    rw [hok, Bool.not_true, if_neg Bool.false_ne_true] at hfind
    have hgroups : t.engine.numCaptures = t.groups := RegexEngine.compile_numCaptures hok
    obtain ⟨len, hlen⟩ := Option.isSome_iff_exists.1 (hfind ▸ hsome)
    obtain ⟨k, spans, hmatches, rfl, hspans⟩ :=
      findPrefixWithContext_matches ht hok hm re.address hlen
    refine ⟨k, spans, hmatches, fun index => ?_⟩
    have hmatch := getElem?_matchLocations view source pos k spans hgroups index
    unfold TRegexMatch.tryMatch
    dsimp only
    rw [hfind, hcaptures, hgroups]
    generalize t.engine.findPrefixWithContext re.address view m.ctx true false = result at hlen hspans
    obtain ⟨found, captures, ctx⟩ := result
    cases hlen
    cases hspans
    dsimp only
    rw [TRegexMatch.location_eq]
    exact hmatch

theorem tryMatch_of_matches {re : SharedRegex} {m : TRegexMatch} (ht : t.tree.WellFormed t.classes)
    (hok : t.engine.ok = true) (hgroups : t.groups = 0) (hre : re.toTRegex = .init t.engine)
    (hm : m.ctx.visited.Valid) (source : SourceDef) (pos : Nat) (hk : k ≤ (runes view).length)
    (h : t.tree.Matches (.ofText t.classes view true) 0 k) :
    (m.tryMatch re view source pos).1 = true := by
  have hfits : ArenaFits t.engine (.ofText t.classes view true) 0 := by
    have hnum : t.engine.numCaptures = 0 := (RegexEngine.compile_numCaptures hok).trans hgroups
    rw [ArenaFits, hnum, Nat.mul_zero, Nat.zero_mul]
    exact Nat.zero_le _
  have hbest := findPrefixWithContext_best (RegexEngine.compile_ready hok) rfl
    (Input.shows_ofText t.classes view true) hm hfits re.address
  have hactive := (Pattern.active_accept_iff (p := some t.tree) ht hok (x := .ofText t.classes view
    true) rfl 0 k).2 ((Nat.zero_add k).symm ▸ h)
  rw [TRegexMatch.tryMatch_fst]
  have hfind : re.findPrefix re.address view m.captures m.ctx = if !t.engine.ok then
      (none, m.captures, m.ctx) else
        t.engine.findPrefixWithContext re.address view m.ctx true false := by
    rw [hre]
    rfl
  rw [hfind, hok, Bool.not_true, if_neg Bool.false_ne_true]
  cases hresult : (t.engine.findPrefixWithContext re.address view m.ctx true false).1 with
  | none =>
    have hnone := hbest
    unfold engine at hresult
    rw [hresult] at hnone
    exact absurd hactive (hnone k hk)
  | some len => rfl

end PatternTree

section MatchFirst
variable {regexes : List SharedRegex} {view : Bytes} {m : TRegexMatch} {index : Nat}

theorem TRegexMatch.tryInOrder_valid (regexes : List SharedRegex) (view : Bytes)
    (source : SourceDef) (pos : Nat) (indices : List Nat) (hm : m.ctx.visited.Valid) :
    (m.tryInOrder regexes view source pos indices).2.ctx.visited.Valid := by
  induction indices generalizing m with
  | nil => exact hm
  | cons index rest ih =>
    unfold tryInOrder
    split
    · exact ih hm
    · next re _ =>
      have hvalid := m.tryMatch_valid re view source pos hm
      split
      · next heq =>
        rw [heq] at hvalid
        exact hvalid
      · next heq =>
        rw [heq] at hvalid
        exact ih hvalid

namespace TRegexSet

theorem matchFirst_cons (regexes : List SharedRegex) (m : TRegexMatch) (first : UInt8)
    (rest : Bytes) (source : SourceDef) (pos : Nat) :
    (init regexes).matchFirst m (first :: rest) source pos =
      m.tryInOrder regexes (first :: rest) source pos ((init regexes).candidates first) := by
  have hregexes : (init regexes).regexes = regexes := regexes_foldl _ _
  rw [matchFirst, hregexes]

/-- What a set finds in a text that is not empty matches, with the locations of its match. -/
theorem matchFirst_found (hcompiled : ∀ re ∈ regexes, re.Compiled) (hm : m.ctx.visited.Valid)
    (hview : view ≠ []) (source : SourceDef) (pos : Nat) :
    ((init regexes).matchFirst m view source pos).2.ctx.visited.Valid ∧
      ∀ index, ((init regexes).matchFirst m view source pos).1 = some index →
        ∃ re, regexes[index]? = some re ∧
          (({} : TRegexMatch).tryMatch re view source pos).1 = true ∧
          ∀ i, ((init regexes).matchFirst m view source pos).2.location i =
            (({} : TRegexMatch).tryMatch re view source pos).2.location i := by
  obtain ⟨first, rest, rfl⟩ := List.exists_cons_of_ne_nil hview
  rw [matchFirst_cons]
  refine ⟨TRegexMatch.tryInOrder_valid _ _ _ _ _ hm, fun index hindex => ?_⟩
  obtain ⟨hfind, hlocations⟩ := TRegexMatch.tryInOrder_eq hcompiled (first :: rest) source pos
    ((init regexes).candidates first) hm
  obtain ⟨re, hre, hlocation⟩ := hlocations index hindex
  have haccepts := List.find?_some (hfind ▸ hindex)
  rw [TRegexMatch.accepts, hre] at haccepts
  exact ⟨re, hre, haccepts, hlocation⟩

/-- A set finds something in a text that is not empty, where a regex that can match the empty
text matches. -/
theorem matchFirst_isSome (hcompiled : ∀ re ∈ regexes, re.Compiled)
    (hlength : regexes.length ≤ 2 ^ 16) (hm : m.ctx.visited.Valid) (hview : view ≠ [])
    (source : SourceDef) (pos : Nat) (hre : regexes[index]? = some re)
    (hempty : re.firstCharInfo.canMatchEmpty = true)
    (hmatch : (({} : TRegexMatch).tryMatch re view source pos).1 = true) :
    ((init regexes).matchFirst m view source pos).1.isSome = true := by
  obtain ⟨first, rest, rfl⟩ := List.exists_cons_of_ne_nil hview
  have hcandidate : isCandidate re first = true := by rw [isCandidate, hempty, Bool.true_or]
  rw [matchFirst_cons, (TRegexMatch.tryInOrder_eq hcompiled (first :: rest) source pos
    ((init regexes).candidates first) hm).1, List.find?_isSome]
  refine ⟨index, mem_candidates hlength hre hcandidate, ?_⟩
  rw [TRegexMatch.accepts, hre]
  exact hmatch

end TRegexSet

end MatchFirst

end Trieste.Regex
