import Trieste.Regex.Groups

namespace Trieste.Regex
set_option autoImplicit true
open Library Relation

/-- A source that is consumed from the left. -/
structure TRegexIterator where
  contents : Bytes
  source : SourceDef
  pos : Nat := 0

/-- `consume_first_match` -/
def TRegexIterator.consumeFirstMatch (it : TRegexIterator) (m : TRegexMatch) (set : TRegexSet) :
    Option Nat × TRegexIterator × TRegexMatch :=
  match set.matchFirst m (it.contents.drop it.pos) it.source it.pos with
  | (none, m) => (none, it, m)
  | (some idx, m) => (some idx, { it with pos := it.pos + ((m.location 0).getD {}).len }, m)

/-- The regex has failed to compile, or its NFA accepts the empty text under some flags. -/
def MayMatchEmpty (re : TRegex) : Prop :=
  ∀ e, re.engine = some e → e.ok = true →
    ∃ flags, InClosure e.ownedStates flags e.startState acceptState

/-- The regex matches a text that is empty from its start to its end. -/
def MatchesEmpty (re : SharedRegex) : Prop :=
  (re.findPrefix re.address [] [] {}).1.isSome = true

namespace RegexEngine

theorem addFirstChars_empty (e : RegexEngine) (info : FirstCharInfo) (s : State)
    (h : (e.addFirstChars info s).canMatchEmpty = true) :
    info.canMatchEmpty = true ∨ s = acceptState := by
  unfold addFirstChars at h
  split at h
  · exact .inr ‹_›
  · split at h
    · exact .inl h
    · exact .inl h

theorem foldl_addFirstChars_empty (e : RegexEngine) (closure : List State) (info : FirstCharInfo)
    (h : (closure.foldl e.addFirstChars info).canMatchEmpty = true) :
    info.canMatchEmpty = true ∨ acceptState ∈ closure := by
  induction closure generalizing info with
  | nil => exact .inl h
  | cons s closure ih =>
    rcases ih (e.addFirstChars info s) h with hinfo | hmem
    · rcases e.addFirstChars_empty info s hinfo with hinfo | rfl
      · exact .inl hinfo
      · exact .inr (.head _)
    · exact .inr (.tail _ hmem)

theorem foldl_closures_empty (e : RegexEngine) (combos : List Nat) (info : FirstCharInfo)
    (h : (combos.foldl (fun info combo => (e.epsilonClosureCached e.startState
      (e.firstCharFlags combo)).foldl e.addFirstChars info) info).canMatchEmpty = true) :
    info.canMatchEmpty = true ∨
      ∃ combo, acceptState ∈ e.epsilonClosureCached e.startState (e.firstCharFlags combo) := by
  induction combos generalizing info with
  | nil => exact .inl h
  | cons combo combos ih =>
    rcases ih _ h with hinfo | hmem
    · rcases e.foldl_addFirstChars_empty _ info hinfo with hinfo | hmem
      · exact .inl hinfo
      · exact .inr ⟨combo, hmem⟩
    · exact .inr hmem

theorem firstCharFlags_eq (e : RegexEngine) (s : State) (combo : Nat) :
    e.epsilonClosureCached s (e.firstCharFlags combo) =
      e.epsilonClosureCached s (e.mask (flagsOf combo)) := by
  rcases e.mask_eq (flagsOf combo) with hmask | hmask
  · rw [hmask.2, firstCharFlags, hmask.1]
    rfl
  · simp only [epsilonClosureCached, hmask.1, Bool.false_eq_true, if_false]

theorem canMatchEmpty_iff {e : RegexEngine} (hready : e.Ready classes) :
    e.firstCharInfo.canMatchEmpty = true ↔
      ∃ flags, InClosure e.ownedStates flags e.startState acceptState := by
  constructor
  · intro h
    rw [firstCharInfo, hready.ok, Bool.not_true, if_neg Bool.false_ne_true] at h
    rcases e.foldl_closures_empty _ _ h with hno | hcombo
    · cases hno
    · obtain ⟨combo, hmem⟩ := hcombo
      rw [firstCharFlags_eq] at hmem
      exact ⟨flagsOf combo, (hready.cached _ _ _).1 hmem⟩
  · intro h
    obtain ⟨flags, hclosure⟩ := h
    exact (firstCharInfo_covers hready hclosure).empty rfl

end RegexEngine

theorem TRegex.canMatchEmpty_iff {re : TRegex} (hre : re.Compiled) :
    re.firstCharInfo.canMatchEmpty = true ↔ MayMatchEmpty re := by
  unfold TRegex.firstCharInfo MayMatchEmpty
  cases hengine : re.engine with
  | none =>
    constructor
    · intro _ e he
      cases he
    · intro _
      rfl
  | some e =>
    dsimp only
    cases hok : e.ok with
    | false =>
      constructor
      · intro _ e' he hok'
        cases he
        rw [hok] at hok'
        cases hok'
      · intro _
        rfl
    | true =>
      obtain ⟨tokens, classes, n, rfl⟩ := hre e hengine hok
      rw [Bool.not_true, if_neg Bool.false_ne_true,
        RegexEngine.canMatchEmpty_iff (RegexEngine.compile_ready hok)]
      constructor
      · intro h e' he _
        cases he
        exact h
      · intro h
        exact h _ rfl hok

section Empty
variable {m : TRegexMatch} {re : SharedRegex} {regexes : List SharedRegex}

theorem tryMatch_empty_iff (hre : re.Compiled) (hm : m.ctx.visited.Valid) (source : SourceDef)
    (offset : Nat) : (m.tryMatch re [] source offset).1 = true ↔ MatchesEmpty re := by
  have hfresh : ({} : TRegexMatch).ctx.visited.Valid := .fresh 0
  rw [(TRegexMatch.tryMatch_reuse hre hm hfresh [] source offset).1, TRegexMatch.tryMatch_fst]
  exact Iff.rfl

theorem mayMatchEmpty_of_matchesEmpty (hre : re.Compiled) (h : MatchesEmpty re) :
    MayMatchEmpty re.toTRegex := by
  have source : SourceDef := { address := 0, contents := "" }
  rw [← TRegex.canMatchEmpty_iff hre]
  exact TRegexSet.canMatchEmpty_of_tryMatch hre source 0
    ((tryMatch_empty_iff hre (.fresh 0) source 0).2 h)

theorem tryMatch_len (hre : re.Compiled) (hm : m.ctx.visited.Valid) (view : Bytes)
    (source : SourceDef) (pos : Nat) (h : (m.tryMatch re view source pos).1 = true) :
    ∃ l, (m.tryMatch re view source pos).2.location 0 = some l ∧ l.len ≤ view.length := by
  rw [TRegexMatch.tryMatch_fst] at h
  obtain ⟨len, hlen⟩ := Option.isSome_iff_exists.1 h
  have hle : len ≤ view.length := by
    have hfind := hlen
    unfold TRegex.findPrefix at hfind
    cases hengine : re.engine with
    | none =>
      rw [hengine] at hfind
      cases hfind
    | some e =>
      rw [hengine] at hfind
      dsimp only at hfind
      cases hok : e.ok with
      | false =>
        rw [hok] at hfind
        cases hfind
      | true =>
        obtain ⟨tokens, classes, n, rfl⟩ := hre e hengine hok
        rw [hok] at hfind
        obtain ⟨k, -, rfl, -⟩ := findPrefixWithContext_active hok rfl
          (Input.shows_ofText classes view true) hm re.address hfind
        exact offset_le view k
  unfold TRegexMatch.tryMatch
  dsimp only
  generalize re.findPrefix re.address view m.captures m.ctx = r at hlen
  obtain ⟨found, captures, ctx⟩ := r
  cases hlen
  dsimp only
  rw [TRegexMatch.location_eq]
  exact ⟨_, rfl, hle⟩

theorem emptyMatchIndex_found {i : Nat} (hcompiled : ∀ re ∈ regexes, re.Compiled)
    (h : (TRegexSet.init regexes).emptyMatchIndex = some i) :
    ∃ re, regexes[i]? = some re ∧ MayMatchEmpty re.toTRegex := by
  rw [TRegexSet.init, TRegexSet.emptyMatchIndex_foldl, Option.none_or, Option.map_eq_some_iff] at h
  obtain ⟨entry, hfound, rfl⟩ := h
  have hentry := List.mem_zipIdx_iff_getElem?.1 (List.mem_of_find?_eq_some hfound)
  refine ⟨entry.1, hentry, ?_⟩
  rw [← TRegex.canMatchEmpty_iff (hcompiled _ (List.mem_of_getElem? hentry))]
  exact List.find?_some (p := fun entry : SharedRegex × Nat => entry.1.firstCharInfo.canMatchEmpty)
    hfound

theorem emptyMatchIndex_le_of_may {i : Nat} (hcompiled : ∀ re ∈ regexes, re.Compiled)
    (hre : regexes[i]? = some re) (h : MayMatchEmpty re.toTRegex) :
    ∃ j, j ≤ i ∧ (TRegexSet.init regexes).emptyMatchIndex = some j :=
  TRegexSet.emptyMatchIndex_le hre
    ((TRegex.canMatchEmpty_iff (hcompiled re (List.mem_of_getElem? hre))).2 h)

theorem matchFirst_empty_fst (regexes : List SharedRegex) (m : TRegexMatch) (source : SourceDef)
    (offset : Nat) : ((TRegexSet.init regexes).matchFirst m [] source offset).1 =
      (TRegexSet.init regexes).emptyMatchIndex := by
  unfold TRegexSet.matchFirst
  dsimp only
  cases (TRegexSet.init regexes).emptyMatchIndex with
  | none => rfl
  | some index =>
    dsimp only
    cases (TRegexSet.init regexes).regexes[index]? with
    | none => rfl
    | some re => rfl

theorem matchFirst_empty_snd {i : Nat} (m : TRegexMatch) (source : SourceDef) (offset : Nat)
    (h : (TRegexSet.init regexes).emptyMatchIndex = some i) (hre : regexes[i]? = some re) :
    ((TRegexSet.init regexes).matchFirst m [] source offset).2 =
      (m.tryMatch re [] source offset).2 := by
  have hregexes : (TRegexSet.init regexes).regexes = regexes := TRegexSet.regexes_foldl _ _
  unfold TRegexSet.matchFirst
  dsimp only
  rw [h, hregexes]
  dsimp only
  rw [hre]

def emptyMatches (regexes : List SharedRegex) : Set Nat :=
  { i | ∃ re, regexes[i]? = some re ∧ MatchesEmpty re }

/-- The first regex that matches an empty text is found, with an empty match, and a source is not
consumed beyond its end. -/
structure FindsEmpty (regexes : List SharedRegex) (m : TRegexMatch) : Prop where
  least : ∀ source offset i, ((TRegexSet.init regexes).matchFirst m [] source offset).1 = some i ↔
    IsLeast (emptyMatches regexes) i
  none : ∀ source offset, ((TRegexSet.init regexes).matchFirst m [] source offset).1 = none ↔
    emptyMatches regexes = ∅
  empty : ∀ source offset i,
    ((TRegexSet.init regexes).matchFirst m [] source offset).1 = some i →
      ∃ l, ((TRegexSet.init regexes).matchFirst m [] source offset).2.location 0 = some l ∧
        l.len = 0
  inside : ∀ it : TRegexIterator, it.pos ≤ it.contents.length →
    (it.consumeFirstMatch m (.init regexes)).2.1.pos ≤ it.contents.length

/-- No regex that may match an empty text comes before all those that do. -/
def MatchesFirst (regexes : List SharedRegex) : Prop :=
  ∀ i re, regexes[i]? = some re → MayMatchEmpty re.toTRegex →
    ∃ j ∈ emptyMatches regexes, j ≤ i

theorem MatchesFirst.index (h : MatchesFirst regexes) (hcompiled : ∀ re ∈ regexes, re.Compiled)
    (hi : (TRegexSet.init regexes).emptyMatchIndex = some i) :
    IsLeast (emptyMatches regexes) i := by
  have hbelow : ∀ j ∈ emptyMatches regexes, i ≤ j := by
    intro j hj
    obtain ⟨re, hre, hmatch⟩ := hj
    obtain ⟨i', hle, hi'⟩ := emptyMatchIndex_le_of_may hcompiled hre
      (mayMatchEmpty_of_matchesEmpty (hcompiled re (List.mem_of_getElem? hre)) hmatch)
    obtain rfl : i = i' := Option.some.inj (hi.symm.trans hi')
    exact hle
  obtain ⟨re, hre, hmay⟩ := emptyMatchIndex_found hcompiled hi
  obtain ⟨j, hj, hle⟩ := h i re hre hmay
  rw [Nat.le_antisymm hle (hbelow j hj)] at hj
  exact ⟨hj, hbelow⟩

theorem MatchesFirst.index_iff (h : MatchesFirst regexes) (hcompiled : ∀ re ∈ regexes, re.Compiled)
    (i : Nat) : (TRegexSet.init regexes).emptyMatchIndex = some i ↔
      IsLeast (emptyMatches regexes) i := by
  constructor
  · exact h.index hcompiled
  · intro hleast
    obtain ⟨re, hre, hmatch⟩ := hleast.1
    obtain ⟨j, -, hj⟩ := emptyMatchIndex_le_of_may hcompiled hre
      (mayMatchEmpty_of_matchesEmpty (hcompiled re (List.mem_of_getElem? hre)) hmatch)
    rw [hleast.unique (h.index hcompiled hj)]
    exact hj

theorem consumeFirstMatch_pos (it : TRegexIterator) (m : TRegexMatch) (set : TRegexSet)
    (hpos : it.pos ≤ it.contents.length)
    (h : ∀ i, (set.matchFirst m (it.contents.drop it.pos) it.source it.pos).1 = some i →
      ∃ l, (set.matchFirst m (it.contents.drop it.pos) it.source it.pos).2.location 0 = some l ∧
        l.len ≤ (it.contents.drop it.pos).length) :
    (it.consumeFirstMatch m set).2.1.pos ≤ it.contents.length := by
  unfold TRegexIterator.consumeFirstMatch
  generalize set.matchFirst m (it.contents.drop it.pos) it.source it.pos = result at h
  obtain ⟨found, m'⟩ := result
  cases found with
  | none => exact hpos
  | some i =>
    obtain ⟨l, hl, hle⟩ := h i rfl
    dsimp only at hl ⊢
    rw [hl, Option.getD_some]
    rw [List.length_drop] at hle
    omega

/-- An empty text is matched as it should be if and only if no regex that has failed to compile, or
that matches an empty text elsewhere, comes before all those that match it. -/
theorem findsEmpty_iff (hcompiled : ∀ re ∈ regexes, re.Compiled)
    (hm : MatchContext.LeftOver m.ctx) : FindsEmpty regexes m ↔ MatchesFirst regexes := by
  constructor
  · intro hfinds i re hre hmay
    obtain ⟨j, hle, hj⟩ := emptyMatchIndex_le_of_may hcompiled hre hmay
    have source : SourceDef := { address := 0, contents := "" }
    have hleast := (hfinds.least source 0 j).1 ((matchFirst_empty_fst regexes m source 0).trans hj)
    exact ⟨j, hleast.1, hle⟩
  · intro hfirst
    have hempty : ∀ source offset i,
        ((TRegexSet.init regexes).matchFirst m [] source offset).1 = some i →
          ∃ l, ((TRegexSet.init regexes).matchFirst m [] source offset).2.location 0 = some l ∧
            l.len = 0 := by
      intro source offset i hi
      rw [matchFirst_empty_fst] at hi
      obtain ⟨re, hre, hmatch⟩ := (hfirst.index hcompiled hi).1
      have hre' := hcompiled re (List.mem_of_getElem? hre)
      obtain ⟨l, hl, hle⟩ := tryMatch_len hre' hm.valid [] source offset
        ((tryMatch_empty_iff hre' hm.valid source offset).2 hmatch)
      rw [matchFirst_empty_snd m source offset hi hre]
      exact ⟨l, hl, Nat.le_zero.1 hle⟩
    refine ⟨fun source offset i => ?_, fun source offset => ?_, hempty, fun it hpos => ?_⟩
    · rw [matchFirst_empty_fst, hfirst.index_iff hcompiled]
    · rw [matchFirst_empty_fst, Set.eq_empty_iff_forall_notMem]
      constructor
      · intro hnone i hi
        obtain ⟨re, hre, hmatch⟩ := hi
        obtain ⟨j, -, hj⟩ := emptyMatchIndex_le_of_may hcompiled hre
          (mayMatchEmpty_of_matchesEmpty (hcompiled re (List.mem_of_getElem? hre)) hmatch)
        rw [hnone] at hj
        cases hj
      · intro hno
        cases hi : (TRegexSet.init regexes).emptyMatchIndex with
        | none => rfl
        | some i => exact absurd (hfirst.index hcompiled hi).1 (hno i)
    · apply consumeFirstMatch_pos it m _ hpos
      intro i hi
      by_cases hview : it.contents.drop it.pos = []
      · rw [hview] at hi ⊢
        obtain ⟨l, hl, hlen⟩ := hempty _ _ _ hi
        exact ⟨l, hl, Nat.le_of_eq hlen⟩
      · obtain ⟨re, hre, hmatch, hlocation⟩ :=
          (TRegexSet.matchFirst_found hcompiled hm.valid hview it.source it.pos).2 i hi
        rw [hlocation]
        exact tryMatch_len (hcompiled re (List.mem_of_getElem? hre)) (.fresh 0) _ _ _ hmatch

end Empty

/-- `b*` -/
def starred : SharedRegex := { TRegex.init (.compile [0x62, zeroOrMore] [] 0) with address := 2 }

/-- What is left of a match of `a`. -/
def afterMatch : TRegexMatch :=
  (({} : TRegexMatch).tryMatch (TRegexSet.single 0x61) [0x61] { address := 1, contents := "a" } 0).2

theorem findsEmpty_starred : FindsEmpty [TRegexSet.single 0x61, starred] afterMatch := by
  have hcompiled : ∀ re ∈ [TRegexSet.single 0x61, starred], re.Compiled := by
    intro re hre
    rcases List.mem_pair.1 hre with rfl | rfl
    · exact TRegexSet.single_compiled 0x61
    · exact fun e he _ => ⟨_, _, _, (Option.some.inj he).symm⟩
  have hctx : MatchContext.LeftOver afterMatch.ctx :=
    MatchContext.LeftOver.fresh.findPrefixWithContext (.compile [0x61] [] 0) 0x61 [0x61] true false
  refine (findsEmpty_iff hcompiled hctx).2 fun i re hre hmay => ?_
  have hstarred : MatchesEmpty starred := by unfold MatchesEmpty; decide +kernel
  cases i with
  | zero =>
    cases hre
    rw [← TRegex.canMatchEmpty_iff (TRegexSet.single_compiled 0x61)] at hmay
    exact absurd hmay (by decide +kernel)
  | succ i => exact ⟨1, ⟨starred, rfl, hstarred⟩, Nat.le_add_left 1 i⟩
/-- A word boundary, which an empty text does not have. -/
def boundary : SharedRegex := { TRegex.init (.compile [wordBoundary] [] 0) with address := 0 }

/-- A word boundary is found at the end of the text `a`, and the iterator goes on by the length of
the match before. -/
theorem boundary_found :
    let source : SourceDef := { address := 1, contents := "a" }
    let set := TRegexSet.init [TRegexSet.single 0x61, boundary]
    let first := TRegexIterator.consumeFirstMatch ⟨[0x61], source, 0⟩ {} set
    let second := first.2.1.consumeFirstMatch first.2.2 set
    (first.1 = some 0 ∧ first.2.1.pos = 1) ∧ (second.1 = some 1 ∧ second.2.1.pos = 2) ∧
      ¬ FindsEmpty [TRegexSet.single 0x61, boundary] first.2.2 := by
  intro source set first second
  have hfirst : first.1 = some 0 ∧ first.2.1.pos = 1 := by decide +kernel
  have hsecond : second.1 = some 1 ∧ second.2.1.pos = 2 := by decide +kernel
  refine ⟨hfirst, hsecond, fun hfinds => ?_⟩
  have hinside := hfinds.inside first.2.1 (Nat.le_of_eq hfirst.2)
  have hpos : second.2.1.pos ≤ 1 := hinside
  rw [hsecond.2] at hpos
  exact absurd hpos (by decide)

end Trieste.Regex
