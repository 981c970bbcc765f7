import Trieste.Regex.Active
import Trieste.Regex.Context

namespace Trieste.Regex
set_option autoImplicit true
open Library Relation

/-- The states that count as visited are in the list. -/
structure Tracks (e : RegexEngine) (states : List State) (ctx : MatchContext) : Prop where
  visited : ∀ t, t < e.ownedStates.length → ctx.isVisited t = true → t ∈ states
  valid : ctx.visited.Valid
  bitset : ctx.useBitset = true → e.ownedStates.length ≤ MatchContext.bitsetMaxStates

theorem Tracks.cleared (e : RegexEngine) {ctx : MatchContext} (hv : ctx.visited.Valid)
    (hb : ctx.useBitset = true → e.ownedStates.length ≤ MatchContext.bitsetMaxStates) :
    Tracks e [] ctx.clearVisited := by
  cases hu : ctx.useBitset with
  | true =>
    have hc : ctx.clearVisited = ctx.clearVisitedBitset := if_pos hu
    rw [hc]
    refine ⟨fun t _ ht => ?_, hv, hb⟩
    simp only [MatchContext.isVisited, MatchContext.clearVisitedBitset, hu, if_true,
      Bitmap.test_empty, Bool.false_eq_true] at ht
  | false =>
    have hc : ctx.clearVisited = ctx.advanceEpoch := if_neg (by simp [hu])
    rw [hc]
    refine ⟨fun t _ ht => ?_, hv.advance, hb⟩
    simp only [MatchContext.isVisited, MatchContext.advanceEpoch, hu, Bool.false_eq_true, if_false,
      hv.contains_advance] at ht

theorem alreadyVisited_bitset {ctx : MatchContext} (hs : ctx.isVisited s = false)
    (hu : ctx.useBitset = true) :
    ctx.alreadyVisited s = (false, { ctx with visitedBits := ctx.visitedBits.set s }) := by
  rw [MatchContext.alreadyVisited, hs, if_neg Bool.false_ne_true, if_pos hu]

theorem alreadyVisited_epoch {ctx : MatchContext} (hs : ctx.isVisited s = false)
    (hu : ctx.useBitset = false) : ctx.alreadyVisited s = (false, ctx.markVisited s) := by
  rw [MatchContext.alreadyVisited, hs, if_neg Bool.false_ne_true, hu, if_neg Bool.false_ne_true]

theorem isVisited_alreadyVisited {ctx : MatchContext} (hs : ctx.isVisited s = false)
    (hb : ctx.useBitset = true → s < 128 ∧ t < 128)
    (h : (ctx.alreadyVisited s).2.isVisited t = true) : t = s ∨ ctx.isVisited t = true := by
  cases hu : ctx.useBitset with
  | true =>
    obtain ⟨hs', ht'⟩ := hb hu
    rw [alreadyVisited_bitset hs hu] at h
    simp only [MatchContext.isVisited, hu, if_true, Bitmap.test_set _ hs' ht', Bool.or_eq_true,
      decide_eq_true_eq] at h ⊢
    exact h.imp_left Eq.symm
  | false =>
    rw [alreadyVisited_epoch hs hu] at h
    simp only [MatchContext.isVisited, MatchContext.markVisited, hu, Bool.false_eq_true, if_false,
      EpochSet.contains_insert, Bool.or_eq_true, decide_eq_true_eq] at h ⊢
    exact h.imp_left fun h => h.1.symm

/-- A terminal ends up in the list, and nothing else is added. -/
theorem Tracks.addTerminal (h : Tracks e states ctx) (ht : t < e.ownedStates.length) :
    Tracks e (RegexEngine.addTerminal (states, ctx) t).1
        (RegexEngine.addTerminal (states, ctx) t).2 ∧
      ∀ u, u ∈ (RegexEngine.addTerminal (states, ctx) t).1 ↔ u ∈ states ∨ u = t := by
  cases hv : ctx.isVisited t with
  | true =>
    have ha : ctx.alreadyVisited t = (true, ctx) := if_pos hv
    have hmem := h.visited t ht hv
    simp only [RegexEngine.addTerminal, ha]
    exact ⟨h, fun u => ⟨.inl, fun hu => hu.elim id fun hu => hu ▸ hmem⟩⟩
  | false =>
    have ha : ctx.alreadyVisited t = (false, (ctx.alreadyVisited t).2) := by
      cases hu : ctx.useBitset <;> simp [MatchContext.alreadyVisited, hv, hu]
    have hbits : (ctx.alreadyVisited t).2.useBitset = ctx.useBitset := by
      cases hu : ctx.useBitset <;> simp [MatchContext.alreadyVisited, hv, hu,
        MatchContext.markVisited]
    unfold RegexEngine.addTerminal
    rw [ha]
    refine ⟨⟨fun u hu hvis => ?_, MatchContext.alreadyVisited_valid h.valid t,
      fun hb => h.bitset (hbits ▸ hb)⟩, fun u => by simp⟩
    have hlt : ctx.useBitset = true → t < 128 ∧ u < 128 := fun hb =>
      ⟨ht.trans_le (h.bitset hb), hu.trans_le (h.bitset hb)⟩
    rcases isVisited_alreadyVisited hv hlt hvis with rfl | hvis
    · exact List.mem_append_right _ (List.mem_singleton_self u)
    · exact List.mem_append_left _ (h.visited u hu hvis)

theorem Tracks.foldl_addTerminal (h : Tracks e states ctx) (closure : List State)
    (hlt : ∀ t ∈ closure, t < e.ownedStates.length) :
    Tracks e (closure.foldl RegexEngine.addTerminal (states, ctx)).1
        (closure.foldl RegexEngine.addTerminal (states, ctx)).2 ∧
      ∀ u, u ∈ (closure.foldl RegexEngine.addTerminal (states, ctx)).1 ↔
        u ∈ states ∨ u ∈ closure := by
  induction closure generalizing states ctx with
  | nil => exact ⟨h, fun u => by simp⟩
  | cons t closure ih =>
    obtain ⟨htracks, hmem⟩ := h.addTerminal (hlt t List.mem_cons_self)
    obtain ⟨htracks', hmem'⟩ := ih htracks fun u hu => hlt u (List.mem_cons_of_mem t hu)
    refine ⟨htracks', fun u => (hmem' u).trans ?_⟩
    rw [hmem, List.mem_cons, or_assoc]

theorem InClosure.target_lt (h : InClosure states flags s t) : t < states.length := by
  obtain ⟨_, d, hd, _⟩ := h
  exact (List.getElem?_eq_some_iff.1 hd).1

/-- `add_state` adds the closure of the state. -/
theorem Tracks.addState (hready : e.Ready classes) (h : Tracks e states ctx) (s : Option State)
    (flags : Flags) :
    Tracks e (e.addState states s ctx (e.mask flags)).1
        (e.addState states s ctx (e.mask flags)).2 ∧
      ∀ u, u ∈ (e.addState states s ctx (e.mask flags)).1 ↔
        u ∈ states ∨ ∃ t, s = some t ∧ InClosure e.ownedStates flags t u := by
  cases s with
  | none => exact ⟨h, fun u => by simp [RegexEngine.addState]⟩
  | some s =>
    cases htriv : (e.ownedStates[s]?).any fun d => d.trivialClosure with
    | true =>
      obtain ⟨d, hd, hd'⟩ : ∃ d, e.ownedStates[s]? = some d ∧ d.trivialClosure = true := by
        simpa [Option.any_eq_true] using htriv
      obtain ⟨htracks, hmem⟩ := h.addTerminal (List.getElem?_eq_some_iff.1 hd).1
      simp only [RegexEngine.addState, htriv, if_true]
      refine ⟨htracks, fun u => (hmem u).trans ?_⟩
      simp [hready.closed s d hd hd' flags u]
    | false =>
      obtain ⟨htracks, hmem⟩ := h.foldl_addTerminal (e.epsilonClosureCached s (e.mask flags))
        fun t ht => ((hready.cached s flags t).1 ht).target_lt
      simp only [RegexEngine.addState, htriv, Bool.false_eq_true, if_false]
      refine ⟨htracks, fun u => (hmem u).trans ?_⟩
      simp [hready.cached s flags u]

theorem startList_spec (hready : e.Ready classes) (hv : ctx.visited.Valid)
    (hb : ctx.useBitset = true → e.ownedStates.length ≤ MatchContext.bitsetMaxStates)
    (flags : Flags) :
    Tracks e (e.startList ctx (e.mask flags)).1 (e.startList ctx (e.mask flags)).2 ∧
      ∀ u, u ∈ (e.startList ctx (e.mask flags)).1 ↔
        InClosure e.ownedStates flags e.startState u := by
  obtain ⟨htracks, hmem⟩ := (Tracks.cleared e hv hb).addState hready (some e.startState) flags
  exact ⟨htracks, fun u => (hmem u).trans (by simp)⟩

/-- A state of the list that consumes the rune leads to the closure of its successor. -/
def Successor (e : RegexEngine) (classes : List RuneClass) (current : List State) (rune : Nat)
    (flags : Flags) (u : State) : Prop :=
  ∃ s ∈ current, ∃ d t, e.ownedStates[s]? = some d ∧ accepts classes d.label rune = true ∧
    d.next = some t ∧ InClosure e.ownedStates flags t u

theorem step_spec (hready : e.Ready classes) (hv : ctx.visited.Valid)
    (hb : ctx.useBitset = true → e.ownedStates.length ≤ MatchContext.bitsetMaxStates)
    (current : List State) (rune : Nat) (flags : Flags) :
    Tracks e (e.step current rune ctx (e.mask flags)).1
        (e.step current rune ctx (e.mask flags)).2 ∧
      ∀ u, u ∈ (e.step current rune ctx (e.mask flags)).1 ↔
        Successor e classes current rune flags u := by
  induction current using List.reverseRecOn with
  | nil => exact ⟨.cleared e hv hb, fun u => by simp [RegexEngine.step, Successor]⟩
  | append_singleton current s ih =>
    obtain ⟨htracks, hmem⟩ := ih
    have hsplit : ∀ u, Successor e classes (current ++ [s]) rune flags u ↔
        Successor e classes current rune flags u ∨ ∃ d t, e.ownedStates[s]? = some d ∧
          accepts classes d.label rune = true ∧ d.next = some t ∧
          InClosure e.ownedStates flags t u := fun u => by
      simp only [Successor, List.mem_append, List.mem_singleton, or_and_right, exists_or,
        exists_eq_left]
    have hstep : e.step (current ++ [s]) rune ctx (e.mask flags) = e.stepState rune (e.mask flags)
        (e.step current rune ctx (e.mask flags)) s := List.foldl_append
    simp only [hstep, RegexEngine.stepState, hsplit]
    cases hd : e.ownedStates[s]? with
    | none => exact ⟨htracks, fun u => by simp [hmem]⟩
    | some d =>
      simp only [hready.consumes d rune (List.mem_of_getElem? hd), Option.some.injEq]
      cases ha : accepts classes d.label rune with
      | true =>
        obtain ⟨htracks', hmem'⟩ := htracks.addState hready d.next flags
        refine ⟨htracks', fun u => (hmem' u).trans ?_⟩
        simp [hmem, ha]
      | false => exact ⟨htracks, fun u => by simp [hmem, ha]⟩

theorem isMatch_iff (hcur : ∀ u, u ∈ current ↔ Active e x b k u) :
    RegexEngine.isMatch current = true ↔ Active e x b k acceptState := by
  rw [RegexEngine.isMatch, List.contains_iff_mem, hcur]

section Loop
variable {e : RegexEngine} {classes : List RuneClass} {x : Input} {s : List UInt8}
  {atStart prevIsWord : Bool}

theorem flagsAt_eq (e : RegexEngine) (hx : x.Shows b s atStart prevIsWord)
    (hk : k ≤ (runes s).length)
    (hword : e.hasConditionals = true → word = x.wordBefore (b + k)) :
    e.flagsAt s (offset s k) word (e.nextIsWord (nextRune s (offset s k))) (atStart && k == 0) =
      e.mask (x.flagsAt (b + k)) := by
  cases hc : e.hasConditionals with
  | true =>
    simp only [RegexEngine.flagsAt, RegexEngine.nextIsWord, RegexEngine.mask, hc, Bool.true_and,
      Input.flagsAt, Input.boundary, hword hc, hx.wordAt, hx.startsAt, hx.endsAt hk]
  | false => simp only [RegexEngine.flagsAt, RegexEngine.mask, hc, Bool.false_and]

theorem prefixLoop_best (hready : e.Ready classes) (hclasses : x.classes = classes)
    (hx : x.Shows b s atStart prevIsWord) (hfuel : s.length ≤ offset s k + fuel)
    (hk : k ≤ (runes s).length) (htracks : Tracks e current ctx)
    (hcur : ∀ u, u ∈ current ↔ Active e x b k u)
    (hbest : Best (Active e x b · acceptState) s k best)
    (hword : e.hasConditionals = true → word = x.wordAt (b + k)) :
    Best (Active e x b · acceptState) s (runes s).length
      (e.prefixLoop s fuel current ctx (offset s k) (nextRune s (offset s k)) word best).1 := by
  induction fuel generalizing k current ctx word best with
  | zero =>
    have hlen := (length_le_offset_iff s k).1 hfuel
    obtain rfl : k = (runes s).length := Nat.le_antisymm hk hlen
    exact hbest
  | succ fuel ih =>
    cases hnext : nextRune s (offset s k) with
    | none =>
      have hlen := (length_le_offset_iff s k).1 (nextRune_eq_none_iff.1 hnext)
      obtain rfl : k = (runes s).length := Nat.le_antisymm hk hlen
      exact hbest
    | some next =>
      obtain ⟨rune, bytes⟩ := next
      have hrune : (runes s)[k]? = some rune := by rw [getElem?_runes, hnext]; rfl
      have hk' : k + 1 ≤ (runes s).length := (List.getElem?_eq_some_iff.1 hrune).1
      have hrune' : x.runes[b + k]? = some rune := (hx.runes k).trans hrune
      have hoffset := offset_succ hnext
      obtain ⟨_, hbytes⟩ := nextRune_pos hnext
      unfold RegexEngine.prefixLoop
      split
      · next hempty =>
        refine hbest.extend hk fun k' hlt _ hm => ?_
        have hnone : ∀ u, ¬ Active e x b k u := fun u hu => by
          have := (hcur u).2 hu
          rw [hempty] at this
          exact List.not_mem_nil this
        exact not_active_of_le hnone hlt.le _ hm
      · dsimp only
        have hflags := flagsAt_eq e hx hk' hword
        have hstart : (atStart && k + 1 == 0) = false := Bool.and_false atStart
        rw [hstart] at hflags
        rw [← hoffset, hflags]
        have hword' : e.hasConditionals = true →
            e.nextIsWord (nextRune s (offset s (k + 1))) = x.wordAt (b + (k + 1)) := by
          intro hc
          rw [RegexEngine.nextIsWord, hc, Bool.true_and, hx.wordAt]
        obtain ⟨htracks', hmem⟩ := step_spec hready htracks.valid htracks.bitset current rune
          (x.flagsAt (b + (k + 1)))
        have hcur' : ∀ u, u ∈ (e.step current rune ctx (e.mask (x.flagsAt (b + (k + 1))))).1 ↔
            Active e x b (k + 1) u := by
          intro u
          rw [hmem]
          constructor
          · intro h
            obtain ⟨q, hq, d, t, hd, ha, hnext', ht⟩ := h
            exact ⟨t, ⟨q, d, rune, (hcur q).1 hq, hd, hrune', hclasses ▸ ha, hnext'⟩, ht⟩
          · intro h
            obtain ⟨t, ⟨q, d, rune', hq, hd, hrune'', ha, hnext'⟩, ht⟩ := h
            obtain rfl : rune' = rune := Option.some.inj (hrune''.symm.trans hrune')
            exact ⟨q, (hcur q).2 hq, d, t, hd, hclasses ▸ ha, hnext', ht⟩
        exact ih (by omega) hk' htracks' hcur' (hbest.next _ (isMatch_iff hcur')) hword'

end Loop

/-- The longest match of the NFA, after whatever rune the context says. -/
theorem findPrefixNoncapturing_best {e : RegexEngine} {x : Input} (hready : e.Ready classes)
    (hclasses : x.classes = classes) (hx : x.Shows b s atStart prevIsWord)
    (hvisited : ctx.visited.Valid) (self : Nat) :
    Best (Active e x b · acceptState) s (runes s).length
      (e.findPrefixNoncapturing self s ctx atStart prevIsWord).1 := by
  have hv := MatchContext.bindEngine_valid hvisited self e.stateCount
  have hb : (ctx.bindEngine self e.stateCount).useBitset = true →
      e.ownedStates.length ≤ MatchContext.bitsetMaxStates := by
    intro h
    have hu : (ctx.bindEngine self e.stateCount).useBitset =
        decide (e.stateCount ≤ MatchContext.bitsetMaxStates) := by
      simp only [MatchContext.bindEngine, MatchContext.ensureVisitedCapacity]
      split
      · rfl
      · split <;> rfl
    rw [hu, decide_eq_true_eq, hready.stateCount] at h
    exact h
  have hflags : e.flagsAt s 0 prevIsWord (e.nextIsWord (nextRune s 0)) atStart =
      e.mask (x.flagsAt b) := by
    have h := flagsAt_eq e hx (Nat.zero_le _) fun _ => hx.wordBefore.symm
    rwa [beq_self_eq_true, Bool.and_true] at h
  obtain ⟨htracks, hmem⟩ := startList_spec hready hv hb (x.flagsAt b)
  have hcur : ∀ u, u ∈ (e.startList (ctx.bindEngine self e.stateCount)
        (e.mask (x.flagsAt b))).1 ↔ Active e x b 0 u := by
    intro u
    rw [hmem]
    constructor
    · intro h
      exact ⟨e.startState, rfl, h⟩
    · intro h
      obtain ⟨t, rfl, h⟩ := h
      exact h
  have hbest : Best (Active e x b · acceptState) s 0 _ := .first s _ (isMatch_iff hcur)
  have hword : e.hasConditionals = true → e.nextIsWord (nextRune s 0) = x.wordAt (b + 0) := by
    intro hc
    rw [RegexEngine.nextIsWord, hc, Bool.true_and, hx.wordAt]
    rfl
  simp only [RegexEngine.findPrefixNoncapturing, hready.ok, Bool.not_true,
    Bool.false_eq_true, if_false, hflags]
  exact prefixLoop_best hready hclasses hx (Nat.le_add_left ..) (Nat.zero_le _) htracks hcur
    hbest hword

theorem findPrefix_best {e : RegexEngine} (hsound : e.Sound classes r)
    (hctx : MatchContext.LeftOver ctx) (self : Nat) (s : List UInt8) (atStart : Bool) :
    Best (r.Matches (Input.ofText classes s atStart) 0) s (runes s).length
      (e.findPrefix self s ctx atStart).1 := by
  have hbest := findPrefixNoncapturing_best hsound.toReady rfl
    (Input.shows_ofText classes s atStart) hctx.valid self
  refine hbest.congr fun k => ?_
  rw [active_accept_iff hsound rfl, Nat.zero_add]

/-- The offsets of the prefixes of the text that are in the language of the regex. -/
def Prefixes (x : Input) (s : List UInt8) (r : Regexp) : Set Nat :=
  { n | ∃ k, k ≤ x.runes.length ∧ offset s k = n ∧ r.Matches x 0 k }

theorem Regexp.wellFormed_greedy (classes : List RuneClass) (r : Regexp) :
    r.greedy.WellFormed classes ↔ r.WellFormed classes := by
  induction r with
  | literal | classRef | startAnchor | endAnchor | wordBoundary => rfl
  | cat p q ihp ihq | alt p q ihp ihq => exact and_congr ihp ihq
  | zeroOrOne _ p ih | zeroOrMore _ p ih | oneOrMore _ p ih => exact ih
  | capture _ p ih => exact and_congr_right fun _ => ih

/-- With a context left over from any calls, `find_prefix` returns the offset of the longest prefix
of the text in the language of the regex, whichever of its quantifiers are lazy. -/
theorem RegexEngine.findPrefix_longest (hr : r.WellFormed classes)
    (hok : (compile r.toPostfix classes captures).ok = true) (hctx : MatchContext.LeftOver ctx)
    (self : Nat) (s : List UInt8) (atStart : Bool) :
    (∀ n, ((compile r.toPostfix classes captures).findPrefix self s ctx atStart).1 = some n ↔
      IsGreatest (Prefixes (Input.ofText classes s atStart) s r) n) ∧
    (((compile r.toPostfix classes captures).findPrefix self s ctx atStart).1 = none ↔
      Prefixes (Input.ofText classes s atStart) s r = ∅) ∧
    ∀ (r' : Regexp) (captures' self' : Nat) (ctx' : MatchContext), r'.greedy = r.greedy →
      (compile r'.toPostfix classes captures').ok = true → MatchContext.LeftOver ctx' →
      ((compile r'.toPostfix classes captures').findPrefix self' s ctx' atStart).1 =
        ((compile r.toPostfix classes captures).findPrefix self s ctx atStart).1 := by
  have hbest := findPrefix_best (compile_sound hr hok) hctx self s atStart
  refine ⟨hbest.eq_some_iff, hbest.eq_none_iff, fun r' captures' self' ctx' hg hok' hctx' => ?_⟩
  have hr' : r'.WellFormed classes := by
    rw [← Regexp.wellFormed_greedy, hg, Regexp.wellFormed_greedy]
    exact hr
  have hbest' := findPrefix_best (compile_sound hr' hok') hctx' self' s atStart
  have hmatches : ∀ x, r'.Matches x = r.Matches x := fun x => by
    rw [← Regexp.matches_greedy x r', hg, Regexp.matches_greedy]
  exact (hbest'.congr fun k => by rw [hmatches]).unique hbest

/-- The longest prefix is the whole text exactly where the whole text is in the language. -/
theorem RegexEngine.findPrefix_whole {r : Regexp} (hr : r.WellFormed classes)
    (hok : (compile r.toPostfix classes captures).ok = true) (hctx : MatchContext.LeftOver ctx)
    (self : Nat) (s : List UInt8) (atStart : Bool) :
    ((compile r.toPostfix classes captures).findPrefix self s ctx atStart).1 = some s.length ↔
      r.Matches (Input.ofText classes s atStart) 0 (runes s).length := by
  have hbest := findPrefix_best (compile_sound hr hok) hctx self s atStart
  rw [hbest.eq_some_iff]
  constructor
  · intro h
    obtain ⟨k, hk, hoffset, hm⟩ := h.1
    have hle : (runes s).length ≤ k := (length_le_offset_iff s k).1 hoffset.ge
    rwa [Nat.le_antisymm hk hle] at hm
  · intro h
    refine ⟨⟨(runes s).length, Nat.le_refl _, ?_, h⟩, ?_⟩
    · exact Nat.le_antisymm (offset_le s _) ((length_le_offset_iff s _).2 (Nat.le_refl _))
    · intro n hn
      obtain ⟨k, -, rfl, -⟩ := hn
      exact offset_le s k

theorem RegexEngine.findPrefix_longest_two :
    let r : Regexp := .cat .wordBoundary (.oneOrMore true (.literal 0x61))
    r.WellFormed [] ∧ (compile r.toPostfix [] 0).ok = true ∧ MatchContext.LeftOver {} ∧
      ((compile r.toPostfix [] 0).findPrefix 1 [0x61, 0x61, 0x20] {} true).1 = some 2 ∧
      IsGreatest (Prefixes (Input.ofText [] [0x61, 0x61, 0x20] true) [0x61, 0x61, 0x20] r) 2 := by
  intro r
  have hr : r.WellFormed [] := ⟨trivial, (by decide : 0x61 < captureGroup)⟩
  have hok : (compile r.toPostfix [] 0).ok = true := by decide +kernel
  have hfound : ((compile r.toPostfix [] 0).findPrefix 1 [0x61, 0x61, 0x20] {} true).1 = some 2 := by
    decide +kernel
  exact ⟨hr, hok, .fresh, hfound,
    ((findPrefix_longest hr hok .fresh 1 [0x61, 0x61, 0x20] true).1 2).1 hfound⟩

end Trieste.Regex
