import Trieste.Regex.Grouping
import Trieste.Regex.Priority
import Trieste.Regex.Wiring

namespace Trieste.Regex
set_option autoImplicit true
open Library

def LeadsTo (states : List StateDef) (label : Nat) (s t : State) : Prop :=
  ∃ d, states[s]? = some d ∧ d.label = label ∧ d.next = some t

/-- The state is a `Split` with these branches, the preferred one first. -/
def SplitsTo (states : List StateDef) (s : State) (branches : State × State) : Prop :=
  ∃ d, states[s]? = some d ∧ d.label = split ∧ d.next = some branches.1 ∧
    d.nextAlt = some branches.2

/-- The branches of a quantifier: a greedy one enters its operand first, a lazy one leaves it. -/
def quantifierBranches (isLazy : Bool) (operand past : State) : State × State :=
  if isLazy then (past, operand) else (operand, past)

/-- The states from `start` on are those of the regex, which lead to `exit`. -/
def Regexp.Wires (states : List StateDef) : Regexp → State → State → Prop
  | cat p q, start, exit => ∃ mid, p.Wires states start mid ∧ q.Wires states mid exit
  | alt p q, start, exit => ∃ left right, SplitsTo states start (left, right) ∧
      p.Wires states left exit ∧ q.Wires states right exit
  | zeroOrOne isLazy p, start, exit => ∃ operand,
      SplitsTo states start (quantifierBranches isLazy operand exit) ∧ p.Wires states operand exit
  | zeroOrMore isLazy p, start, exit => ∃ operand,
      SplitsTo states start (quantifierBranches isLazy operand exit) ∧ p.Wires states operand start
  | oneOrMore isLazy p, start, exit => ∃ again,
      SplitsTo states again (quantifierBranches isLazy start exit) ∧ p.Wires states start again
  | capture index p, start, exit => ∃ operand close,
      LeadsTo states (captureOpen + index) start operand ∧ p.Wires states operand close ∧
        LeadsTo states (captureClose + index) close exit
  | literal c, start, exit => LeadsTo states c start exit
  | classRef index, start, exit => LeadsTo states (runeClassBase + index) start exit
  | startAnchor, start, exit => LeadsTo states Regex.startAnchor start exit
  | endAnchor, start, exit => LeadsTo states Regex.endAnchor start exit
  | wordBoundary, start, exit => LeadsTo states Regex.wordBoundary start exit

theorem Regexp.Wires.start_lt {r : Regexp} (h : r.Wires states start exit) :
    start < states.length := by
  have hlt : ∀ {q : State} {d : StateDef}, states[q]? = some d → q < states.length :=
    fun hd => (List.getElem?_eq_some_iff.1 hd).1
  induction r generalizing start exit with
  | cat p q ihp _ =>
    obtain ⟨mid, hp, -⟩ := h
    exact ihp hp
  | alt p q =>
    obtain ⟨_, _, ⟨d, hd, -⟩, -⟩ := h
    exact hlt hd
  | zeroOrOne isLazy p | zeroOrMore isLazy p =>
    obtain ⟨_, ⟨d, hd, -⟩, -⟩ := h
    exact hlt hd
  | oneOrMore isLazy p ih =>
    obtain ⟨again, -, hp⟩ := h
    exact ih hp
  | capture index p =>
    obtain ⟨_, _, ⟨d, hd, -⟩, -⟩ := h
    exact hlt hd
  | literal | classRef | startAnchor | endAnchor | wordBoundary =>
    obtain ⟨d, hd, -⟩ := h
    exact hlt hd

/-- The states from `lo` on are those of the regex, once the dangling slots of the fragment are
patched to any state. -/
structure Lays (states : List StateDef) (lo : Nat) (frag : Frag) (r : Regexp) : Prop where
  dangling : ∀ slot ∈ frag.dangling, slot.state ∈ Set.Ico lo states.length
  wires : ∀ final exit, (∀ q, lo ≤ q → q < states.length →
      final[q]? = states[q]?.map fun d => d.patched frag.dangling q exit) →
    r.Wires final frag.start exit

section Assembly
variable {s₁ s₂ s₃ : List StateDef} {left right operand : Frag} {p q : Regexp}

theorem Lays.ne_of_lt (h : Lays s₁ lo operand p) (hk : k < lo) :
    ∀ slot ∈ operand.dangling, slot.state ≠ k :=
  fun slot hs => (hk.trans_le (h.dangling slot hs).1).ne'

theorem Lays.ne_of_le (h : Lays s₁ lo operand p) (hk : s₁.length ≤ k) :
    ∀ slot ∈ operand.dangling, slot.state ≠ k :=
  fun slot hs => ((h.dangling slot hs).2.trans_le hk).ne

theorem Lays.cat (hp : Lays s₁ lo left p) (hq : Lays s₂ s₁.length right q) (hlo : lo ≤ s₁.length)
    (hlen : s₁.length ≤ s₂.length) (hold : ∀ k, k < s₁.length → s₂[k]? = s₁[k]?) :
    Lays (patchStates s₂ left.dangling right.start) lo ⟨left.start, right.dangling⟩ (.cat p q) := by
  constructor
  · intro slot hs
    rw [length_patchStates]
    obtain ⟨h, h'⟩ := hq.dangling slot hs
    exact ⟨hlo.trans h, h'⟩
  · intro final exit hfinal
    rw [length_patchStates] at hfinal
    refine ⟨right.start, hp.wires _ _ fun k hk hk' => ?_, hq.wires _ _ fun k hk hk' => ?_⟩
    · rw [hfinal k hk (hk'.trans_le hlen), getElem?_patchStates, hold k hk', Option.map_map]
      refine congrArg (s₁[k]?.map ·) (funext fun d => ?_)
      exact StateDef.patched_of_disjoint _ _ (hq.ne_of_lt hk')
    · rw [hfinal k (hlo.trans hk) hk', getElem?_patchStates, Option.map_map]
      refine congrArg (s₂[k]?.map ·) (funext fun d => ?_)
      exact congrArg (StateDef.patched · right.dangling k exit)
        (StateDef.patched_of_disjoint _ _ (hp.ne_of_le hk))

theorem Lays.alt (hp : Lays s₁ lo left p) (hq : Lays s₂ s₁.length right q) (hlo : lo ≤ s₁.length)
    (hlen : s₁.length ≤ s₂.length) (hold : ∀ k, k < s₁.length → s₂[k]? = s₁[k]?)
    (hlen' : s₃.length = s₂.length + 1) (hold' : ∀ k, k < s₂.length → s₃[k]? = s₂[k]?)
    (hd : s₃[s₂.length]? = some
      { label := split, next := some left.start, nextAlt := some right.start }) :
    Lays s₃ lo ⟨s₂.length, left.dangling ++ right.dangling⟩ (.alt p q) := by
  have hlt : s₂.length < s₃.length := by omega
  constructor
  · intro slot hs
    rcases List.mem_append.1 hs with hs | hs
    · obtain ⟨h, h'⟩ := hp.dangling slot hs
      exact ⟨h, h'.trans_le (hlen.trans hlt.le)⟩
    · obtain ⟨h, h'⟩ := hq.dangling slot hs
      exact ⟨hlo.trans h, h'.trans hlt⟩
  · intro final exit hfinal
    refine ⟨left.start, right.start,
      ⟨{ label := split, next := some left.start, nextAlt := some right.start }, ?_, rfl, rfl, rfl⟩,
      hp.wires _ _ fun k hk hk' => ?_, hq.wires _ _ fun k hk hk' => ?_⟩
    · rw [hfinal s₂.length (hlo.trans hlen) hlt, hd, Option.map_some,
        StateDef.patched_append _ _ (hq.ne_of_le (le_refl _)),
        StateDef.patched_of_disjoint _ _ (hp.ne_of_le hlen)]
    · rw [hfinal k hk (by omega), hold' k (by omega), hold k hk']
      refine congrArg (s₁[k]?.map ·) (funext fun d => ?_)
      exact StateDef.patched_append _ _ (hq.ne_of_lt hk')
    · rw [hfinal k (hlo.trans hk) (by omega), hold' k hk']
      refine congrArg (s₂[k]?.map ·) (funext fun d => ?_)
      exact StateDef.patched_append' _ _ (hp.ne_of_le hk)

theorem splitsTo_quantifier
    (h : states[s]? = some ((quantifierSplit body isLazy).patched [⟨s, !isLazy⟩] s exit)) :
    SplitsTo states s (quantifierBranches isLazy body exit) := by
  refine ⟨_, h, rfl, ?_⟩
  cases isLazy <;> simp [quantifierSplit, StateDef.patched, quantifierBranches]

theorem Lays.zeroOrOne (hp : Lays s₁ lo operand p) (hlo : lo ≤ s₁.length)
    (hlen : s₂.length = s₁.length + 1) (hold : ∀ k, k < s₁.length → s₂[k]? = s₁[k]?)
    (hd : s₂[s₁.length]? = some (quantifierSplit operand.start isLazy)) :
    Lays s₂ lo ⟨s₁.length, operand.dangling ++ [⟨s₁.length, !isLazy⟩]⟩ (.zeroOrOne isLazy p) := by
  have hlt : s₁.length < s₂.length := by omega
  constructor
  · intro slot hs
    rcases List.mem_append.1 hs with hs | hs
    · obtain ⟨h, h'⟩ := hp.dangling slot hs
      exact ⟨h, h'.trans hlt⟩
    · rw [List.mem_singleton.1 hs]
      exact ⟨hlo, hlt⟩
  · intro final exit hfinal
    refine ⟨operand.start, splitsTo_quantifier ?_, hp.wires _ _ fun k hk hk' => ?_⟩
    · rw [hfinal s₁.length hlo hlt, hd, Option.map_some,
        StateDef.patched_append' _ _ (hp.ne_of_le (le_refl _))]
    · rw [hfinal k hk (hk'.trans hlt), hold k hk']
      refine congrArg (s₁[k]?.map ·) (funext fun d => StateDef.patched_append _ _ fun slot hs => ?_)
      rw [List.mem_singleton.1 hs]
      exact hk'.ne'

/-- The operand comes back to the `Split` of a repeating quantifier. -/
theorem Lays.back (hp : Lays s₁ lo operand p) (hlo : lo ≤ s₁.length)
    (hlen : s₂.length = s₁.length + 1) (hold : ∀ k, k < s₁.length → s₂[k]? = s₁[k]?)
    (hd : s₂[s₁.length]? = some (quantifierSplit operand.start isLazy))
    (hfinal : ∀ k, lo ≤ k → k < s₂.length →
      final[k]? = (patchStates s₂ operand.dangling s₁.length)[k]?.map fun d =>
        d.patched [⟨s₁.length, !isLazy⟩] k exit) :
    SplitsTo final s₁.length (quantifierBranches isLazy operand.start exit) ∧
      p.Wires final operand.start s₁.length := by
  have hlt : s₁.length < s₂.length := by omega
  refine ⟨splitsTo_quantifier ?_, hp.wires _ _ fun k hk hk' => ?_⟩
  · rw [hfinal s₁.length hlo hlt, getElem?_patchStates, hd, Option.map_some, Option.map_some,
      StateDef.patched_of_disjoint _ _ (hp.ne_of_le (le_refl _))]
  · rw [hfinal k hk (hk'.trans hlt), getElem?_patchStates, hold k hk', Option.map_map]
    refine congrArg (s₁[k]?.map ·) (funext fun d => ?_)
    refine StateDef.patched_of_disjoint _ _ fun slot hs => ?_
    rw [List.mem_singleton.1 hs]
    exact hk'.ne'

theorem Lays.quantifier (kind : QuantifierKind) (hp : Lays s₁ lo operand p)
    (hlo : lo ≤ s₁.length) (hlen : s₂.length = s₁.length + 1)
    (hold : ∀ k, k < s₁.length → s₂[k]? = s₁[k]?)
    (hd : s₂[s₁.length]? = some (quantifierSplit operand.start isLazy)) :
    Lays (patchStates s₂ (kind.patches operand) s₁.length) lo
      (kind.frag operand s₁.length isLazy) (kind.regexp isLazy p) := by
  have hin : s₁.length ∈ Set.Ico lo s₂.length := ⟨hlo, by omega⟩
  have hdangling : ∀ slot ∈ [(⟨s₁.length, !isLazy⟩ : Slot)],
      slot.state ∈ Set.Ico lo (patchStates s₂ operand.dangling s₁.length).length := by
    intro slot hs
    rw [List.mem_singleton.1 hs, length_patchStates]
    exact hin
  cases kind with
  | zeroOrOne => exact hp.zeroOrOne hlo hlen hold hd
  | zeroOrMore =>
    refine ⟨hdangling, fun final exit hfinal => ⟨operand.start, ?_⟩⟩
    exact hp.back hlo hlen hold hd fun k hk hk' => hfinal k hk ((length_patchStates ..).symm ▸ hk')
  | oneOrMore =>
    refine ⟨hdangling, fun final exit hfinal => ⟨s₁.length, ?_⟩⟩
    exact hp.back hlo hlen hold hd fun k hk hk' => hfinal k hk ((length_patchStates ..).symm ▸ hk')

theorem Lays.capture (hp : Lays s₁ lo operand p) (hlo : lo ≤ s₁.length)
    (hlen : s₂.length = s₁.length + 1) (hold : ∀ k, k < s₁.length → s₂[k]? = s₁[k]?)
    (hclose : s₂[s₁.length]? = some { label := captureClose + index })
    (hlen' : s₃.length = s₂.length + 1)
    (hold' : ∀ k, k < s₂.length → s₃[k]? = (patchStates s₂ operand.dangling s₁.length)[k]?)
    (hopen : s₃[s₂.length]? =
      some { label := captureOpen + index, next := some operand.start }) :
    Lays s₃ lo ⟨s₂.length, [⟨s₁.length, false⟩]⟩ (.capture index p) := by
  have hlt : s₁.length < s₂.length := by omega
  have hlt' : s₂.length < s₃.length := by omega
  have hother : ∀ k, k ≠ s₁.length → ∀ slot ∈ [(⟨s₁.length, false⟩ : Slot)], slot.state ≠ k := by
    intro k hk slot hs
    rw [List.mem_singleton.1 hs]
    exact hk.symm
  constructor
  · intro slot hs
    rw [List.mem_singleton.1 hs]
    exact ⟨hlo, hlt.trans hlt'⟩
  · intro final exit hfinal
    refine ⟨operand.start, s₁.length,
      ⟨{ label := captureOpen + index, next := some operand.start }, ?_, rfl, rfl⟩,
      hp.wires _ _ fun k hk hk' => ?_, ⟨{ label := captureClose + index, next := some exit }, ?_, rfl, rfl⟩⟩
    · rw [hfinal s₂.length (hlo.trans hlt.le) hlt', hopen, Option.map_some,
        StateDef.patched_of_disjoint _ _ (hother _ hlt.ne')]
    · rw [hfinal k hk (by omega), hold' k (by omega), getElem?_patchStates, hold k hk',
        Option.map_map]
      refine congrArg (s₁[k]?.map ·) (funext fun d => ?_)
      exact StateDef.patched_of_disjoint _ _ (hother _ hk'.ne)
    · rw [hfinal s₁.length hlo (hlt.trans hlt'), hold' _ hlt, getElem?_patchStates, hclose,
        Option.map_some, Option.map_some, StateDef.patched_of_disjoint _ _ (hp.ne_of_le le_rfl)]
      simp [StateDef.patched]

theorem lays_operand {r : Regexp} (hlabel : r.operand? = some label)
    (hlen : s₁.length = lo + 1) (hd : s₁[lo]? = some { label }) :
    Lays s₁ lo ⟨lo, [⟨lo, false⟩]⟩ r := by
  have hin : lo ∈ Set.Ico lo s₁.length := ⟨le_refl lo, by omega⟩
  constructor
  · intro slot hs
    rw [List.mem_singleton.1 hs]
    exact hin
  · intro final exit hfinal
    have hleads : LeadsTo final label lo exit := by
      refine ⟨{ label, next := some exit }, ?_, rfl, rfl⟩
      rw [hfinal lo (le_refl lo) hin.2, hd]
      simp [StateDef.patched]
    cases r with
    | literal | classRef | startAnchor | endAnchor | wordBoundary =>
      cases hlabel
      exact hleads
    | cat | alt | zeroOrOne | zeroOrMore | oneOrMore | capture => cases hlabel

theorem lays_assembles : Assembles Lays where
  dangling h := h.dangling
  cat hp hq := hp.cat hq
  alt hp hq := hp.alt hq
  quantifier kind hp := hp.quantifier kind
  capture hp hlo hlen hold hclose hlen' hold' hopen _ :=
    hp.capture hlo hlen hold hclose hlen' hold' hopen

end Assembly

theorem SameCore.leadsTo (h : SameCore states states') (label : Nat) (s t : State) :
    LeadsTo states label s t ↔ LeadsTo states' label s t := by
  refine h.exists_iff (fun d d' hd => ?_) s
  obtain ⟨hl, hn, -⟩ := StateDef.core_eq hd
  rw [hl, hn]

theorem SameCore.splitsTo (h : SameCore states states') (s : State) (branches : State × State) :
    SplitsTo states s branches ↔ SplitsTo states' s branches := by
  refine h.exists_iff (fun d d' hd => ?_) s
  obtain ⟨hl, hn, ha⟩ := StateDef.core_eq hd
  rw [hl, hn, ha]

theorem SameCore.wires (h : SameCore states states') (r : Regexp) (start exit : State) :
    r.Wires states start exit ↔ r.Wires states' start exit := by
  induction r generalizing start exit with
  | cat p q ihp ihq => simp only [Regexp.Wires, ihp, ihq]
  | alt p q ihp ihq => simp only [Regexp.Wires, ihp, ihq, h.splitsTo]
  | zeroOrOne isLazy p ih | zeroOrMore isLazy p ih | oneOrMore isLazy p ih =>
    simp only [Regexp.Wires, ih, h.splitsTo]
  | capture index p ih => simp only [Regexp.Wires, ih, h.leadsTo]
  | literal | classRef | startAnchor | endAnchor | wordBoundary => exact h.leadsTo _ start exit

/-- The states from `start` on are those of the pattern, which lead to `exit`. -/
def Pattern.Wires (states : List StateDef) : Pattern → State → State → Prop
  | none, start, exit => start = exit
  | some r, start, exit => r.Wires states start exit

theorem Regexp.compile_wires {r : Regexp} (hr : r.WellFormed classes)
    (hok : (RegexEngine.compile r.toPostfix classes n).ok = true) :
    r.Wires (RegexEngine.compile r.toPostfix classes n).ownedStates
      (RegexEngine.compile r.toPostfix classes n).startState acceptState := by
  obtain ⟨b, frag, m, hloop, hext, -, hlays⟩ := lays_assembles.builds
    (fun _ _ _ _ _ => lays_operand) r hr (acceptBuilder (2 * r.toPostfix.length + 1)) [] [] rfl
    (Nat.add_comm 1 _).le
  have hnfa : postfixToNfa (acceptBuilder (2 * r.toPostfix.length + 1)) r.toPostfix =
      (b.patch frag.dangling acceptState, frag.start) := by
    rw [postfixToNfa, if_neg r.toPostfix_ne_nil,
      if_neg (Nat.not_lt.2 (RegexEngine.length_le_of_ok hok))]
    rw [List.append_nil] at hloop
    exact hloop
  obtain ⟨hcore, hstart, -⟩ := RegexEngine.compile_kept hnfa hok
  rw [hstart, ← hcore.wires]
  exact hlays.wires _ _ fun q _ _ => getElem?_patchStates ..

theorem Pattern.compile_wires {p : Pattern} (hp : p.WellFormed classes)
    (hok : (RegexEngine.compile p.toPostfix classes n).ok = true) :
    p.Wires (RegexEngine.compile p.toPostfix classes n).ownedStates
      (RegexEngine.compile p.toPostfix classes n).startState acceptState := by
  cases p with
  | none =>
    have hnfa : postfixToNfa (acceptBuilder (2 * ([] : List Nat).length + 1)) [] =
        (acceptBuilder 1, acceptState) := rfl
    exact (RegexEngine.compile_kept hnfa hok).2.1
  | some r => exact Regexp.compile_wires hp hok

theorem Pattern.Wires.start_lt {p : Pattern} (h : p.Wires states start exit)
    (hexit : exit < states.length) : start < states.length := by
  cases p with
  | none => exact h ▸ hexit
  | some r => exact Regexp.Wires.start_lt h

/-- While the arena is not used up, the captures of a match of an accepted pattern are what the
run records that comes first among the runs of its NFA over the bytes of the match. In that NFA
the first branch of a `Split` is the left alternative, the operand of a greedy quantifier or the
way past a lazy one. -/
theorem findPrefix_priority {findCategory : Bytes → Option RuneClass} {mode : SyntaxMode}
    {pattern : Bytes} (hok : (RegexEngine.ofSyntax findCategory mode pattern).ok = true)
    (hn : 0 < (RegexEngine.ofSyntax findCategory mode pattern).numCaptures)
    (hctx : MatchContext.LeftOver ctx) (self : Nat) (view : Bytes) (atStart : Bool) :
    let e := RegexEngine.ofSyntax findCategory mode pattern
    ∃ (p : Pattern) (classes : List RuneClass) (n : Nat),
      e = .compile p.toPostfix classes n ∧ p.Wires e.ownedStates e.startState acceptState ∧
      (ArenaFits e (.ofText classes view atStart) 0 → ∀ len captures ctx',
        e.findPrefixWithContext self view ctx atStart false = (some len, captures, ctx') →
        ∃ k ρ, k ≤ (runes view).length ∧ len = offset view k ∧
          (splitPriority e.ownedStates).First
            (NfaStep e.ownedStates (.ofText classes view atStart)) (e.startState, 0)
            (acceptState, k) ρ ∧
          captures = e.readCaptures
            (spansAlong e.ownedStates (offset view) (2 * e.numCaptures) ρ)) := by
  obtain ⟨p, classes, n, hcompile, hp⟩ := RegexEngine.ofSyntax_numbered hok
  dsimp only
  refine ⟨p, classes, n, hcompile, ?_⟩
  rw [hcompile] at hok hn ⊢
  have hwell : p.WellFormed classes := by
    cases p with
    | none => trivial
    | some r => exact (hp r rfl).1.wellFormed
  have hwires := Pattern.compile_wires hwell hok
  refine ⟨hwires, fun hfits len captures ctx' hfound => ?_⟩
  obtain ⟨d, hd, -⟩ := RegexEngine.compile_accept hok
  have hstart := hwires.start_lt (List.getElem?_eq_some_iff.1 hd).1
  obtain ⟨k, ρ, hk, hlen, hfirst, hread⟩ := findPrefixWithContext_first
    (RegexEngine.compile_ready hok) rfl hn hstart (Input.shows_ofText classes view atStart)
    hctx.valid hfits self len (congrArg Prod.fst hfound)
  rw [Nat.zero_add] at hfirst
  exact ⟨k, ρ, hk, hlen, hfirst, (congrArg (·.2.1) hfound).symm.trans hread⟩

/-- The groups of `(a*?)(a*)` on the text `aa`. -/
theorem findPrefix_priority_lazy :
    let e := RegexEngine.ofSyntax (fun _ => none) .extended
      [0x28, 0x61, 0x2A, 0x3F, 0x29, 0x28, 0x61, 0x2A, 0x29]
    (e.findPrefixWithContext 0 [0x61, 0x61] {} true false).1 = some 2 ∧
      ∃ classes k ρ, 2 = offset [0x61, 0x61] k ∧
        (splitPriority e.ownedStates).First
          (NfaStep e.ownedStates (.ofText classes [0x61, 0x61] true)) (e.startState, 0)
          (acceptState, k) ρ ∧
        (e.findPrefixWithContext 0 [0x61, 0x61] {} true false).2.1 = e.readCaptures
          (spansAlong e.ownedStates (offset [0x61, 0x61]) (2 * e.numCaptures) ρ) := by
  have hok : (RegexEngine.ofSyntax (fun _ => none) .extended
        [0x28, 0x61, 0x2A, 0x3F, 0x29, 0x28, 0x61, 0x2A, 0x29]).ok = true ∧
      0 < (RegexEngine.ofSyntax (fun _ => none) .extended
        [0x28, 0x61, 0x2A, 0x3F, 0x29, 0x28, 0x61, 0x2A, 0x29]).numCaptures ∧
      ((RegexEngine.ofSyntax (fun _ => none) .extended
        [0x28, 0x61, 0x2A, 0x3F, 0x29, 0x28, 0x61, 0x2A, 0x29]).findPrefixWithContext 0 [0x61, 0x61]
          {} true false).1 = some 2 ∧
      2 * (RegexEngine.ofSyntax (fun _ => none) .extended
        [0x28, 0x61, 0x2A, 0x3F, 0x29, 0x28, 0x61, 0x2A, 0x29]).numCaptures *
        (1 + (RegexEngine.ofSyntax (fun _ => none) .extended
          [0x28, 0x61, 0x2A, 0x3F, 0x29, 0x28, 0x61, 0x2A, 0x29]).ownedStates.length *
          ((runes [0x61, 0x61]).length + 1)) ≤ maxCaptureFrameEntries := by decide +kernel
  obtain ⟨hok, hn, hfound, hbound⟩ := hok
  obtain ⟨p, classes, n, -, -, h⟩ := findPrefix_priority hok hn .fresh 0 [0x61, 0x61] true
  obtain ⟨k, ρ, -, hlen, hfirst, hread⟩ := h (arenaFits_of_bound hbound 0) 2 _ _
    (Prod.ext hfound rfl)
  exact ⟨hfound, classes, k, ρ, hlen, hfirst, hread⟩

end Trieste.Regex
