import Trieste.Regex.Closure
import Trieste.Regex.Simulation

namespace Trieste.Regex
set_option autoImplicit true
open Library Relation

def StateDef.core (d : StateDef) : Nat × Option State × Option State := (d.label, d.next, d.nextAlt)

def SameCore (states states' : List StateDef) : Prop :=
  states.map StateDef.core = states'.map StateDef.core

theorem StateDef.epsilonNext_core {d d' : StateDef} (h : d.core = d'.core) (flags : Flags) :
    d.epsilonNext flags = d'.epsilonNext flags := by
  obtain ⟨hl, hn, ha⟩ : d.label = d'.label ∧ d.next = d'.next ∧ d.nextAlt = d'.nextAlt := by
    simpa [core] using h
  simp only [epsilonNext, hl, hn, ha]

theorem SameCore.exists_iff (h : SameCore states states') {F : StateDef → Prop}
    (hF : ∀ d d', d.core = d'.core → (F d ↔ F d')) (q : State) :
    (∃ d, states[q]? = some d ∧ F d) ↔ ∃ d, states'[q]? = some d ∧ F d := by
  have hq : (states[q]?).map StateDef.core = (states'[q]?).map StateDef.core := by
    rw [← List.getElem?_map, ← List.getElem?_map, h]
  cases hs : states[q]? with
  | none =>
    cases hs' : states'[q]? with
    | none => simp
    | some d' => simp [hs, hs'] at hq
  | some d =>
    cases hs' : states'[q]? with
    | none => simp [hs, hs'] at hq
    | some d' =>
      rw [hs, hs'] at hq
      simpa using hF d d' (Option.some.inj hq)

theorem SameCore.stackEdge (h : SameCore states states') (flags : Flags) :
    StackEdge states flags = StackEdge states' flags := by
  funext s t
  cases s with
  | none => rfl
  | some s =>
    have hF : ∀ d d' : StateDef, d.core = d'.core →
        ((∃ succs, d.epsilonNext flags = some succs ∧ t ∈ succs) ↔
          ∃ succs, d'.epsilonNext flags = some succs ∧ t ∈ succs) := fun d d' hd => by
      rw [StateDef.epsilonNext_core hd]
    simpa [StackEdge] using h.exists_iff hF s

theorem SameCore.inClosure (h : SameCore states states') (flags : Flags) :
    InClosure states flags = InClosure states' flags := by
  funext s t
  have hterm : Terminal states flags t ↔ Terminal states' flags t :=
    h.exists_iff (fun d d' hd => by rw [StateDef.epsilonNext_core hd]) t
  simp only [InClosure, h.stackEdge flags, hterm]

theorem SameCore.nfaStep (h : SameCore states states') (x : Input) :
    NfaStep states x = NfaStep states' x := by
  funext c c'
  refine propext (h.exists_iff (fun d d' hd => ?_) c.1)
  obtain ⟨hl, hn, -⟩ : d.label = d'.label ∧ d.next = d'.next ∧ d.nextAlt = d'.nextAlt := by
    simpa [StateDef.core] using hd
  rw [StateDef.epsilonNext_core hd, hn, hl]

theorem StateDef.record_core {d d' : StateDef} (h : d.core = d'.core) : d.record = d'.record := by
  have hl : d.label = d'.label := congrArg Prod.fst h
  funext pos spans
  simp only [record, hl]

theorem SameCore.recordStep (h : SameCore states states') (x : Input) (place : Nat → Nat) :
    RecordStep states x place = RecordStep states' x place := by
  funext c c'
  have hrecord := h.exists_iff (F := fun d => c'.2.2 = d.record (place c.2.1) c.2.2)
    (fun d d' hd => by rw [StateDef.record_core hd]) c.1
  rw [RecordStep, RecordStep, h.nfaStep x]
  exact propext (and_congr_right' hrecord)

theorem SameCore.accepts (h : SameCore states states') (ha : Accepts states start classes r) :
    Accepts states' start classes r := by
  refine ⟨?_, fun x place hx c c' => ?_⟩
  · refine (h.exists_iff (fun d d' hd => ?_) acceptState).1 ha.accept
    obtain ⟨hl, hn, -⟩ : d.label = d'.label ∧ d.next = d'.next ∧ d.nextAlt = d'.nextAlt := by
      simpa [StateDef.core] using hd
    rw [hl, hn]
  · rw [← h.recordStep x place]
    exact ha.records_iff x place hx c c'

theorem inClosure_of_not_conditional
    (h : (states.any fun s => isConditional s.label) = false) (flags flags' : Flags) :
    InClosure states flags = InClosure states flags' := by
  have hnext : ∀ (s : State) (d : StateDef), states[s]? = some d →
      d.epsilonNext flags = d.epsilonNext flags' := by
    intro s d hd
    have hl := List.any_eq_false.1 h d (List.mem_of_getElem? hd)
    simp only [isConditional, Bool.or_eq_true, beq_iff_eq, not_or] at hl
    simp only [StateDef.epsilonNext, if_neg hl.1.1, if_neg hl.1.2, if_neg hl.2]
  have hedge : StackEdge states flags = StackEdge states flags' := by
    funext s t
    cases s with
    | none => rfl
    | some s =>
      refine propext (exists_congr fun d => exists_congr fun succs => ?_)
      exact and_congr_right fun hd => by rw [hnext s d hd]
  funext s t
  have hterm : Terminal states flags t ↔ Terminal states flags' t :=
    exists_congr fun d => and_congr_right fun hd => by rw [hnext t d hd]
  simp only [InClosure, hedge, hterm]

theorem flagsOf_closureFlags (flags : Flags) : flagsOf (closureFlags flags) = flags := by
  obtain ⟨b, s, e⟩ := flags
  cases b <;> cases s <;> cases e <;> rfl

theorem closureFlags_lt (flags : Flags) : closureFlags flags < closureFlagCombinations := by
  obtain ⟨b, s, e⟩ := flags
  cases b <;> cases s <;> cases e <;> decide

theorem SameCore.any_conditional (h : SameCore states states') :
    (states.any fun s => isConditional s.label) = states'.any fun s => isConditional s.label := by
  have hmap : ∀ l : List StateDef, (l.any fun s => isConditional s.label) =
      (l.map StateDef.core).any fun c => isConditional c.1 := fun l => by
    rw [List.any_map]
    rfl
  rw [hmap, hmap, h]

theorem test_acceptBitmap (classes : List RuneClass) (label : Nat) (h : rune < 128) :
    (RegexEngine.acceptBitmap classes label).test rune = accepts classes label rune := by
  unfold RegexEngine.acceptBitmap accepts
  split
  · simp only [RuneClass.contains, isAscii, h, decide_true, if_true]
  · split
    · next hl =>
      rw [Bitmap.test_set _ hl h, Bitmap.test_empty, Bool.or_false]
      rfl
    · next hl =>
      rw [Bitmap.test_empty]
      exact (beq_eq_false_iff_ne.2 (by omega)).symm

def RegexEngine.mask (e : RegexEngine) (flags : Flags) : Flags where
  boundary := e.hasConditionals && flags.boundary
  atStart := e.hasConditionals && flags.atStart
  atEnd := e.hasConditionals && flags.atEnd

theorem SameCore.zipWith (states : List StateDef) (trivials : List Bool)
    (h : trivials.length = states.length) :
    SameCore states (states.zipWith (fun d known => { d with trivialClosure := known }) trivials) := by
  induction states generalizing trivials with
  | nil => rfl
  | cons d states ih =>
    cases trivials with
    | nil => cases h
    | cons known trivials =>
      exact congrArg ((d.core) :: ·) (ih trivials (Nat.succ.inj h))

def Builder.Accepting (b : Builder) : Prop :=
  ∃ d, b.ownedStates[acceptState]? = some d ∧ d.label = matchLabel

namespace Builder.Accepting
variable {b : Builder}

theorem setError (h : b.Accepting) (code : ErrorCode) : (b.setError code).Accepting := by
  unfold Builder.setError
  split
  · exact h
  · exact h

theorem createState (h : b.Accepting) (label : Nat) (next nextAlt : Option State) :
    (b.createState label next nextAlt).1.Accepting := by
  unfold Builder.createState
  split
  · exact h.setError _
  · obtain ⟨d, hd, hl⟩ := h
    exact ⟨d, List.getElem?_append_left (List.getElem?_eq_some_iff.1 hd).1 ▸ hd, hl⟩

theorem patch (h : b.Accepting) (targets : List Slot) (target : State) :
    (b.patch targets target).Accepting := by
  obtain ⟨d, hd, hl⟩ := h
  refine ⟨d.patched targets acceptState target, ?_, hl⟩
  rw [Builder.patch, getElem?_patchStates, hd]
  rfl

theorem quantifier (h : b.Accepting) (stack : List Frag) (kind : QuantifierKind) (isLazy : Bool) :
    (buildQuantifier b stack kind isLazy).1.Accepting := by
  cases stack with
  | nil => exact h.setError _
  | cons operand stack =>
    have hsplit : (createSplit b operand.start isLazy).1.Accepting := by
      unfold createSplit
      split
      · exact h.createState _ _ _
      · exact h.createState _ _ _
    unfold buildQuantifier
    cases kind with
    | zeroOrOne => exact hsplit
    | zeroOrMore => exact hsplit.patch _ _
    | oneOrMore => exact hsplit.patch _ _

theorem token (h : b.Accepting) (stack : List Frag) (label : Nat) :
    (postfixToken b stack label).1.Accepting := by
  unfold postfixToken
  split
  · split
    · exact h.patch _ _
    · exact h.setError _
  · split
    · split
      · exact h.createState _ _ _
      · exact h.setError _
    · split
      · have hq := h.quantifier stack
        dsimp only
        split
        · exact hq _ _
        · exact hq _ _
      · split
        · split
          · exact ((h.createState _ _ _).patch _ _).createState _ _ _
          · exact h.setError _
        · exact h.createState _ _ _

theorem loop (h : b.Accepting) (stack : List Frag) (tokens : List Nat) :
    (postfixLoop b stack tokens).1.Accepting := by
  induction tokens generalizing b stack with
  | nil =>
    unfold postfixLoop
    split
    · exact h.patch _ _
    · exact h.setError _
  | cons label tokens ih =>
    have htoken := h.token stack label
    unfold postfixLoop
    split
    · next heq =>
      rw [heq] at htoken
      exact ih htoken _
    · next heq =>
      rw [heq] at htoken
      exact htoken

theorem nfa (h : b.Accepting) (tokens : List Nat) : (postfixToNfa b tokens).1.Accepting := by
  unfold postfixToNfa
  split
  · exact h
  · split
    · exact h.setError _
    · exact h.loop [] tokens

end Builder.Accepting

namespace RegexEngine

theorem numFlagCombos_eq (e : RegexEngine) :
    e.numFlagCombos = 1 ∨ e.numFlagCombos = closureFlagCombinations := by
  unfold numFlagCombos
  split
  · exact .inr rfl
  · exact .inl rfl

/-- An engine whose cache holds the closures of its states. -/
structure CacheSound (e : RegexEngine) : Prop where
  cached : ∀ s f t, f < e.numFlagCombos →
    (t ∈ segment e.closureCacheFlat e.closureCacheOffsets (s * e.numFlagCombos + f) ↔
      InClosure e.ownedStates (flagsOf f) s t)
  closed : ∀ s d, e.ownedStates[s]? = some d → d.trivialClosure = true →
    TrivialFrom e.ownedStates e.numFlagCombos 0 s

theorem precompute_sound {e : RegexEngine} (hok : e.ok = true) (h : e.precomputeEpsilonClosures.ok = true) :
    SameCore e.ownedStates e.precomputeEpsilonClosures.ownedStates ∧
      e.precomputeEpsilonClosures.CacheSound := by
  unfold precomputeEpsilonClosures at h ⊢
  rw [hok] at h ⊢
  simp only [Bool.not_true, Bool.false_eq_true, if_false, List.range_eq_range'] at h ⊢
  cases hall : allClosures e.ownedStates e.numFlagCombos (List.range' 0 e.ownedStates.length)
      { offsets := List.replicate (e.ownedStates.length * e.numFlagCombos + 1) 0
        seen := ⟨List.replicate e.ownedStates.length 0, 0⟩ } with
  | none =>
    simp only [hall] at h
    cases h
  | some result =>
    obtain ⟨cache, trivials⟩ := result
    obtain ⟨closures, hinv, hlen, hn, htriv⟩ := allClosures_inv e.numFlagCombos_eq
      (Nat.zero_add _) (.init rfl _) (Nat.zero_mul _).symm hall
    have hcore := SameCore.zipWith e.ownedStates trivials hn
    refine ⟨hcore, fun s f t hf => ?_, fun s d hd ht g hg hg' => ?_⟩
    · rw [← hcore.inClosure]
      rw [← hlen]
      exact hinv.mem_segment hlen hf s t
    · rw [List.getElem?_zipWith] at hd
      rw [← hcore.inClosure]
      cases hs : e.ownedStates[s]? <;> cases hk : trivials[s]? <;> simp [hs, hk] at hd
      subst hd
      have hfrom := htriv s (hk.trans (congrArg some ht))
      rw [Nat.zero_add] at hfrom
      exact hfrom g hg hg'

theorem finalizeStates_core (e : RegexEngine) :
    SameCore e.ownedStates e.finalizeStates.ownedStates := by
  unfold finalizeStates
  split
  · rfl
  · simp [SameCore, StateDef.core, Function.comp_def]

theorem finalizeStates_ok (e : RegexEngine) : e.finalizeStates.ok = e.ok := by
  unfold finalizeStates
  split <;> rfl

theorem ok_of_precompute {e : RegexEngine} (h : e.precomputeEpsilonClosures.ok = true) : e.ok = true := by
  unfold precomputeEpsilonClosures at h
  split at h
  · exact h
  · next hok => simpa using hok

/-- A compiled engine, as the simulation uses it. -/
structure Ready (e : RegexEngine) (classes : List RuneClass) : Prop where
  ok : e.ok = true
  stateCount : e.stateCount = e.ownedStates.length
  consumes : ∀ d rune, d ∈ e.ownedStates → e.consumes d rune = accepts classes d.label rune
  cached : ∀ s flags t, t ∈ e.epsilonClosureCached s (e.mask flags) ↔
    InClosure e.ownedStates flags s t
  closed : ∀ s d, e.ownedStates[s]? = some d → d.trivialClosure = true →
    ∀ flags t, InClosure e.ownedStates flags s t ↔ t = s

/-- A compiled engine whose NFA accepts the language of a regex. -/
structure Sound (e : RegexEngine) (classes : List RuneClass) (r : Regexp) : Prop
    extends Ready e classes where
  nfa : Accepts e.ownedStates e.startState classes r

/-- The flags of an engine without conditional states are all clear. -/
theorem mask_eq (e : RegexEngine) (flags : Flags) :
    (e.hasConditionals = true ∧ e.mask flags = flags) ∨
      (e.hasConditionals = false ∧ e.mask flags = flagsOf 0) := by
  cases h : e.hasConditionals with
  | true => exact .inl ⟨rfl, by simp [mask, h]⟩
  | false => exact .inr ⟨rfl, by simp [mask, h, flagsOf]⟩

theorem epsilonClosureCached_eq (e : RegexEngine) (s : State) (flags : Flags) :
    ∃ f, f < e.numFlagCombos ∧ (e.hasConditionals = true → flagsOf f = flags) ∧
      e.epsilonClosureCached s (e.mask flags) =
        segment e.closureCacheFlat e.closureCacheOffsets (s * e.numFlagCombos + f) := by
  rcases e.mask_eq flags with ⟨hc, hm⟩ | ⟨hc, hm⟩
  · have hcombos : e.numFlagCombos = closureFlagCombinations := if_pos hc
    refine ⟨closureFlags flags, ?_, fun _ => flagsOf_closureFlags flags, ?_⟩
    · rw [hcombos]
      exact closureFlags_lt flags
    · rw [hm, hcombos, ← slot_eq (.inr rfl) (closureFlags_lt flags)]
      simp only [epsilonClosureCached, segment, hc, if_true]
  · have hcombos : e.numFlagCombos = 1 := if_neg (by simp [hc])
    refine ⟨0, by rw [hcombos]; exact Nat.zero_lt_one, fun h => ?_, ?_⟩
    · rw [hc] at h
      cases h
    · rw [hcombos, Nat.mul_one, Nat.add_zero]
      simp only [epsilonClosureCached, segment, hc, Bool.false_eq_true, if_false]

/-- Under the flags that select its slot, the closure of a state is the one under any flags that
the engine does not tell apart. -/
theorem inClosure_flagsOf {e : RegexEngine}
    (hcond : e.hasConditionals = e.ownedStates.any fun s => isConditional s.label)
    (hf : e.hasConditionals = true → flagsOf f = flags) :
    InClosure e.ownedStates (flagsOf f) = InClosure e.ownedStates flags := by
  cases hc : e.hasConditionals with
  | true => rw [hf hc]
  | false => exact inClosure_of_not_conditional (hcond ▸ hc) _ _

theorem CacheSound.sound {e : RegexEngine} (h : e.CacheSound)
    (hcond : e.hasConditionals = e.ownedStates.any fun s => isConditional s.label) :
    (∀ s flags t, t ∈ e.epsilonClosureCached s (e.mask flags) ↔
      InClosure e.ownedStates flags s t) ∧
    ∀ s d, e.ownedStates[s]? = some d → d.trivialClosure = true →
      ∀ flags t, InClosure e.ownedStates flags s t ↔ t = s := by
  constructor
  · intro s flags t
    obtain ⟨f, hf, hflags, heq⟩ := e.epsilonClosureCached_eq s flags
    rw [heq, h.cached s f t hf, inClosure_flagsOf hcond hflags]
  · intro s d hd ht flags t
    obtain ⟨f, hf, hflags, -⟩ := e.epsilonClosureCached_eq s flags
    rw [← inClosure_flagsOf hcond hflags]
    exact h.closed s d hd ht f (Nat.zero_le f) hf t

theorem finalizeStates_sound {e : RegexEngine} (hok : e.ok = true) (h : e.CacheSound) :
    e.finalizeStates.CacheSound := by
  have hcore := e.finalizeStates_core
  have hfields : e.finalizeStates.closureCacheFlat = e.closureCacheFlat ∧
      e.finalizeStates.closureCacheOffsets = e.closureCacheOffsets ∧
      e.finalizeStates.numFlagCombos = e.numFlagCombos := by
    unfold finalizeStates
    split <;> exact ⟨rfl, rfl, rfl⟩
  obtain ⟨hflat, hoffsets, hcombos⟩ := hfields
  constructor
  · intro s f t hf
    rw [hflat, hoffsets, hcombos, ← hcore.inClosure]
    exact h.cached s f t (hcombos ▸ hf)
  · intro s d hd ht g hg hg' t
    rw [← hcore.inClosure]
    have hd' : ∃ d', e.ownedStates[s]? = some d' ∧ d'.trivialClosure = true := by
      simp only [finalizeStates, hok, Bool.not_true, Bool.false_eq_true, if_false,
        List.getElem?_map, Option.map_eq_some_iff] at hd
      obtain ⟨d', hd', rfl⟩ := hd
      exact ⟨d', hd', ht⟩
    obtain ⟨d', hd', ht'⟩ := hd'
    exact h.closed s d' hd' ht' g hg (hcombos ▸ hg') t

def ofNfa (b : Builder) (startState : State) (runeClasses : List RuneClass) (numCaptures : Nat) :
    RegexEngine where
  ownedStates := b.ownedStates
  errorCode := b.errorCode
  startState := startState
  runeClasses := runeClasses
  numCaptures := numCaptures

theorem compile_eq (classes : List RuneClass) (n : Nat)
    (h : postfixToNfa (acceptBuilder (2 * tokens.length + 1)) tokens = (b, start)) :
    compile tokens classes n =
      (ofNfa b start classes n).detectConditionalStates.precomputeEpsilonClosures.finalizeStates := by
  have hb : ({ capacity := 2 * tokens.length + 1 } : Builder).createState matchLabel none none =
      (acceptBuilder (2 * tokens.length + 1), acceptState) := if_neg (by simp)
  simp only [compile, hb, h, ofNfa]

theorem length_le_of_ok (h : (compile tokens classes n).ok = true) : tokens.length ≤ maxStates := by
  by_contra hlt
  have hne : tokens ≠ [] := fun hnil => hlt (by simp [hnil])
  have hnfa : postfixToNfa (acceptBuilder (2 * tokens.length + 1)) tokens =
      ((acceptBuilder (2 * tokens.length + 1)).setError .errorPatternTooLarge, acceptState) := by
    rw [postfixToNfa, if_neg hne, if_pos (Nat.lt_of_not_le hlt)]
  rw [compile_eq classes n hnfa, finalizeStates_ok] at h
  exact Bool.false_ne_true (ok_of_precompute h)

theorem precompute_kept (e : RegexEngine) :
    e.precomputeEpsilonClosures.hasConditionals = e.hasConditionals ∧
      e.precomputeEpsilonClosures.startState = e.startState ∧
      e.precomputeEpsilonClosures.runeClasses = e.runeClasses ∧
      e.precomputeEpsilonClosures.numCaptures = e.numCaptures := by
  unfold precomputeEpsilonClosures
  split
  · exact ⟨rfl, rfl, rfl, rfl⟩
  · dsimp only
    split <;> exact ⟨rfl, rfl, rfl, rfl⟩

theorem finalizeStates_kept (e : RegexEngine) :
    e.finalizeStates.hasConditionals = e.hasConditionals ∧
      e.finalizeStates.startState = e.startState ∧
      e.finalizeStates.runeClasses = e.runeClasses ∧
      e.finalizeStates.numCaptures = e.numCaptures := by
  unfold finalizeStates
  split <;> exact ⟨rfl, rfl, rfl, rfl⟩

theorem consumes_eq {e : RegexEngine} (hok : e.ok = true) (hd : d ∈ e.finalizeStates.ownedStates)
    (rune : Nat) :
    e.finalizeStates.consumes d rune = accepts e.runeClasses d.label rune := by
  obtain ⟨-, -, hclasses, -⟩ := e.finalizeStates_kept
  simp only [consumes, hclasses]
  split
  · next hrune =>
    have haccept : d.asciiAccept = acceptBitmap e.runeClasses d.label := by
      simp only [finalizeStates, hok, Bool.not_true, Bool.false_eq_true, if_false,
        List.mem_map] at hd
      obtain ⟨_, _, rfl⟩ := hd
      rfl
    rw [haccept, test_acceptBitmap _ _ hrune]
  · rfl

/-- The passes over the states keep the NFA and what the engine was built with. -/
theorem compile_kept (h : postfixToNfa (acceptBuilder (2 * tokens.length + 1)) tokens = (b, start))
    (hok : (compile tokens classes n).ok = true) :
    SameCore b.ownedStates (compile tokens classes n).ownedStates ∧
      (compile tokens classes n).startState = start ∧
      (compile tokens classes n).numCaptures = n := by
  rw [compile_eq classes n h] at hok ⊢
  generalize he : (ofNfa b start classes n).detectConditionalStates = e at hok ⊢
  have hok₂ : e.precomputeEpsilonClosures.ok = true := (finalizeStates_ok _).symm.trans hok
  have hcore := (precompute_sound (ok_of_precompute hok₂) hok₂).1.trans
    e.precomputeEpsilonClosures.finalizeStates_core
  obtain ⟨-, hstart₂, -, hcaptures₂⟩ := e.precompute_kept
  obtain ⟨-, hstart₃, -, hcaptures₃⟩ := e.precomputeEpsilonClosures.finalizeStates_kept
  refine ⟨?_, ?_, ?_⟩
  · subst he
    exact hcore
  · rw [hstart₃, hstart₂, ← he]
    rfl
  · rw [hcaptures₃, hcaptures₂, ← he]
    rfl

/-- An engine that compiled is as the simulation needs it. -/
theorem compile_ready (hok : (compile tokens classes n).ok = true) :
    (compile tokens classes n).Ready classes := by
  rcases hnfa : postfixToNfa (acceptBuilder (2 * tokens.length + 1)) tokens with ⟨b, start⟩
  rw [compile_eq classes n hnfa] at hok ⊢
  generalize he : (ofNfa b start classes n).detectConditionalStates = e at hok ⊢
  have hok₂ : e.precomputeEpsilonClosures.ok = true := (finalizeStates_ok _).symm.trans hok
  have hok₁ := ok_of_precompute hok₂
  obtain ⟨hcore₂, hcache⟩ := precompute_sound hok₁ hok₂
  have hcore : SameCore e.ownedStates e.precomputeEpsilonClosures.finalizeStates.ownedStates :=
    hcore₂.trans e.precomputeEpsilonClosures.finalizeStates_core
  obtain ⟨hcond, hclasses⟩ : (e.hasConditionals =
      e.ownedStates.any fun s => isConditional s.label) ∧ e.runeClasses = classes := by
    subst he
    exact ⟨rfl, rfl⟩
  obtain ⟨hcond₂, -, hclasses₂, -⟩ := e.precompute_kept
  obtain ⟨hcond₃, -, hclasses₃, -⟩ := e.precomputeEpsilonClosures.finalizeStates_kept
  obtain ⟨hcached, hclosed⟩ := (finalizeStates_sound hok₂ hcache).sound
    (by rw [hcond₃, hcond₂, hcond, hcore.any_conditional])
  refine ⟨hok, ?_, fun d rune hd => ?_, hcached, hclosed⟩
  · simp [finalizeStates, hok₂]
  · rw [consumes_eq hok₂ hd, hclasses₂, hclasses]

theorem compile_numCaptures (hok : (compile tokens classes n).ok = true) :
    (compile tokens classes n).numCaptures = n := by
  rcases hnfa : postfixToNfa (acceptBuilder (2 * tokens.length + 1)) tokens with ⟨b, start⟩
  exact (compile_kept hnfa hok).2.2

theorem compile_accept (hok : (compile tokens classes n).ok = true) :
    ∃ d, (compile tokens classes n).ownedStates[acceptState]? = some d ∧ d.label = matchLabel := by
  rcases hnfa : postfixToNfa (acceptBuilder (2 * tokens.length + 1)) tokens with ⟨b, start⟩
  have hinit : (acceptBuilder (2 * tokens.length + 1)).Accepting := ⟨_, rfl, rfl⟩
  have haccept := hinit.nfa tokens
  rw [hnfa] at haccept
  have hlabel : ∀ d d' : StateDef, d.core = d'.core →
      (d.label = matchLabel ↔ d'.label = matchLabel) := by
    intro d d' hcore
    rw [show d.label = d'.label from congrArg Prod.fst hcore]
  exact ((compile_kept hnfa hok).1.exists_iff hlabel acceptState).1 haccept

/-- The accept state is collected by the closures that lead to it. -/
theorem compile_terminal (hok : (compile tokens classes n).ok = true) (flags : Flags) :
    Terminal (compile tokens classes n).ownedStates flags acceptState := by
  obtain ⟨d, hd, hl⟩ := compile_accept hok
  refine ⟨d, hd, ?_⟩
  rw [StateDef.epsilonNext, hl]
  rfl

theorem compile_sound (hr : r.WellFormed classes)
    (hok : (compile r.toPostfix classes n).ok = true) :
    (compile r.toPostfix classes n).Sound classes r := by
  obtain ⟨b, start, hnfa, -, haccepts⟩ := postfixToNfa_accepts r hr (length_le_of_ok hok)
  obtain ⟨hcore, hstart, -⟩ := compile_kept hnfa hok
  refine { compile_ready hok with nfa := ?_ }
  rw [hstart]
  exact hcore.accepts haccepts

end RegexEngine

end Trieste.Regex
