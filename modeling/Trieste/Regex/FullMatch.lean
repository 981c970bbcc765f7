import Mathlib.Algebra.Ring.Nat
import Trieste.Regex.Capturing

namespace Trieste.Regex
set_option autoImplicit true
open Library Relation

/-- A regular expression with its compiled engine; a value that was moved from has none. -/
structure TRegex where
  engine : Option RegexEngine := none
  numCaptures : Nat := 0

def TRegex.init (engine : RegexEngine) : TRegex where
  engine := some engine
  numCaptures := engine.numCaptures

/-- An output argument, by what its parser and its default do to the memory it points to. -/
structure Arg (μ : Type) where
  parse : List UInt8 → μ → Bool × μ
  setDefault : μ → μ

def npos : Nat := 2 ^ 64 - 1

/-- The bytes that a matched capture is parsed from. -/
def Capture.bytes (text : List UInt8) (start : Nat) (stop : Option Nat) : List UInt8 :=
  (text.drop start).take (stop.getD npos - start)

/-- The loop of `FullMatchN` over the captures and their arguments. -/
def parseArgs (text : List UInt8) : List (Capture × Arg μ) → μ → Bool × μ
  | [], memory => (true, memory)
  | (capture, arg) :: rest, memory =>
    match capture.start with
    | none => parseArgs text rest (arg.setDefault memory)
    | some start =>
      match arg.parse (Capture.bytes text start capture.end) memory with
      | (true, memory) => parseArgs text rest memory
      | (false, memory) => (false, memory)

namespace TRegex

/-- `match`, on a context of the calling thread. -/
def matchText (e : RegexEngine) (self : Nat) (text : List UInt8) (ctx : MatchContext) :
    Bool × MatchContext :=
  let (len, ctx) := e.findPrefix self text ctx true
  (len == some text.length, ctx)

def fullMatch (re : TRegex) (self : Nat) (text : List UInt8) (ctx : MatchContext) :
    Bool × MatchContext :=
  match re.engine with
  | none => (false, ctx)
  | some e => if !e.ok then (false, ctx) else matchText e self text ctx

def fullMatchN (re : TRegex) (self : Nat) (text : List UInt8) (args : List (Arg μ))
    (ctx : MatchContext) (memory : μ) : Bool × μ × MatchContext :=
  match re.engine with
  | none => (false, memory, ctx)
  | some e =>
    if !e.ok then (false, memory, ctx)
    else if re.numCaptures < args.length then (false, memory, ctx)
    else if args.length = 0 then
      let (found, ctx) := matchText e self text ctx
      (found, memory, ctx)
    else
      let (len, captures, ctx) := e.findPrefixWithContext self text ctx true false
      if len ≠ some text.length then (false, memory, ctx)
      else
        let (parsed, memory) := parseArgs text (captures.zip args) memory
        (parsed, memory, ctx)

end TRegex

theorem parseArgs_accepts {pairs : List (Capture × Arg μ)}
    (h : ∀ p ∈ pairs, ∀ bytes memory, (p.2.parse bytes memory).1 = true) (text : List UInt8)
    (memory : μ) : (parseArgs text pairs memory).1 = true := by
  induction pairs generalizing memory with
  | nil => rfl
  | cons p pairs ih =>
    obtain ⟨capture, arg⟩ := p
    have hrest := ih fun p hp => h p (List.mem_cons_of_mem _ hp)
    unfold parseArgs
    split
    · exact hrest _
    · next start _ =>
      have hparse := h _ List.mem_cons_self (Capture.bytes text start capture.end) memory
      dsimp only at hparse
      generalize arg.parse (Capture.bytes text start capture.end) memory = result at hparse
      obtain ⟨accepted, memory'⟩ := result
      cases hparse
      exact hrest memory'

theorem TRegex.fullMatchN_eq {e : RegexEngine} (hok : e.ok = true)
    (hlen : (e.findPrefixWithContext self text ctx true false).1 =
      (e.findPrefix self' text ctx' true).1)
    (hempty : (e.findPrefix self text ctx true).1 = (e.findPrefix self' text ctx' true).1)
    (args : List (Arg μ)) (hargs : args.length ≤ e.numCaptures) (memory : μ) :
    ((∀ arg ∈ args, ∀ bytes m, (arg.parse bytes m).1 = true) →
      ((TRegex.init e).fullMatchN self text args ctx memory).1 =
        ((TRegex.init e).fullMatch self' text ctx').1) ∧
    (((TRegex.init e).fullMatchN self text args ctx memory).1 = true →
      ((TRegex.init e).fullMatch self' text ctx').1 = true) := by
  have hplain : ((TRegex.init e).fullMatch self' text ctx').1 =
      ((e.findPrefix self' text ctx' true).1 == some text.length) := by
    simp only [fullMatch, init, hok, matchText, Bool.not_true, Bool.false_eq_true, if_false]
  rw [hplain, ← hlen]
  simp only [fullMatchN, init, hok, Bool.not_true, Bool.false_eq_true, if_false,
    if_neg (Nat.not_lt.2 hargs)]
  split
  · have hfound : (matchText e self text ctx).1 =
        ((e.findPrefix self text ctx true).1 == some text.length) := rfl
    rw [hfound, hempty, ← hlen]
    exact ⟨fun _ => rfl, id⟩
  · generalize e.findPrefixWithContext self text ctx true false = result
    obtain ⟨len, captures, ctx⟩ := result
    dsimp only
    split
    · next hne =>
      rw [beq_eq_false_iff_ne.2 hne]
      exact ⟨fun _ => rfl, id⟩
    · next heq =>
      rw [Decidable.not_not.1 heq, beq_self_eq_true]
      refine ⟨fun haccepts => ?_, fun _ => rfl⟩
      apply parseArgs_accepts
      intro p hp
      exact haccepts p.2 (List.of_mem_zip hp).2

section Longest
variable {tokens : List Nat} {classes : List RuneClass} {n : Nat}

theorem findPrefix_context (hok : (RegexEngine.compile tokens classes n).ok = true)
    (hctx : MatchContext.LeftOver ctx) (hctx' : MatchContext.LeftOver ctx') (self self' : Nat)
    (s : List UInt8) (atStart : Bool) :
    ((RegexEngine.compile tokens classes n).findPrefix self s ctx atStart).1 =
      ((RegexEngine.compile tokens classes n).findPrefix self' s ctx' atStart).1 := by
  have hready := RegexEngine.compile_ready hok
  have hx := Input.shows_ofText classes s atStart
  exact (findPrefixNoncapturing_best hready rfl hx hctx.valid self).unique
    (findPrefixNoncapturing_best hready rfl hx hctx'.valid self')

theorem findPrefixWithContext_eq (hok : (RegexEngine.compile tokens classes n).ok = true)
    (hctx : MatchContext.LeftOver ctx) (hctx' : MatchContext.LeftOver ctx') (self self' : Nat)
    (s : List UInt8) (atStart : Bool)
    (hfits : ArenaFits (RegexEngine.compile tokens classes n) (.ofText classes s atStart) 0) :
    ((RegexEngine.compile tokens classes n).findPrefixWithContext self s ctx atStart false).1 =
      ((RegexEngine.compile tokens classes n).findPrefix self' s ctx' atStart).1 := by
  have hready := RegexEngine.compile_ready hok
  have hx := Input.shows_ofText classes s atStart
  have hcaptures := RegexEngine.compile_numCaptures hok
  exact (findPrefixWithContext_best hready rfl hx hctx.valid hfits self).unique
    (findPrefixNoncapturing_best hready rfl hx hctx'.valid self')

/-- While the arena has a frame for every capture state that the simulation comes to, captures do
not change which prefix is found, nor output arguments whether the whole text matches. -/
theorem findPrefix_captures (hok : (RegexEngine.compile tokens classes n).ok = true)
    (hctx : MatchContext.LeftOver ctx) (hctx' : MatchContext.LeftOver ctx') (self self' : Nat)
    (s : List UInt8) :
    (∀ atStart, ArenaFits (.compile tokens classes n) (.ofText classes s atStart) 0 →
      ((RegexEngine.compile tokens classes n).findPrefixWithContext self s ctx atStart false).1 =
        ((RegexEngine.compile tokens classes n).findPrefix self' s ctx' atStart).1) ∧
    (ArenaFits (.compile tokens classes n) (.ofText classes s true) 0 →
      ∀ (μ : Type) (args : List (Arg μ)) (memory : μ), args.length ≤ n →
        ((∀ arg ∈ args, ∀ bytes m, (arg.parse bytes m).1 = true) →
          ((TRegex.init (.compile tokens classes n)).fullMatchN self s args ctx memory).1 =
            ((TRegex.init (.compile tokens classes n)).fullMatch self' s ctx').1) ∧
        (((TRegex.init (.compile tokens classes n)).fullMatchN self s args ctx memory).1 = true →
          ((TRegex.init (.compile tokens classes n)).fullMatch self' s ctx').1 = true)) := by
  constructor
  · intro atStart hfits
    exact findPrefixWithContext_eq hok hctx hctx' self self' s atStart hfits
  · intro hfits μ args memory hargs
    have hcaptures := RegexEngine.compile_numCaptures hok
    exact TRegex.fullMatchN_eq hok
      (findPrefixWithContext_eq hok hctx hctx' self self' s true hfits)
      (findPrefix_context hok hctx hctx' self self' s true) args (hcaptures.symm ▸ hargs) memory

end Longest

theorem findPrefix_captures_two :
    let e := RegexEngine.compile [0x61, captureGroup, zeroOrMore] [] 1
    e.ok = true ∧ ArenaFits e (.ofText [] [0x61, 0x61] true) 0 ∧
      (e.findPrefixWithContext 1 [0x61, 0x61] {} true false).1 = some 2 := by
  intro e
  have hok : e.ok = true := by decide +kernel
  have hbound : 2 * e.numCaptures * (1 + e.ownedStates.length * 3) ≤ maxCaptureFrameEntries := by
    decide +kernel
  have hfits : ArenaFits e (.ofText [] [0x61, 0x61] true) 0 := arenaFits_of_bound hbound 0
  have hplain : (e.findPrefix 1 [0x61, 0x61] {} true).1 = some 2 := by decide +kernel
  refine ⟨hok, hfits, ?_⟩
  exact ((findPrefix_captures hok .fresh .fresh 1 1 [0x61, 0x61]).1 true hfits).trans
    hplain

section Repeated

/-- The engine of `(a)*`. -/
def repeatedCapture : RegexEngine := .compile [0x61, captureGroup, zeroOrMore] [] 1

theorem repeatedCapture_cores : repeatedCapture.ownedStates.map StateDef.core =
    [(matchLabel, none, none), (0x61, some 2, none), (captureClose, some 4, none),
      (captureOpen, some 1, none), (split, some 3, some 0)] := by
  decide_cbv

/-- The capture states passed on the way to a state of `(a)*`, beyond two for each rune and less
one. -/
def ahead : State → Nat
  | 1 => 2
  | 2 => 0
  | _ => 1

def TwoPerRune (c : Snapshot) : Prop := 2 * c.index + ahead c.state ≤ c.passed + 1

theorem TwoPerRune.of_eq {c c' : Snapshot} (h : TwoPerRune c) (hs : c.state = q)
    (hs' : c'.state = q')
    (hle : 2 * c'.index + ahead q' + c.passed ≤ 2 * c.index + ahead q + c'.passed) :
    TwoPerRune c' := by
  unfold TwoPerRune at *
  rw [hs] at h
  rw [hs']
  omega

theorem CaptureStep.cases (hstep : CaptureStep states x place c c')
    (hcore : (states.map StateDef.core)[c.state]? = some (label, next, nextAlt)) :
    c'.passed = c.passed + (if (captureSlot label).isSome then 1 else 0) ∧
      match ({ label, next, nextAlt } : StateDef).epsilonNext (x.flagsAt c.index) with
      | some succs => some c'.state ∈ succs ∧ c'.index = c.index
      | none => next = some c'.state ∧ c'.index = c.index + 1 := by
  obtain ⟨⟨d', hd', hgo⟩, d, hd, -, hpassed⟩ := hstep
  obtain rfl : d' = d := Option.some.inj (hd'.symm.trans hd)
  dsimp only at hd' hgo
  rw [List.getElem?_map, hd, Option.map_some, Option.some.injEq, StateDef.core,
    Prod.mk.injEq, Prod.mk.injEq] at hcore
  obtain ⟨rfl, rfl, rfl⟩ := hcore
  refine ⟨hpassed, ?_⟩
  have hnext : ({ label := d'.label, next := d'.next, nextAlt := d'.nextAlt } :
      StateDef).epsilonNext (x.flagsAt c.index) = d'.epsilonNext (x.flagsAt c.index) := rfl
  rw [hnext]
  cases he : d'.epsilonNext (x.flagsAt c.index) with
  | some succs =>
    rw [he] at hgo
    exact hgo
  | none =>
    rw [he] at hgo
    exact ⟨hgo.1.1, hgo.2⟩

theorem TwoPerRune.step (h : TwoPerRune c)
    (hstep : CaptureStep repeatedCapture.ownedStates x place c c') : TwoPerRune c' := by
  have hsome : ∃ core, (repeatedCapture.ownedStates.map StateDef.core)[c.state]? = some core := by
    obtain ⟨-, d, hd, -⟩ := hstep
    exact ⟨d.core, by rw [List.getElem?_map, hd, Option.map_some]⟩
  obtain ⟨⟨label, next, nextAlt⟩, hcore⟩ := hsome
  obtain ⟨hpassed, hgo⟩ := hstep.cases hcore
  rw [repeatedCapture_cores] at hcore
  rcases hs : c.state with _ | _ | _ | _ | _ | q
  all_goals
    simp only [hs, List.getElem?_cons_zero, List.getElem?_cons_succ, List.getElem?_nil,
      Option.some.injEq, reduceCtorEq, Prod.mk.injEq] at hcore
  all_goals obtain ⟨rfl, rfl, rfl⟩ := hcore
  · cases hgo.1
  · have hp : c'.passed = c.passed := hpassed
    have hi : c'.index = c.index + 1 := hgo.2
    refine h.of_eq hs (Option.some.inj hgo.1).symm ?_
    rw [hp, hi]
    simp only [ahead]
    omega
  · have hp : c'.passed = c.passed + 1 := hpassed
    have hi : c'.index = c.index := hgo.2
    have hmem : some c'.state ∈ [some 4] := hgo.1
    refine h.of_eq hs (Option.some.inj (List.mem_singleton.1 hmem)) ?_
    rw [hp, hi]
    simp only [ahead]
    omega
  · have hp : c'.passed = c.passed + 1 := hpassed
    have hi : c'.index = c.index := hgo.2
    have hmem : some c'.state ∈ [some 1] := hgo.1
    refine h.of_eq hs (Option.some.inj (List.mem_singleton.1 hmem)) ?_
    rw [hp, hi]
    simp only [ahead]
    omega
  · have hp : c'.passed = c.passed := hpassed
    have hi : c'.index = c.index := hgo.2
    have hmem : some c'.state ∈ [some 3, some 0] := hgo.1
    rcases List.mem_cons.1 hmem with hq | hq
    · refine h.of_eq hs (Option.some.inj hq) ?_
      rw [hp, hi]
      simp only [ahead]
      omega
    · refine h.of_eq hs (Option.some.inj (List.mem_singleton.1 hq)) ?_
      rw [hp, hi]
      simp only [ahead]
      omega

theorem repeatedCapture_passed (hpath : ReflTransGen (CaptureStep repeatedCapture.ownedStates x place)
    ⟨repeatedCapture.startState, 0, spans, 0⟩ ⟨acceptState, i, spans', passed⟩) :
    2 * i ≤ passed := by
  have hstart : repeatedCapture.startState = 4 := by decide_cbv
  rw [hstart] at hpath
  have hinv : ∀ c, ReflTransGen (CaptureStep repeatedCapture.ownedStates x place)
      ⟨4, 0, spans, 0⟩ c → TwoPerRune c := by
    intro c hc
    induction hc with
    | refl => exact Nat.le_refl 1
    | tail _ hstep ih => exact ih.step hstep
  exact Nat.le_of_succ_le_succ (hinv _ hpath)

variable {c : UInt8}

theorem nextRune_replicate (hc : c.toNat < 128) (N pos : Nat) :
    nextRune (List.replicate N c) pos = if pos < N then some (c.toNat, 1) else none := by
  unfold nextRune decodeRune
  rw [List.length_replicate]
  split
  · next hlt =>
    rw [List.getElem?_replicate, if_pos hlt]
    simp only [isAscii, hc, decide_true, if_true]
  · rfl

theorem decodeFrom_replicate (hc : c.toNat < 128) (hfuel : N ≤ pos + fuel) :
    decodeFrom (List.replicate N c) fuel pos = List.replicate (N - pos) (c.toNat, 1) := by
  induction fuel generalizing pos with
  | zero =>
    have hle : N ≤ pos := hfuel
    rw [Nat.sub_eq_zero_of_le hle]
    rfl
  | succ fuel ih =>
    rw [decodeFrom, nextRune_replicate hc]
    by_cases hlt : pos < N
    · have hsub : N - pos = (N - (pos + 1)) + 1 := by omega
      rw [if_pos hlt, hsub, List.replicate_succ]
      exact congrArg _ (ih (by omega))
    · rw [if_neg hlt, Nat.sub_eq_zero_of_le (Nat.le_of_not_lt hlt)]
      rfl

theorem decoded_replicate (hc : c.toNat < 128) (N : Nat) :
    decoded (List.replicate N c) = List.replicate N (c.toNat, 1) := by
  have hfuel : N ≤ 0 + (List.replicate N c).length := by
    rw [List.length_replicate, Nat.zero_add]
  exact decodeFrom_replicate hc hfuel

theorem runes_replicate (hc : c.toNat < 128) (N : Nat) :
    runes (List.replicate N c) = List.replicate N c.toNat := by
  rw [runes, decoded_replicate hc, List.map_replicate]

theorem offset_replicate (hc : c.toNat < 128) (h : k ≤ N) : offset (List.replicate N c) k = k := by
  rw [offset, decoded_replicate hc, List.take_replicate, Nat.min_eq_left h, List.map_replicate,
    List.sum_replicate_nat, Nat.mul_one]

/-- A repeated character as a regex with a capture. -/
def repeated : Regexp := .zeroOrMore false (.capture 0 (.literal 0x61))

theorem repeated_matches (N : Nat) (h : k ≤ N) (atStart : Bool) :
    repeated.Matches (.ofText [] (List.replicate N 0x61) atStart) 0 k := by
  induction k with
  | zero => exact ReflTransGen.refl
  | succ k ih =>
    refine ReflTransGen.tail (ih (Nat.le_of_succ_le h)) ⟨?_, rfl⟩
    have hc : (0x61 : UInt8).toNat < 128 := by decide
    have hlt : k < N := h
    rw [Input.ofText, runes_replicate hc, List.getElem?_replicate, if_pos hlt]
    rfl

theorem repeatedCapture_plain (hctx : MatchContext.LeftOver ctx) (self N : Nat) (atStart : Bool) :
    (repeatedCapture.findPrefix self (List.replicate N 0x61) ctx atStart).1 = some N := by
  have hr : repeated.WellFormed [] := ⟨by decide, (by decide : 0x61 < captureGroup)⟩
  have hok : (RegexEngine.compile repeated.toPostfix [] 1).ok = true := by decide_cbv
  have hc : (0x61 : UInt8).toNat < 128 := by decide
  have hbest := findPrefix_best (RegexEngine.compile_sound hr hok) hctx self
    (List.replicate N 0x61) atStart
  have hfound : Best (repeated.Matches (.ofText [] (List.replicate N 0x61) atStart) 0)
      (List.replicate N 0x61) (runes (List.replicate N 0x61)).length
      (some (offset (List.replicate N 0x61) N)) := by
    rw [runes_replicate hc, List.length_replicate]
    exact .found _ (repeated_matches N (Nat.le_refl N) atStart)
  rw [offset_replicate hc (Nat.le_refl N)] at hfound
  exact hbest.unique hfound

theorem repeatedCapture_short (hctx : MatchContext.LeftOver ctx) (self : Nat)
    (hN : 250000 ≤ N) (atStart : Bool) :
    (repeatedCapture.findPrefixWithContext self (List.replicate N 0x61) ctx atStart false).1 ≠
      some N := by
  intro hfound
  have hok : repeatedCapture.ok = true := by decide_cbv
  have hcaptures : repeatedCapture.numCaptures = 1 := by decide_cbv
  have hc : (0x61 : UInt8).toNat < 128 := by decide
  have hx := Input.shows_ofText [] (List.replicate N 0x61) atStart
  have hspec := (findPrefixWithContext_spec (RegexEngine.compile_ready hok) rfl
    (hcaptures ▸ Nat.one_pos) hx hctx.valid self).1 N hfound
  obtain ⟨k, spans, passed, hk, hoffset, hpath, hlimit, -⟩ := hspec
  rw [runes_replicate hc, List.length_replicate] at hk
  rw [offset_replicate hc hk] at hoffset
  rw [Nat.zero_add] at hpath
  have hpassed := repeatedCapture_passed hpath
  have hlimit' : 2 * repeatedCapture.numCaptures * (1 + passed) ≤ maxCaptureFrameEntries := hlimit
  rw [hcaptures, maxCaptureFrameEntries] at hlimit'
  omega

theorem repeatedCapture_fullMatch (hctx : MatchContext.LeftOver ctx) (self : Nat)
    (hN : 250000 ≤ N) :
    ((TRegex.init repeatedCapture).fullMatch self (List.replicate N 0x61) ctx).1 = true ∧
      ((TRegex.init repeatedCapture).fullMatchN self (List.replicate N 0x61)
        [({ parse := fun _ _ => (true, ()), setDefault := id } : Arg Unit)] ctx ()).1 = false := by
  have hok : repeatedCapture.ok = true := by decide_cbv
  have hcaptures : repeatedCapture.numCaptures = 1 := by decide_cbv
  have hplain := repeatedCapture_plain hctx self N true
  have hshort := repeatedCapture_short hctx self hN true
  have hlen : (List.replicate N (0x61 : UInt8)).length = N := List.length_replicate ..
  generalize List.replicate N (0x61 : UInt8) = s at hplain hshort hlen ⊢
  constructor
  · simp only [TRegex.fullMatch, TRegex.init, hok, TRegex.matchText, hplain, hlen, Bool.not_true,
      Bool.false_eq_true, if_false, beq_self_eq_true]
  · simp only [TRegex.fullMatchN, TRegex.init, hok, hcaptures, hlen, Bool.not_true,
      Bool.false_eq_true, if_false, List.length_singleton, Nat.lt_irrefl, Nat.one_ne_zero]
    generalize repeatedCapture.findPrefixWithContext _ _ _ _ _ = result at hshort ⊢
    obtain ⟨len, captures, ctx⟩ := result
    dsimp only at hshort ⊢
    rw [if_pos hshort]

/-- On 250,000 repetitions the captures use up the frames, and the match is shorter. -/
theorem findPrefix_captures_shorter :
    repeatedCapture.ok = true ∧ 0 < repeatedCapture.numCaptures ∧
      (repeatedCapture.findPrefix 1 (List.replicate 250000 0x61) {} true).1 = some 250000 ∧
      (repeatedCapture.findPrefixWithContext 1 (List.replicate 250000 0x61) {} true false).1 ≠
        some 250000 ∧
      ((TRegex.init repeatedCapture).fullMatch 1 (List.replicate 250000 0x61) {}).1 = true ∧
      ((TRegex.init repeatedCapture).fullMatchN 1 (List.replicate 250000 0x61)
        [({ parse := fun _ _ => (true, ()), setDefault := id } : Arg Unit)] {} ()).1 = false := by
  have hok : repeatedCapture.ok = true := by decide_cbv
  have hcaptures : 0 < repeatedCapture.numCaptures := by decide_cbv
  exact ⟨hok, hcaptures, repeatedCapture_plain .fresh 1 250000 true,
    repeatedCapture_short .fresh 1 (Nat.le_refl 250000) true,
    repeatedCapture_fullMatch .fresh 1 (Nat.le_refl 250000)⟩

end Repeated

end Trieste.Regex
