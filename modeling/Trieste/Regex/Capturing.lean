import Mathlib.Order.Interval.Finset.Nat
import Trieste.Regex.Prefix
import Trieste.Regex.Walk

namespace Trieste.Regex
set_option autoImplicit true
open Library Relation

/-- A place of the NFA with the spans recorded on the way there and the number of capture states
passed. -/
structure Snapshot where
  state : State
  index : Nat
  spans : List (Option Nat)
  passed : Nat

/-- A step of the NFA that records positions and counts the capture states. -/
def CaptureStep (states : List StateDef) (x : Input) (place : Nat → Nat) (c c' : Snapshot) : Prop :=
  NfaStep states x (c.state, c.index) (c'.state, c'.index) ∧
    ∃ d, states[c.state]? = some d ∧ c'.spans = d.record (place c.index) c.spans ∧
      c'.passed = c.passed + if (captureSlot d.label).isSome then 1 else 0

theorem CaptureStep.records (h : ReflTransGen (CaptureStep states x place) c c') :
    ReflTransGen (RecordStep states x place) (c.state, (c.index, c.spans))
      (c'.state, (c'.index, c'.spans)) := by
  have hlift : ∀ a b, CaptureStep states x place a b →
      RecordStep states x place (a.state, (a.index, a.spans)) (b.state, (b.index, b.spans)) := by
    intro a b hstep
    obtain ⟨hnfa, d, hd, hspans, -⟩ := hstep
    exact ⟨hnfa, d, hd, hspans⟩
  exact ReflTransGen.lift (fun a : Snapshot => (a.state, (a.index, a.spans))) hlift _ _ h

/-- A path from the start, without spans, that passes no more capture states than there are frames
before the given one. -/
def Traced (e : RegexEngine) (x : Input) (b : Nat) (s : List UInt8) (slots : Nat) (i : Nat)
    (u : State) (frame : Nat) (spans : List (Option Nat)) : Prop :=
  ∃ passed, passed ≤ frame ∧ ReflTransGen (CaptureStep e.ownedStates x fun j => offset s (j - b))
    ⟨e.startState, b, List.replicate slots none, 0⟩ ⟨u, i, spans, passed⟩

theorem Traced.records (e : RegexEngine) (x : Input) (b : Nat) (s : List UInt8) (slots k : Nat) :
    Records e (offset s k) (x.flagsAt (b + k)) (Traced e x b s slots (b + k)) := by
  intro q d succs t frame frame' spans hd he ht hgoes h
  obtain ⟨passed, hle, hpath⟩ := h
  have hplace : offset s (b + k - b) = offset s k := by rw [Nat.add_sub_cancel_left]
  refine ⟨_, ?_, hpath.tail ⟨(NfaStep.epsilon_iff hd he).2 ⟨ht, rfl⟩, d, hd, hplace ▸ rfl, rfl⟩⟩
  unfold StateDef.goesOnIn at hgoes
  cases hslot : captureSlot d.label with
  | none =>
    rw [hslot] at hgoes
    rw [hgoes]
    exact hle
  | some slot =>
    rw [hslot] at hgoes
    exact Nat.lt_of_le_of_lt hle hgoes

theorem Traced.consume (h : Traced e x b s slots i q frame spans)
    (hd : e.ownedStates[q]? = some d) (he : d.epsilonNext (x.flagsAt i) = none)
    (hr : x.runes[i]? = some rune) (ha : accepts x.classes d.label rune = true)
    (hnext : d.next = some u) : Traced e x b s slots (i + 1) u frame spans := by
  obtain ⟨passed, hle, hpath⟩ := h
  have hslot := d.captureSlot_terminal he
  refine ⟨passed, hle, hpath.tail
    ⟨(NfaStep.consume_iff hd he).2 ⟨⟨hnext, rune, hr, ha⟩, rfl⟩, d, hd, ?_, ?_⟩⟩
  · rw [StateDef.record, hslot]
  · rw [hslot]
    rfl

/-- The capture states that paths from the start lead to, each with its position. The simulation
copies a frame for each of them. -/
def captureCells (e : RegexEngine) (x : Input) (b : Nat) : Set (State × Nat) :=
  { c | (∃ d slot, e.ownedStates[c.1]? = some d ∧ captureSlot d.label = some slot) ∧
    c.2 ≤ x.runes.length ∧ ReflTransGen (NfaStep e.ownedStates x) (e.startState, b) c }

theorem captureCells_finite (e : RegexEngine) (x : Input) (b : Nat) : (captureCells e x b).Finite := by
  apply ((Set.finite_Iio e.ownedStates.length).prod (Set.finite_Iic x.runes.length)).subset
  intro c hc
  obtain ⟨⟨d, _, hd, -⟩, hle, -⟩ := hc
  exact ⟨(List.getElem?_eq_some_iff.1 hd).1, hle⟩

/-- The arena holds a frame for the start and for every capture cell. -/
def ArenaFits (e : RegexEngine) (x : Input) (b : Nat) : Prop :=
  2 * e.numCaptures * (1 + (captureCells e x b).ncard) ≤ maxCaptureFrameEntries

/-- A bound on the states and positions is enough for the frames to fit. -/
theorem arenaFits_of_bound (h : 2 * e.numCaptures *
    (1 + e.ownedStates.length * (x.runes.length + 1)) ≤ maxCaptureFrameEntries) (b : Nat) :
    ArenaFits e x b := by
  have hsub : captureCells e x b ⊆
      ↑(Finset.range e.ownedStates.length ×ˢ Finset.range (x.runes.length + 1)) := by
    intro c hc
    obtain ⟨⟨d, _, hd, -⟩, hle, -⟩ := hc
    rw [Finset.mem_coe, Finset.mem_product, Finset.mem_range, Finset.mem_range]
    exact ⟨(List.getElem?_eq_some_iff.1 hd).1, Nat.lt_succ_of_le hle⟩
  have hcard := Set.ncard_le_ncard hsub (Finset.finite_toSet _)
  rw [Set.ncard_coe_finset, Finset.card_product, Finset.card_range, Finset.card_range] at hcard
  exact (Nat.mul_le_mul_left _ (Nat.add_le_add_left hcard 1)).trans h

theorem ArenaFits.fits (h : ArenaFits e x b) : Fits (2 * e.numCaptures) (captureCells e x b) :=
  ⟨captureCells_finite e x b, h⟩

theorem not_reaches_of_none : ¬ ReflTransGen (StackEdge states flags) none (some u) := by
  intro hpath
  rcases hpath.cases_head with heq | ⟨_, hedge, -⟩
  · cases heq
  · exact hedge

theorem captureCells_covers (hroots : ∀ t, roots (some t) →
      ReflTransGen (NfaStep e.ownedStates x) (e.startState, b) (t, i))
    (hi : i ≤ x.runes.length) : Covers e (x.flagsAt i) (captureCells e x b) i roots := by
  intro r s d slot hr hpath hd hslot
  cases r with
  | none => exact (not_reaches_of_none hpath).elim
  | some t => exact ⟨⟨d, slot, hd, hslot⟩, hi, (hroots t hr).trans (reaches_of_stackEdge hpath)⟩

section Loop
variable {e : RegexEngine} {classes : List RuneClass} {x : Input} {s : List UInt8}
  {atStart prevIsWord : Bool} {ctx : MatchContext} {current : List Thread}

theorem capturingFlags_eq (hx : x.Shows b s atStart prevIsWord) (hk : k ≤ (runes s).length)
    (hword : word = x.wordBefore (b + k)) :
    RegexEngine.capturingFlags s (offset s k) word
        ((nextRune s (offset s k)).any fun r => isWordChar r.1) (atStart && k == 0) =
      x.flagsAt (b + k) := by
  simp only [RegexEngine.capturingFlags, Input.flagsAt, Input.boundary, hword, hx.wordAt,
    hx.startsAt, hx.endsAt hk]

/-- The threads after `k` runes are paths of the NFA. -/
def Simulates (e : RegexEngine) (x : Input) (b : Nat) (s : List UInt8) (k : Nat)
    (current : List Thread) (ctx : MatchContext) : Prop :=
  Walk.Sound e (x.flagsAt (b + k)) (Traced e x b s ctx.captureFrameSlots (b + k))
    ⟨[], current, ctx⟩

/-- The threads after `k` runes are at all the active states. -/
structure SimulatesAll (e : RegexEngine) (x : Input) (b k : Nat) (current : List Thread)
    (ctx : MatchContext) : Prop where
  valid : ctx.visited.Valid
  marks : ctx.visited.marks.length = e.ownedStates.length
  spent : ctx.Spent (captureCells e x b) (b + k)
  active : ∀ u, u ∈ current.map Thread.state ↔ Active e x b k u

theorem Simulates.continues (hready : e.Ready classes) (hclasses : x.classes = classes)
    (h : Simulates e x b s k current ctx) (hr : x.runes[b + k]? = some rune) :
    RegexEngine.Continues e (Traced e x b s ctx.captureFrameSlots (b + (k + 1))) rune ctx
      current := by
  intro t ht d u hd hconsumes hnext
  obtain ⟨⟨hhas, htraced⟩, d', hd', he⟩ := h.threads t ht
  obtain rfl : d' = d := Option.some.inj (hd'.symm.trans hd)
  rw [hready.consumes d' rune (List.mem_of_getElem? hd), ← hclasses] at hconsumes
  exact ⟨hhas, htraced.consume hd he hr hconsumes hnext⟩

theorem Simulates.step (hready : e.Ready classes) (hclasses : x.classes = classes)
    (h : Simulates e x b s k current ctx) (hr : x.runes[b + k]? = some rune) :
    Simulates e x b s (k + 1)
        (e.stepCapturing current rune (offset s (k + 1)) ctx (x.flagsAt (b + (k + 1)))).1
        (e.stepCapturing current rune (offset s (k + 1)) ctx (x.flagsAt (b + (k + 1)))).2 ∧
      ctx.Keeps
        (e.stepCapturing current rune (offset s (k + 1)) ctx (x.flagsAt (b + (k + 1)))).2 := by
  obtain ⟨hsound, hkeeps⟩ := RegexEngine.stepCapturing_sound
    (Traced.records e x b s ctx.captureFrameSlots (k + 1)) h.aligned
    (h.continues hready hclasses hr)
  refine ⟨?_, hkeeps⟩
  rw [Simulates, hkeeps.slots]
  exact hsound

/-- Without pending entries, a walk has collected the closures of its roots. -/
theorem Walk.Complete.mem_iff (h : Walk.Complete e flags cells p roots ⟨[], current, ctx⟩)
    (u : State) : u ∈ current.map Thread.state ↔
      ∃ t, roots (some t) ∧ InClosure e.ownedStates flags t u := by
  obtain ⟨P, hexp, -, hmem⟩ := h.explored
  rw [hmem, hexp.reaches_iff]
  constructor
  · intro hu
    obtain ⟨⟨r, hr, hpath⟩, hterm⟩ := hu
    cases r with
    | none => exact (not_reaches_of_none hpath).elim
    | some t => exact ⟨t, hr, hpath, hterm⟩
  · intro hu
    obtain ⟨t, hr, hpath, hterm⟩ := hu
    exact ⟨⟨some t, hr, hpath⟩, hterm⟩

theorem SimulatesAll.roots_iff (hready : e.Ready classes) (hclasses : x.classes = classes)
    (h : SimulatesAll e x b k current ctx) (hr : x.runes[b + k]? = some rune) (t : State) :
    RegexEngine.Roots e current rune (some t) ↔ Entry e x b (k + 1) t := by
  constructor
  · intro hroot
    obtain ⟨q, hq, d, hd, hconsumes, hnext⟩ := hroot
    rw [hready.consumes d rune (List.mem_of_getElem? hd), ← hclasses] at hconsumes
    exact ⟨q.state, d, rune, (h.active q.state).1 (List.mem_map_of_mem hq), hd, hr, hconsumes,
      hnext⟩
  · intro hentry
    obtain ⟨q, d, rune', hq, hd, hr', ha, hnext⟩ := hentry
    obtain rfl : rune' = rune := Option.some.inj (hr'.symm.trans hr)
    obtain ⟨thread, hthread, rfl⟩ := List.mem_map.1 ((h.active q).2 hq)
    refine ⟨thread, hthread, d, hd, ?_, hnext⟩
    rw [hready.consumes d rune' (List.mem_of_getElem? hd), ← hclasses]
    exact ha

theorem SimulatesAll.step (hready : e.Ready classes) (hclasses : x.classes = classes)
    (hs : Simulates e x b s k current ctx) (h : SimulatesAll e x b k current ctx)
    (hfits : Fits ctx.captureFrameSlots (captureCells e x b)) (hr : x.runes[b + k]? = some rune) :
    SimulatesAll e x b (k + 1)
      (e.stepCapturing current rune (offset s (k + 1)) ctx (x.flagsAt (b + (k + 1)))).1
      (e.stepCapturing current rune (offset s (k + 1)) ctx (x.flagsAt (b + (k + 1)))).2 := by
  have hroots := h.roots_iff hready hclasses hr
  have hle : b + (k + 1) ≤ x.runes.length := (List.getElem?_eq_some_iff.1 hr).1
  have hcovers := captureCells_covers
    (fun t ht => reaches_of_entry ((hroots t).1 ht)) hle
  have hcomplete := RegexEngine.stepCapturing_complete
    (Traced.records e x b s ctx.captureFrameSlots (k + 1)) hs.aligned
    (hs.continues hready hclasses hr) h.valid h.marks h.spent
    (Nat.add_lt_add_left (Nat.lt_succ_self k) b) hfits hcovers
  refine ⟨e.stepCapturing_valid current rune _ h.valid _, hcomplete.marks, hcomplete.spent,
    fun u => ?_⟩
  rw [hcomplete.mem_iff]
  exact exists_congr fun t => and_congr_left' (hroots t)

end Loop

/-- The frame of the best match so far comes from a path to the accept state. -/
def BestTraced (e : RegexEngine) (x : Input) (b : Nat) (s : List UInt8) (ctx : MatchContext)
    (K : Nat) (best : Option (Nat × Nat)) : Prop :=
  ∀ pos frame, best = some (pos, frame) → ∃ k, k ≤ K ∧ pos = offset s k ∧
    ctx.Holds (Traced e x b s ctx.captureFrameSlots (b + k) acceptState) frame ∧
    (frame + 1) * ctx.captureFrameSlots ≤ maxCaptureFrameEntries

theorem BestTraced.keep (h : BestTraced e x b s ctx K best) (hkeeps : ctx.Keeps ctx')
    (hK : K ≤ K') : BestTraced e x b s ctx' K' best := by
  intro pos frame hbest
  obtain ⟨k, hk, hpos, hholds, hlimit⟩ := h pos frame hbest
  rw [← hkeeps.slots] at hholds hlimit
  exact ⟨k, hk.trans hK, hpos, hkeeps.holds hholds, hlimit⟩

theorem acceptedFrame_eq_some (h : RegexEngine.acceptedFrame current = some frame) :
    ∃ t ∈ current, t.state = acceptState ∧ t.capsFrame = frame := by
  obtain ⟨t, ht, rfl⟩ := Option.map_eq_some_iff.1 h
  have hstate := List.find?_some ht
  exact ⟨t, List.mem_of_find?_eq_some ht, beq_iff_eq.1 hstate, rfl⟩

theorem isSome_acceptedFrame (current : List Thread) :
    (RegexEngine.acceptedFrame current).isSome = true ↔ acceptState ∈ current.map Thread.state := by
  rw [RegexEngine.acceptedFrame, Option.isSome_map, List.find?_isSome, List.mem_map]
  simp only [beq_iff_eq]

section Loop
variable {e : RegexEngine} {classes : List RuneClass} {x : Input} {s : List UInt8}
  {atStart prevIsWord : Bool} {ctx : MatchContext} {current : List Thread}

theorem Simulates.bestTraced (h : Simulates e x b s k current ctx)
    (hbest : BestTraced e x b s ctx k best) :
    BestTraced e x b s ctx k
      (((RegexEngine.acceptedFrame current).map (offset s k, ·)).or best) := by
  intro pos frame heq
  cases hframe : RegexEngine.acceptedFrame current with
  | none =>
    rw [hframe, Option.map_none, Option.none_or] at heq
    exact hbest pos frame heq
  | some f =>
    rw [hframe, Option.map_some, Option.some_or] at heq
    obtain ⟨rfl, rfl⟩ := Prod.mk.inj (Option.some.inj heq)
    obtain ⟨t, ht, hstate, rfl⟩ := acceptedFrame_eq_some hframe
    have hholds := (h.threads t ht).1
    exact ⟨k, Nat.le_refl k, rfl, hstate ▸ hholds, hholds.1.trans h.aligned.limit⟩

theorem SimulatesAll.isMatch_iff (h : SimulatesAll e x b k current ctx) :
    (RegexEngine.acceptedFrame current).isSome = true ↔ Active e x b k acceptState := by
  rw [isSome_acceptedFrame, h.active]

theorem capturingLoop_traced (hready : e.Ready classes) (hclasses : x.classes = classes)
    (hx : x.Shows b s atStart prevIsWord) (hk : k ≤ (runes s).length)
    (hsim : Simulates e x b s k current ctx) (hbest : BestTraced e x b s ctx k best)
    (hword : word = x.wordAt (b + k)) (fuel : Nat) :
    BestTraced e x b s
        (e.capturingLoop s fuel current ctx (offset s k) (nextRune s (offset s k)) word best).2
        (runes s).length
        (e.capturingLoop s fuel current ctx (offset s k) (nextRune s (offset s k)) word best).1 ∧
      ctx.Keeps
        (e.capturingLoop s fuel current ctx (offset s k) (nextRune s (offset s k)) word best).2 := by
  induction fuel generalizing k current ctx word best with
  | zero => exact ⟨hbest.keep (.refl ctx) hk, .refl ctx⟩
  | succ fuel ih =>
    cases hnext : nextRune s (offset s k) with
    | none => exact ⟨hbest.keep (.refl ctx) hk, .refl ctx⟩
    | some next =>
      obtain ⟨rune, bytes⟩ := next
      have hrune : (runes s)[k]? = some rune := by rw [getElem?_runes, hnext]; rfl
      have hk' : k + 1 ≤ (runes s).length := (List.getElem?_eq_some_iff.1 hrune).1
      have hrune' : x.runes[b + k]? = some rune := (hx.runes k).trans hrune
      unfold RegexEngine.capturingLoop
      split
      · exact ⟨hbest.keep (.refl ctx) hk, .refl ctx⟩
      · have hflags := capturingFlags_eq hx hk' hword
        have hstart : (atStart && k + 1 == 0) = false := Bool.and_false atStart
        rw [hstart] at hflags
        dsimp only
        rw [← offset_succ hnext, hflags]
        obtain ⟨hsim', hkeeps⟩ := hsim.step hready hclasses hrune'
        obtain ⟨htraced, hkeeps'⟩ := ih hk' hsim'
          (hsim'.bestTraced (hbest.keep hkeeps (Nat.le_succ k))) (hx.wordAt (k + 1)).symm
        exact ⟨htraced, hkeeps.trans hkeeps'⟩

theorem map_fst_or (accepted : Option Nat) (pos : Nat) (best : Option (Nat × Nat)) :
    ((accepted.map (pos, ·)).or best).map Prod.fst =
      if accepted.isSome then some pos else best.map Prod.fst := by
  cases accepted <;> rfl

theorem capturingLoop_best (hready : e.Ready classes) (hclasses : x.classes = classes)
    (hx : x.Shows b s atStart prevIsWord) (hfuel : s.length ≤ offset s k + fuel)
    (hk : k ≤ (runes s).length) (hsim : Simulates e x b s k current ctx)
    (hall : SimulatesAll e x b k current ctx)
    (hfits : Fits ctx.captureFrameSlots (captureCells e x b))
    (hbest : Best (Active e x b · acceptState) s k (best.map Prod.fst))
    (hword : word = x.wordAt (b + k)) :
    Best (Active e x b · acceptState) s (runes s).length
      ((e.capturingLoop s fuel current ctx (offset s k) (nextRune s (offset s k)) word
        best).1.map Prod.fst) := by
  induction fuel generalizing k current ctx word best with
  | zero =>
    have hlen := (length_le_offset_iff s k).1 hfuel
    obtain rfl : k = (runes s).length := Nat.le_antisymm hk hlen
    exact hbest
  | succ fuel ih =>
    cases hnext : nextRune s (offset s k) with
    | none =>
      have hlen := (length_le_offset_iff s k).1 (nextRune_eq_none_iff.1 hnext)
      obtain rfl : k = (runes s).length := Nat.le_antisymm hk hlen
      exact hbest
    | some next =>
      obtain ⟨rune, bytes⟩ := next
      have hrune : (runes s)[k]? = some rune := by rw [getElem?_runes, hnext]; rfl
      have hk' : k + 1 ≤ (runes s).length := (List.getElem?_eq_some_iff.1 hrune).1
      have hrune' : x.runes[b + k]? = some rune := (hx.runes k).trans hrune
      have hoffset := offset_succ hnext
      obtain ⟨_, hbytes⟩ := nextRune_pos hnext
      unfold RegexEngine.capturingLoop
      split
      · next hempty =>
        refine hbest.extend hk fun k' hlt _ hm => ?_
        have hnone : ∀ u, ¬ Active e x b k u := fun u hu => by
          have hmem := (hall.active u).2 hu
          rw [List.isEmpty_iff.1 hempty] at hmem
          exact List.not_mem_nil hmem
        exact not_active_of_le hnone hlt.le _ hm
      · have hflags := capturingFlags_eq hx hk' hword
        have hstart : (atStart && k + 1 == 0) = false := Bool.and_false atStart
        rw [hstart] at hflags
        dsimp only
        rw [← hoffset, hflags]
        obtain ⟨hsim', hkeeps⟩ := hsim.step hready hclasses hrune'
        have hall' := hall.step hready hclasses hsim hfits hrune'
        refine ih (by omega) hk' hsim' hall' (hkeeps.slots ▸ hfits) ?_ (hx.wordAt (k + 1)).symm
        rw [map_fst_or]
        exact hbest.next _ hall'.isMatch_iff

/-- The arena after the first frame was allocated. -/
structure FirstFrame (ctx : MatchContext) (slots : Nat) : Prop where
  width : ctx.captureFrameSlots = slots
  blank : ctx.captureFrames = List.replicate slots none
  limit : slots ≤ maxCaptureFrameEntries

theorem allocate_spec
    (h : (ctx.resetCaptureFrames slots).allocateCaptureFrame = (some frame, ctx')) :
    frame = 0 ∧ FirstFrame ctx' slots ∧ ctx'.visited = ctx.visited := by
  unfold MatchContext.allocateCaptureFrame at h
  split at h
  · cases h
  · next hlimit =>
    rw [Nat.not_lt, MatchContext.resetCaptureFrames, List.length_nil, Nat.zero_add] at hlimit
    cases h
    exact ⟨Nat.zero_div _, ⟨rfl, rfl, hlimit⟩, rfl⟩

theorem allocate_ne_none (h : ArenaFits e x b) :
    (ctx.resetCaptureFrames (2 * e.numCaptures)).allocateCaptureFrame ≠ (none, ctx') := by
  have hle : 2 * e.numCaptures ≤ maxCaptureFrameEntries :=
    (Nat.le_mul_of_pos_right _ (Nat.add_pos_left Nat.one_pos _)).trans h
  intro heq
  rw [MatchContext.allocateCaptureFrame, MatchContext.resetCaptureFrames, List.length_nil,
    Nat.zero_add, if_neg (Nat.not_lt.2 hle)] at heq
  cases heq

theorem FirstFrame.aligned (h : FirstFrame ctx slots) (hslots : 0 < slots) : ctx.Aligned := by
  refine ⟨h.width ▸ hslots, ?_, ?_⟩
  · rw [h.width, h.blank, List.length_replicate]
  · rw [h.blank, List.length_replicate]
    exact h.limit

theorem FirstFrame.captureFrame (h : FirstFrame ctx slots) :
    ctx.captureFrame 0 = List.replicate slots none := by
  rw [MatchContext.captureFrame, h.width, h.blank, Nat.zero_mul, List.drop_zero,
    List.take_of_length_le (List.length_replicate ..).le]

theorem FirstFrame.traced (h : FirstFrame ctx slots) (e : RegexEngine) (x : Input) (b : Nat)
    (s : List UInt8) : ctx.Holds (Traced e x b s slots b e.startState) 0 := by
  refine ⟨?_, 0, Nat.le_refl 0, h.captureFrame ▸ .refl⟩
  rw [MatchContext.HasFrame, h.width, h.blank, List.length_replicate, Nat.zero_add, Nat.one_mul]

/-- The first frame was not taken for a cell. -/
theorem FirstFrame.spent (h : FirstFrame ctx slots) (cells : Set (State × Nat)) (p : Nat) :
    ctx.Spent cells p := by
  refine ⟨∅, ?_, ?_, ?_⟩
  · rw [Finset.coe_empty]
    exact Set.empty_subset _
  · rw [h.width, h.blank, List.length_replicate, Finset.card_empty, Nat.mul_one]
  · intro c hc
    exact absurd hc (Finset.notMem_empty c)

theorem FirstFrame.nothing (h : FirstFrame ctx slots) (hslots : 0 < slots) (e : RegexEngine)
    (flags : Flags) (P : State → Nat → List (Option Nat) → Prop) :
    Walk.Sound e flags P ⟨[], [], ctx⟩ := by
  refine ⟨h.aligned hslots, fun _ _ hmem => ?_, fun _ hmem => ?_⟩
  · exact absurd hmem List.not_mem_nil
  · exact absurd hmem List.not_mem_nil

/-- The threads that `find_prefix_with_context` starts with. -/
theorem Simulates.start (h : FirstFrame ctx slots) (hslots : 0 < slots) (e : RegexEngine)
    (x : Input) (b : Nat) (s : List UInt8) :
    Simulates e x b s 0 (e.addThread [] (some e.startState) 0 0 ctx (x.flagsAt b)).1
        (e.addThread [] (some e.startState) 0 0 ctx (x.flagsAt b)).2 ∧
      (e.addThread [] (some e.startState) 0 0 ctx (x.flagsAt b)).2.captureFrameSlots = slots := by
  have hrecords : Records e 0 (x.flagsAt b) (Traced e x b s slots b) :=
    Traced.records e x b s slots 0
  have hframe : ∀ t, some e.startState = some t → ctx.Holds (Traced e x b s slots b t) 0 := by
    intro t ht
    obtain rfl := Option.some.inj ht
    exact h.traced e x b s
  obtain ⟨hsound, hkeeps⟩ := RegexEngine.addThread_sound hrecords
    (h.nothing hslots e (x.flagsAt b) _) hframe
  have hkept := hkeeps.slots.trans h.width
  refine ⟨?_, hkept⟩
  rw [Simulates, hkept]
  exact hsound

theorem SimulatesAll.start (h : FirstFrame ctx slots) (hslots : 0 < slots)
    (hv : ctx.visited.Valid) (hmarks : ctx.visited.marks.length = e.ownedStates.length)
    (hfits : Fits slots (captureCells e x b)) (hb : b ≤ x.runes.length) :
    SimulatesAll e x b 0
      (e.addThread [] (some e.startState) 0 0 ctx.advanceEpoch (x.flagsAt b)).1
      (e.addThread [] (some e.startState) 0 0 ctx.advanceEpoch (x.flagsAt b)).2 := by
  have hfirst : FirstFrame ctx.advanceEpoch slots := ⟨h.width, h.blank, h.limit⟩
  have hcovers : Covers e (x.flagsAt b) (captureCells e x b) b
      fun o => o = some e.startState ∨ False := by
    refine captureCells_covers (fun t ht => ?_) hb
    rw [Option.some.inj (ht.resolve_right id)]
  have hrecords : Records e 0 (x.flagsAt b) (Traced e x b [] slots b) :=
    Traced.records e x b [] slots 0
  have hframe : ∀ t, some e.startState = some t →
      ctx.advanceEpoch.Holds (Traced e x b [] slots b t) 0 := by
    intro t ht
    obtain rfl := Option.some.inj ht
    exact hfirst.traced e x b []
  have hcomplete := RegexEngine.addThread_complete hrecords
    (hfirst.nothing hslots e (x.flagsAt b) _) hframe (hfirst.width ▸ hfits) hcovers
    (.fresh _ hv hmarks (hfirst.spent _ b))
  refine ⟨?_, hcomplete.marks, hcomplete.spent, fun u => ?_⟩
  · exact e.addStateCapturing_valid 0 _ _ _ _ hv.advance
  · rw [hcomplete.mem_iff]
    constructor
    · intro hu
      obtain ⟨t, ht, hclosure⟩ := hu
      exact ⟨t, Option.some.inj (ht.resolve_right id), hclosure⟩
    · intro hu
      obtain ⟨t, rfl, hclosure⟩ := hu
      exact ⟨e.startState, .inl rfl, hclosure⟩

/-- The loop of `find_prefix_with_context` from the threads that it starts with. -/
def RegexEngine.capturingRun (e : RegexEngine) (s : List UInt8) (ctx : MatchContext)
    (flags : Flags) : Option (Nat × Nat) × MatchContext :=
  let start := e.addThread [] (some e.startState) 0 0 ctx flags
  e.capturingLoop s s.length start.1 start.2 0 (nextRune s 0)
    ((nextRune s 0).any fun r => isWordChar r.1)
    ((RegexEngine.acceptedFrame start.1).map (0, ·))

/-- With captures, `find_prefix_with_context` runs its loop on a blank frame, if there is room for
one. -/
theorem findPrefixWithContext_run (hready : e.Ready classes) (hn : 0 < e.numCaptures)
    (hx : x.Shows b s atStart prevIsWord) (hctx : ctx.visited.Valid) (self : Nat) :
    ((e.findPrefixWithContext self s ctx atStart prevIsWord).1 = none ∧ ¬ ArenaFits e x b) ∨
      ∃ ctx₁, FirstFrame ctx₁ (2 * e.numCaptures) ∧ ctx₁.visited.Valid ∧
        ctx₁.visited.marks.length = e.ownedStates.length ∧
        (e.findPrefixWithContext self s ctx atStart prevIsWord).1 =
          (e.capturingRun s ctx₁.advanceEpoch (x.flagsAt b)).1.map Prod.fst ∧
        ∀ pos frame, (e.capturingRun s ctx₁.advanceEpoch (x.flagsAt b)).1 = some (pos, frame) →
          (e.findPrefixWithContext self s ctx atStart prevIsWord).2.1 = e.readCaptures
            ((e.capturingRun s ctx₁.advanceEpoch (x.flagsAt b)).2.captureFrame frame) := by
  have hv := MatchContext.bindEngine_valid hctx self e.stateCount
  have hmarks := (ctx.bindEngine_marks self e.stateCount).trans hready.stateCount
  have hflags := capturingFlags_eq hx (Nat.zero_le _) hx.wordBefore.symm
  have hcond : (!e.ok || e.numCaptures == 0) = false := by
    rw [hready.ok, Bool.not_true, Bool.false_or, beq_eq_false_iff_ne]
    exact hn.ne'
  have hzero : offset s 0 = 0 := rfl
  rw [beq_self_eq_true, Bool.and_true, hzero, Nat.add_zero] at hflags
  unfold RegexEngine.findPrefixWithContext
  dsimp only
  rw [hcond, if_neg Bool.false_ne_true]
  rcases halloc : ((ctx.bindEngine self e.stateCount).resetCaptureFrames
    (2 * e.numCaptures)).allocateCaptureFrame with ⟨frame, ctx₁⟩
  cases frame with
  | none => exact .inl ⟨rfl, fun hfits => allocate_ne_none hfits halloc⟩
  | some frame =>
    obtain ⟨rfl, hfirst, hvisited⟩ := allocate_spec halloc
    refine .inr ⟨ctx₁, hfirst, hvisited ▸ hv, hvisited ▸ hmarks, ?_⟩
    simp only [hflags, RegexEngine.capturingRun]
    generalize e.capturingLoop s s.length _ _ _ _ _ _ = result
    obtain ⟨best, ctx₂⟩ := result
    cases best with
    | none => exact ⟨rfl, fun _ _ hnone => absurd hnone.symm (Option.some_ne_none _)⟩
    | some best =>
      refine ⟨rfl, fun pos frame hbest => ?_⟩
      obtain rfl := Option.some.inj hbest
      rfl

/-- What `find_prefix_with_context` returns for an engine with captures is a match that a path of
the NFA recorded; the longest one while the frames are not used up. -/
theorem findPrefixWithContext_spec (hready : e.Ready classes) (hclasses : x.classes = classes)
    (hn : 0 < e.numCaptures) (hx : x.Shows b s atStart prevIsWord)
    (hctx : ctx.visited.Valid) (self : Nat) :
    (∀ n, (e.findPrefixWithContext self s ctx atStart prevIsWord).1 = some n →
      ∃ k spans passed, k ≤ (runes s).length ∧ n = offset s k ∧
        ReflTransGen (CaptureStep e.ownedStates x fun j => offset s (j - b))
          ⟨e.startState, b, List.replicate (2 * e.numCaptures) none, 0⟩
          ⟨acceptState, b + k, spans, passed⟩ ∧
        2 * e.numCaptures * (1 + passed) ≤ maxCaptureFrameEntries ∧
        (e.findPrefixWithContext self s ctx atStart prevIsWord).2.1 = e.readCaptures spans) ∧
    (ArenaFits e x b → Best (Active e x b · acceptState) s (runes s).length
      (e.findPrefixWithContext self s ctx atStart prevIsWord).1) := by
  have hslots : 0 < 2 * e.numCaptures := Nat.mul_pos Nat.two_pos hn
  have hb : b ≤ x.runes.length := hx.length ▸ Nat.le_add_right ..
  have hword := (hx.wordAt 0).symm
  rcases findPrefixWithContext_run hready hn hx hctx self with
    ⟨hnone, hnot⟩ | ⟨ctx₁, hfirst, hv, hmarks, hresult, hcaptures⟩
  · refine ⟨fun n hsome => ?_, fun hfits => absurd hfits hnot⟩
    rw [hnone] at hsome
    cases hsome
  · have hfirst' : FirstFrame ctx₁.advanceEpoch (2 * e.numCaptures) :=
      ⟨hfirst.width, hfirst.blank, hfirst.limit⟩
    obtain ⟨hsim, hwidth⟩ := Simulates.start hfirst' hslots e x b s
    have hnobest : BestTraced e x b s
        (e.addThread [] (some e.startState) 0 0 ctx₁.advanceEpoch (x.flagsAt b)).2 0 none :=
      fun _ _ hbest => nomatch hbest
    have hbest₀ := hsim.bestTraced hnobest
    rw [Option.or_none] at hbest₀
    obtain ⟨htraced, hkeeps⟩ := capturingLoop_traced hready hclasses hx (Nat.zero_le _) hsim
      hbest₀ hword s.length
    rw [hresult]
    constructor
    · intro n hfound
      obtain ⟨⟨pos, frame⟩, hpair, rfl⟩ := Option.map_eq_some_iff.1 hfound
      obtain ⟨k, hk, hpos, hholds, hlimit⟩ := htraced pos frame hpair
      rw [hkeeps.slots, hwidth] at hholds hlimit
      obtain ⟨-, passed, hpassed, hpath⟩ := hholds
      refine ⟨k, _, passed, hk, hpos, hpath, ?_, hcaptures pos frame hpair⟩
      rw [Nat.mul_comm, Nat.add_comm]
      exact (Nat.mul_le_mul_right _ (Nat.succ_le_succ hpassed)).trans hlimit
    · intro hfits
      have hall := SimulatesAll.start hfirst hslots hv hmarks hfits.fits hb
      refine capturingLoop_best hready hclasses hx (Nat.le_add_left ..) (Nat.zero_le _) hsim hall
        (hwidth ▸ hfits.fits) ?_ hword
      have hfound := map_fst_or (RegexEngine.acceptedFrame (e.addThread [] (some e.startState) 0 0
        ctx₁.advanceEpoch (x.flagsAt b)).1) (offset s 0) none
      rw [Option.or_none] at hfound
      exact hfound.symm ▸ .first s _ hall.isMatch_iff

/-- With or without captures, the longest match of the NFA is found while the frames last. -/
theorem findPrefixWithContext_best (hready : e.Ready classes) (hclasses : x.classes = classes)
    (hx : x.Shows b s atStart prevIsWord) (hctx : ctx.visited.Valid) (hfits : ArenaFits e x b)
    (self : Nat) : Best (Active e x b · acceptState) s (runes s).length
      (e.findPrefixWithContext self s ctx atStart prevIsWord).1 := by
  rcases Nat.eq_zero_or_pos e.numCaptures with hn | hn
  · have hcond : (!e.ok || e.numCaptures == 0) = true := by rw [hn, beq_self_eq_true, Bool.or_true]
    unfold RegexEngine.findPrefixWithContext
    dsimp only
    rw [if_pos hcond]
    exact findPrefixNoncapturing_best hready hclasses hx
      (MatchContext.bindEngine_valid hctx self e.stateCount) self
  · exact (findPrefixWithContext_spec hready hclasses hn hx hctx self).2 hfits

end Loop

end Trieste.Regex
