import Mathlib.Order.Interval.Set.Basic
import Trieste.Library.Fragment
import Trieste.Regex.Engine

namespace Trieste.Regex
set_option autoImplicit true
open Library Relation

def Input.flagsAt (x : Input) (i : Nat) : Flags := ⟨x.boundary i, x.startsAt i, x.endsAt i⟩

/-- Whether a state with the label consumes the rune. -/
def accepts (classes : List RuneClass) (label rune : Nat) : Bool :=
  if isClassRef label then (classes.getD (classRefIndex label) {}).contains rune
  else label == rune

/-- A step of the NFA, in which assertions look at the position and other states that are
collected consume a rune. -/
def NfaStep (states : List StateDef) (x : Input) (c c' : State × Nat) : Prop :=
  ∃ d, states[c.1]? = some d ∧
    match d.epsilonNext (x.flagsAt c.2) with
    | some succs => some c'.1 ∈ succs ∧ c'.2 = c.2
    | none => (d.next = some c'.1 ∧ ∃ r, x.runes[c.2]? = some r ∧
        accepts x.classes d.label r = true) ∧ c'.2 = c.2 + 1

theorem NfaStep.epsilon_iff (hd : states[q]? = some d)
    (he : d.epsilonNext (x.flagsAt i) = some succs) :
    NfaStep states x (q, i) (t, j) ↔ some t ∈ succs ∧ j = i := by
  simp only [NfaStep, hd, Option.some.injEq, exists_eq_left', he]

theorem NfaStep.consume_iff (hd : states[q]? = some d)
    (he : d.epsilonNext (x.flagsAt i) = none) :
    NfaStep states x (q, i) (t, j) ↔ (d.next = some t ∧ ∃ r, x.runes[i]? = some r ∧
      accepts x.classes d.label r = true) ∧ j = i + 1 := by
  simp only [NfaStep, hd, Option.some.injEq, exists_eq_left', he]

/-- The slot of the frame that a capture state sets. -/
def captureSlot (label : Nat) : Option Nat :=
  if isCaptureOpen label then some (captureIndex label * 2)
  else if isCaptureClose label then some (captureIndex label * 2 + 1)
  else none

/-- The frame after a state was left at a position. -/
def StateDef.record (d : StateDef) (pos : Nat) (frame : List (Option Nat)) : List (Option Nat) :=
  match captureSlot d.label with
  | some slot => frame.set slot (some pos)
  | none => frame

theorem StateDef.epsilonNext_capture {d : StateDef} (h : captureSlot d.label = some slot)
    (flags : Flags) : d.epsilonNext flags = some [d.next] := by
  unfold captureSlot at h
  have hcapture : (isCaptureOpen d.label || isCaptureClose d.label) = true := by
    split at h
    · next ho => rw [ho, Bool.true_or]
    · split at h
      · next hc => rw [hc, Bool.or_true]
      · cases h
  have hsplit : d.label ≠ split := by
    intro hs
    rw [hs] at hcapture
    exact absurd hcapture (by decide)
  rw [epsilonNext, if_neg hsplit, if_pos hcapture]

theorem StateDef.captureSlot_terminal {d : StateDef} (h : d.epsilonNext flags = none) :
    captureSlot d.label = none := by
  cases hslot : captureSlot d.label with
  | none => rfl
  | some slot =>
    rw [d.epsilonNext_capture hslot] at h
    cases h

theorem StateDef.record_of_none {d : StateDef} (h : captureSlot d.label = none) (pos : Nat)
    (spans : List (Option Nat)) : d.record pos spans = spans := by
  rw [record, h]

/-- A step of the NFA, where a capture state records the offset of its position. -/
def RecordStep (states : List StateDef) (x : Input) (place : Nat → Nat)
    (c c' : State × Cursor) : Prop :=
  NfaStep states x (c.1, c.2.1) (c'.1, c'.2.1) ∧
    ∃ d, states[c.1]? = some d ∧ c'.2.2 = d.record (place c.2.1) c.2.2

theorem RecordStep.iff (hd : states[q]? = some d) (c : Cursor) (t : State) (c' : Cursor) :
    RecordStep states x place (q, c) (t, c') ↔
      NfaStep states x (q, c.1) (t, c'.1) ∧ c'.2 = d.record (place c.1) c.2 := by
  simp only [RecordStep, hd, Option.some.injEq, exists_eq_left']

theorem RecordStep.iff_of_none (hd : states[q]? = some d) (hslot : captureSlot d.label = none)
    {R : Nat → State → Prop} {f : Nat → Nat}
    (hstep : ∀ i t j, NfaStep states x (q, i) (t, j) ↔ R i t ∧ j = f i) (c : Cursor) (t : State)
    (c' : Cursor) :
    RecordStep states x place (q, c) (t, c') ↔ R c.1 t ∧ c' = (f c.1, c.2) := by
  rw [RecordStep.iff hd, hstep, StateDef.record_of_none hslot, and_assoc, Prod.ext_iff]

/-- The state `q` after the dangling slots were patched to the target. -/
def StateDef.patched (d : StateDef) (dangling : List Slot) (q target : State) : StateDef :=
  { d with
    next := if ⟨q, false⟩ ∈ dangling then some target else d.next
    nextAlt := if ⟨q, true⟩ ∈ dangling then some target else d.nextAlt }

theorem StateDef.patched_of_disjoint (d : StateDef) (target : State)
    (h : ∀ slot ∈ dangling, slot.state ≠ q) : d.patched dangling q target = d := by
  have hf : (⟨q, false⟩ : Slot) ∉ dangling := fun hm => h _ hm rfl
  have ht : (⟨q, true⟩ : Slot) ∉ dangling := fun hm => h _ hm rfl
  simp only [patched, if_neg hf, if_neg ht]

theorem StateDef.put_patched (d : StateDef) (slot : Slot) (dangling : List Slot)
    (q target : State) :
    (if slot.state = q then d.put slot.alt target else d).patched dangling q target =
      d.patched (slot :: dangling) q target := by
  obtain ⟨state, alt⟩ := slot
  by_cases hq : state = q
  · subst state
    cases alt <;> simp [patched, put]
  · simp [patched, hq, Ne.symm hq]

theorem getElem?_patchStates (states : List StateDef) (slots : List Slot) (target q : State) :
    (patchStates states slots target)[q]? =
      states[q]?.map fun d => d.patched slots q target := by
  induction slots generalizing states with
  | nil => simp [patchStates, StateDef.patched]
  | cons slot slots ih =>
    have hstep : patchStates states (slot :: slots) target =
        patchStates (states.modify slot.state (StateDef.put · slot.alt target)) slots target := rfl
    rw [hstep, ih, List.getElem?_modify]
    cases hq : states[q]? with
    | none => rfl
    | some d => exact congrArg some (d.put_patched slot slots q target)

theorem length_patchStates (states : List StateDef) (slots : List Slot) (target : State) :
    (patchStates states slots target).length = states.length := by
  induction slots generalizing states with
  | nil => rfl
  | cons slot slots ih => exact (ih _).trans (List.length_modify ..)

/-- The states from `lo` on, once the dangling slots of the fragment are patched to any state, lead
from its start to that state by the matches of the regex. -/
structure Realizes (classes : List RuneClass) (states : List StateDef) (lo : Nat) (frag : Frag)
    (r : Regexp) : Prop where
  dangling : ∀ slot ∈ frag.dangling, slot.state ∈ Set.Ico lo states.length
  fragment : ∀ x place final exit, x.classes = classes →
    (∀ q, lo ≤ q → q < states.length →
      final[q]? = states[q]?.map fun d => d.patched frag.dangling q exit) →
    Fragment (RecordStep final x place) (Set.Ico lo states.length) frag.start exit
      (r.Records x place)

/-- The builder has more states and is otherwise as before. -/
structure Builder.Extends (b b' : Builder) (added : Nat) : Prop where
  capacity : b'.capacity = b.capacity
  errorCode : b'.errorCode = b.errorCode
  length : b'.ownedStates.length = b.ownedStates.length + added
  old : ∀ q, q < b.ownedStates.length → b'.ownedStates[q]? = b.ownedStates[q]?

theorem Builder.Extends.trans {b₁ b₂ b₃ : Builder} (h : b₁.Extends b₂ m) (h' : b₂.Extends b₃ n) :
    b₁.Extends b₃ (m + n) := by
  refine ⟨h'.capacity.trans h.capacity, h'.errorCode.trans h.errorCode, ?_, fun q hq => ?_⟩
  · rw [h'.length, h.length, Nat.add_assoc]
  · have hlt : q < b₂.ownedStates.length := by
      have := h.length
      omega
    rw [h'.old q hlt, h.old q hq]

theorem Builder.extends_createState (b : Builder) (label : Nat) (next nextAlt : Option State)
    (hcap : b.ownedStates.length < b.capacity) :
    ∃ b', b.createState label next nextAlt = (b', b.ownedStates.length) ∧ b.Extends b' 1 ∧
      b'.ownedStates[b.ownedStates.length]? = some { label, next, nextAlt } := by
  refine ⟨_, if_neg (Nat.not_le.2 hcap), ⟨rfl, rfl, by simp, fun q hq => ?_⟩, by simp⟩
  exact List.getElem?_append_left hq

/-- Slots of added states may be patched. -/
theorem Builder.Extends.patch (h : Builder.Extends b b' n)
    (hs : ∀ slot ∈ slots, b.ownedStates.length ≤ slot.state) (target : State) :
    b.Extends (b'.patch slots target) n := by
  refine ⟨h.capacity, h.errorCode, (length_patchStates ..).trans h.length, fun q hq => ?_⟩
  have hne : ∀ slot ∈ slots, slot.state ≠ q := fun slot hslot =>
    (hq.trans_le (hs slot hslot)).ne'
  simp only [Builder.patch, getElem?_patchStates, StateDef.patched_of_disjoint _ _ hne,
    Option.map_id', h.old q hq]

theorem StateDef.patched_append (d : StateDef) (target : State)
    (h : ∀ slot ∈ right, slot.state ≠ q) :
    d.patched (left ++ right) q target = d.patched left q target := by
  have hf : (⟨q, false⟩ : Slot) ∉ right := fun hm => h _ hm rfl
  have ht : (⟨q, true⟩ : Slot) ∉ right := fun hm => h _ hm rfl
  simp only [patched, List.mem_append, hf, ht, or_false]

theorem StateDef.patched_append' (d : StateDef) (target : State)
    (h : ∀ slot ∈ left, slot.state ≠ q) :
    d.patched (left ++ right) q target = d.patched right q target := by
  have hf : (⟨q, false⟩ : Slot) ∉ left := fun hm => h _ hm rfl
  have ht : (⟨q, true⟩ : Slot) ∉ left := fun hm => h _ hm rfl
  simp only [patched, List.mem_append, hf, ht, false_or]

theorem NfaStep.split_iff (hd : states[q]? = some d) (hl : d.label = split) :
    NfaStep states x (q, i) (t, j) ↔ (d.next = some t ∨ d.nextAlt = some t) ∧ j = i := by
  rw [NfaStep.epsilon_iff hd (if_pos hl)]
  simp only [List.mem_cons, List.not_mem_nil, or_false, eq_comm]

/-- The `Split` of a quantifier before its way past the operand is patched. -/
def quantifierSplit (operand : State) (isLazy : Bool) : StateDef where
  label := split
  next := if isLazy then none else some operand
  nextAlt := if isLazy then some operand else none

theorem createSplit_eq (b : Builder) (operand : State) (isLazy : Bool)
    (hcap : b.ownedStates.length < b.capacity) :
    ∃ b', createSplit b operand isLazy = (b', b.ownedStates.length) ∧ b.Extends b' 1 ∧
      b'.ownedStates[b.ownedStates.length]? = some (quantifierSplit operand isLazy) := by
  cases isLazy
  · exact b.extends_createState split (some operand) none hcap
  · exact b.extends_createState split none (some operand) hcap

theorem RecordStep.split_iff (hd : states[q]? = some d) (hl : d.label = split) (c : Cursor)
    (t : State) (c' : Cursor) : RecordStep states x place (q, c) (t, c') ↔
      (d.next = some t ∨ d.nextAlt = some t) ∧ c' = c := by
  have hslot : captureSlot d.label = none := by
    rw [hl]
    decide
  exact RecordStep.iff_of_none hd hslot (R := fun _ t => d.next = some t ∨ d.nextAlt = some t)
    (fun i t j => NfaStep.split_iff hd hl) c t c'

theorem RecordStep.quantifier_iff
    (hd : states[q]? = some ((quantifierSplit operand isLazy).patched [⟨q, !isLazy⟩] q exit))
    (c : Cursor) (t : State) (c' : Cursor) : RecordStep states x place (q, c) (t, c') ↔
      (t = operand ∨ t = exit) ∧ c' = c := by
  rw [RecordStep.split_iff hd rfl]
  cases isLazy <;> simp [quantifierSplit, StateDef.patched, eq_comm, or_comm]

section Assembly
variable {classes : List RuneClass} {s₁ s₂ s₃ : List StateDef} {left right operand : Frag}
  {p q : Regexp}

theorem Realizes.embed (h : Realizes classes s₁ lo operand p) (hx : x.classes = classes)
    (hlo : lo' ≤ lo) (hhi : s₁.length ≤ hi)
    (hfinal : ∀ k, lo ≤ k → k < s₁.length →
      final[k]? = s₁[k]?.map fun d => d.patched operand.dangling k exit) :
    Fragment (RecordStep final x place) (Set.Ico lo' hi) operand.start exit
      (p.Records x place) :=
  (h.fragment x place final exit hx hfinal).mono (Set.Ico_subset_Ico hlo hhi)

theorem Realizes.ne_of_lt (h : Realizes classes s₁ lo operand p) (hk : k < lo) :
    ∀ slot ∈ operand.dangling, slot.state ≠ k :=
  fun slot hs => (hk.trans_le (h.dangling slot hs).1).ne'

theorem Realizes.ne_of_le (h : Realizes classes s₁ lo operand p) (hk : s₁.length ≤ k) :
    ∀ slot ∈ operand.dangling, slot.state ≠ k :=
  fun slot hs => ((h.dangling slot hs).2.trans_le hk).ne

/-- Catenation patches the left fragment to the right one. -/
theorem Realizes.cat (hp : Realizes classes s₁ lo left p)
    (hq : Realizes classes s₂ s₁.length right q) (hlo : lo ≤ s₁.length)
    (hlen : s₁.length ≤ s₂.length) (hold : ∀ k, k < s₁.length → s₂[k]? = s₁[k]?) :
    Realizes classes (patchStates s₂ left.dangling right.start) lo ⟨left.start, right.dangling⟩
      (.cat p q) := by
  constructor
  · intro slot hs
    rw [length_patchStates]
    obtain ⟨h, h'⟩ := hq.dangling slot hs
    exact ⟨hlo.trans h, h'⟩
  · intro x place final exit hx hfinal
    rw [length_patchStates] at hfinal ⊢
    refine (hp.embed hx (le_refl lo) hlen fun k hk hk' => ?_).seq
      (hq.embed hx hlo (le_refl _) fun k hk hk' => ?_)
    · rw [hfinal k hk (hk'.trans_le hlen), getElem?_patchStates, hold k hk', Option.map_map]
      refine congrArg (s₁[k]?.map ·) (funext fun d => ?_)
      exact StateDef.patched_of_disjoint _ _ (hq.ne_of_lt hk')
    · rw [hfinal k (hlo.trans hk) hk', getElem?_patchStates, Option.map_map]
      refine congrArg (s₂[k]?.map ·) (funext fun d => ?_)
      exact congrArg (·.patched right.dangling k exit)
        (StateDef.patched_of_disjoint _ _ (hp.ne_of_le hk))

theorem Realizes.alt (hp : Realizes classes s₁ lo left p)
    (hq : Realizes classes s₂ s₁.length right q) (hlo : lo ≤ s₁.length)
    (hlen : s₁.length ≤ s₂.length) (hold : ∀ k, k < s₁.length → s₂[k]? = s₁[k]?)
    (hlen' : s₃.length = s₂.length + 1) (hold' : ∀ k, k < s₂.length → s₃[k]? = s₂[k]?)
    (hd : s₃[s₂.length]? = some
      { label := split, next := some left.start, nextAlt := some right.start }) :
    Realizes classes s₃ lo ⟨s₂.length, left.dangling ++ right.dangling⟩ (.alt p q) := by
  have hlt : s₂.length < s₃.length := by omega
  constructor
  · intro slot hs
    rcases List.mem_append.1 hs with hs | hs
    · obtain ⟨h, h'⟩ := hp.dangling slot hs
      exact ⟨h, h'.trans_le (hlen.trans hlt.le)⟩
    · obtain ⟨h, h'⟩ := hq.dangling slot hs
      exact ⟨hlo.trans h, h'.trans hlt⟩
  · intro x place final exit hx hfinal
    have hstart : final[s₂.length]? = some
        { label := split, next := some left.start, nextAlt := some right.start } := by
      rw [hfinal s₂.length (hlo.trans hlen) hlt, hd, Option.map_some,
        StateDef.patched_append _ _ (hq.ne_of_le (le_refl _)),
        StateDef.patched_of_disjoint _ _ (hp.ne_of_le hlen)]
    have hsplit : ∀ i t j, RecordStep final x place (s₂.length, i) (t, j) ↔
        (t = left.start ∨ t = right.start) ∧ j = i := fun i t j => by
      rw [RecordStep.split_iff hstart rfl]
      simp only [Option.some.injEq, eq_comm]
    refine Fragment.branch ⟨hlo.trans hlen, hlt⟩ hsplit
      (hp.embed hx (le_refl lo) (by omega) fun k hk hk' => ?_)
      (hq.embed hx hlo (by omega) fun k hk hk' => ?_)
    · rw [hfinal k hk (by omega), hold' k (by omega), hold k hk']
      refine congrArg (s₁[k]?.map ·) (funext fun d => ?_)
      exact StateDef.patched_append _ _ (hq.ne_of_lt hk')
    · rw [hfinal k (hlo.trans hk) (by omega), hold' k hk']
      refine congrArg (s₂[k]?.map ·) (funext fun d => ?_)
      exact StateDef.patched_append' _ _ (hp.ne_of_le hk)

theorem Realizes.zeroOrOne (hp : Realizes classes s₁ lo operand p) (hlo : lo ≤ s₁.length)
    (hlen : s₂.length = s₁.length + 1) (hold : ∀ k, k < s₁.length → s₂[k]? = s₁[k]?)
    (hd : s₂[s₁.length]? = some (quantifierSplit operand.start isLazy)) :
    Realizes classes s₂ lo ⟨s₁.length, operand.dangling ++ [⟨s₁.length, !isLazy⟩]⟩
      (.zeroOrOne isLazy p) := by
  have hlt : s₁.length < s₂.length := by omega
  constructor
  · intro slot hs
    rcases List.mem_append.1 hs with hs | hs
    · obtain ⟨h, h'⟩ := hp.dangling slot hs
      exact ⟨h, h'.trans hlt⟩
    · rw [List.mem_singleton.1 hs]
      exact ⟨hlo, hlt⟩
  · intro x place final exit hx hfinal
    have hstart : final[s₁.length]? = some ((quantifierSplit operand.start isLazy).patched
        [⟨s₁.length, !isLazy⟩] s₁.length exit) := by
      rw [hfinal s₁.length hlo hlt, hd, Option.map_some,
        StateDef.patched_append' _ _ (hp.ne_of_le (le_refl _))]
    refine Fragment.branch ⟨hlo, hlt⟩ (RecordStep.quantifier_iff hstart)
      (hp.embed hx (le_refl lo) hlt.le fun k hk hk' => ?_) (.skip _ exit)
    · rw [hfinal k hk (hk'.trans hlt), hold k hk']
      refine congrArg (s₁[k]?.map ·) (funext fun d => StateDef.patched_append _ _ fun slot hs => ?_)
      rw [List.mem_singleton.1 hs]
      exact hk'.ne'

/-- The operand comes back to the `Split` of a repeating quantifier, whose other way dangles. -/
theorem Realizes.back (hp : Realizes classes s₁ lo operand p) (hlo : lo ≤ s₁.length)
    (hlen : s₂.length = s₁.length + 1) (hold : ∀ k, k < s₁.length → s₂[k]? = s₁[k]?)
    (hd : s₂[s₁.length]? = some (quantifierSplit operand.start isLazy)) (hx : x.classes = classes)
    (hfinal : ∀ k, lo ≤ k → k < s₂.length →
      final[k]? = (patchStates s₂ operand.dangling s₁.length)[k]?.map fun d =>
        d.patched [⟨s₁.length, !isLazy⟩] k exit) :
    Fragment (RecordStep final x place) (Set.Ico lo s₂.length) operand.start s₁.length
        (p.Records x place) ∧
      ∀ i t j, RecordStep final x place (s₁.length, i) (t, j) ↔
        (t = operand.start ∨ t = exit) ∧ j = i := by
  have hlt : s₁.length < s₂.length := by omega
  constructor
  · refine hp.embed hx (le_refl lo) hlt.le fun k hk hk' => ?_
    rw [hfinal k hk (hk'.trans hlt), getElem?_patchStates, hold k hk', Option.map_map]
    refine congrArg (s₁[k]?.map ·) (funext fun d => ?_)
    refine StateDef.patched_of_disjoint _ _ fun slot hs => ?_
    rw [List.mem_singleton.1 hs]
    exact hk'.ne'
  · have hstart : final[s₁.length]? = some ((quantifierSplit operand.start isLazy).patched
        [⟨s₁.length, !isLazy⟩] s₁.length exit) := by
      rw [hfinal s₁.length hlo hlt, getElem?_patchStates, hd, Option.map_some, Option.map_some,
        StateDef.patched_of_disjoint _ _ (hp.ne_of_le (le_refl _))]
    exact RecordStep.quantifier_iff hstart

theorem Realizes.zeroOrMore (hp : Realizes classes s₁ lo operand p) (hlo : lo ≤ s₁.length)
    (hlen : s₂.length = s₁.length + 1) (hold : ∀ k, k < s₁.length → s₂[k]? = s₁[k]?)
    (hd : s₂[s₁.length]? = some (quantifierSplit operand.start isLazy)) :
    Realizes classes (patchStates s₂ operand.dangling s₁.length) lo
      ⟨s₁.length, [⟨s₁.length, !isLazy⟩]⟩ (.zeroOrMore isLazy p) := by
  have hin : s₁.length ∈ Set.Ico lo s₂.length := ⟨hlo, by omega⟩
  constructor
  · intro slot hs
    rw [List.mem_singleton.1 hs, length_patchStates]
    exact hin
  · intro x place final exit hx hfinal
    rw [length_patchStates] at hfinal ⊢
    obtain ⟨hbody, hstep⟩ := hp.back hlo hlen hold hd hx hfinal
    exact hbody.loop hin hstep

theorem Realizes.oneOrMore (hp : Realizes classes s₁ lo operand p) (hlo : lo ≤ s₁.length)
    (hlen : s₂.length = s₁.length + 1) (hold : ∀ k, k < s₁.length → s₂[k]? = s₁[k]?)
    (hd : s₂[s₁.length]? = some (quantifierSplit operand.start isLazy)) :
    Realizes classes (patchStates s₂ operand.dangling s₁.length) lo
      ⟨operand.start, [⟨s₁.length, !isLazy⟩]⟩ (.oneOrMore isLazy p) := by
  have hin : s₁.length ∈ Set.Ico lo s₂.length := ⟨hlo, by omega⟩
  constructor
  · intro slot hs
    rw [List.mem_singleton.1 hs, length_patchStates]
    exact hin
  · intro x place final exit hx hfinal
    rw [length_patchStates] at hfinal ⊢
    obtain ⟨hbody, hstep⟩ := hp.back hlo hlen hold hd hx hfinal
    exact hbody.repeated hin hstep

/-- A single state whose only way on dangles. -/
theorem Realizes.atom (hlen : s₁.length = lo + 1) (hd : s₁[lo]? = some { label })
    (hstep : ∀ x place final exit, x.classes = classes →
      final[lo]? = some { label, next := some exit } →
        ∀ i t j, RecordStep final x place (lo, i) (t, j) ↔ t = exit ∧ p.Records x place i j) :
    Realizes classes s₁ lo ⟨lo, [⟨lo, false⟩]⟩ p := by
  have hin : lo ∈ Set.Ico lo s₁.length := ⟨le_refl lo, by omega⟩
  constructor
  · intro slot hs
    rw [List.mem_singleton.1 hs]
    exact hin
  · intro x place final exit hx hfinal
    refine Fragment.atom hin (hstep x place final exit hx ?_)
    rw [hfinal lo (le_refl lo) hin.2, hd]
    simp [StateDef.patched]

theorem captureSlot_open (h : index < maxCaptures) :
    captureSlot (captureOpen + index) = some (index * 2) := by
  have ho : isCaptureOpen (captureOpen + index) = true := by simp [isCaptureOpen, h]
  rw [captureSlot, if_pos ho, captureIndex, if_pos ho, Nat.add_sub_cancel_left]

theorem captureSlot_close (h : index < maxCaptures) :
    captureSlot (captureClose + index) = some (index * 2 + 1) := by
  have hc : isCaptureClose (captureClose + index) = true := by simp [isCaptureClose, h]
  have ho : ¬ isCaptureOpen (captureClose + index) = true := by
    have hlt : captureClose + index < captureOpen := by
      simp only [captureClose, captureOpen, maxCaptures] at h ⊢
      omega
    simp [isCaptureOpen, Nat.not_le.2 hlt]
  rw [captureSlot, if_neg ho, if_pos hc, captureIndex, if_neg ho, Nat.add_sub_cancel_left]

theorem RecordStep.capture_iff (hd : states[k]? = some d) (hslot : captureSlot d.label = some slot)
    (hn : d.next = some exit) (c : Cursor) (t : State) (c' : Cursor) :
    RecordStep states x place (k, c) (t, c') ↔
      t = exit ∧ c' = (c.1, c.2.set slot (some (place c.1))) := by
  have he := d.epsilonNext_capture hslot (x.flagsAt c.1)
  rw [RecordStep.iff hd, NfaStep.epsilon_iff hd he, StateDef.record, hslot, hn,
    List.mem_singleton, Option.some.injEq, and_assoc, Prod.ext_iff]

/-- The states of a capture group consume nothing. -/
theorem Realizes.capture (hp : Realizes classes s₁ lo operand p) (hlo : lo ≤ s₁.length)
    (hlen : s₂.length = s₁.length + 1) (hold : ∀ k, k < s₁.length → s₂[k]? = s₁[k]?)
    (hclose : s₂[s₁.length]? = some { label := captureClose + index })
    (hlen' : s₃.length = s₂.length + 1)
    (hold' : ∀ k, k < s₂.length → s₃[k]? = (patchStates s₂ operand.dangling s₁.length)[k]?)
    (hopen : s₃[s₂.length]? =
      some { label := captureOpen + index, next := some operand.start })
    (hindex : index < maxCaptures) :
    Realizes classes s₃ lo ⟨s₂.length, [⟨s₁.length, false⟩]⟩ (.capture index p) := by
  have hlt : s₁.length < s₂.length := by omega
  have hlt' : s₂.length < s₃.length := by omega
  constructor
  · intro slot hs
    rw [List.mem_singleton.1 hs]
    exact ⟨hlo, hlt.trans hlt'⟩
  · intro x place final exit hx hfinal
    have hopen' : final[s₂.length]? =
        some { label := captureOpen + index, next := some operand.start } := by
      rw [hfinal s₂.length (hlo.trans hlt.le) hlt', hopen, Option.map_some]
      refine congrArg some (StateDef.patched_of_disjoint _ _ fun slot hs => ?_)
      rw [List.mem_singleton.1 hs]
      exact hlt.ne
    have hclose' : final[s₁.length]? =
        some { label := captureClose + index, next := some exit } := by
      rw [hfinal s₁.length hlo (hlt.trans hlt'), hold' _ hlt, getElem?_patchStates, hclose,
        Option.map_some, Option.map_some, StateDef.patched_of_disjoint _ _ (hp.ne_of_le le_rfl)]
      simp [StateDef.patched]
    have hbody : Fragment (RecordStep final x place) (Set.Ico lo s₃.length) operand.start s₁.length
        (p.Records x place) := by
      refine hp.embed hx (le_refl lo) (hlt.trans hlt').le fun k hk hk' => ?_
      rw [hfinal k hk (hk'.trans (hlt.trans hlt')), hold' k (hk'.trans hlt),
        getElem?_patchStates, hold k hk', Option.map_map]
      refine congrArg (s₁[k]?.map ·) (funext fun d => ?_)
      refine StateDef.patched_of_disjoint _ _ fun slot hs => ?_
      rw [List.mem_singleton.1 hs]
      exact hk'.ne'
    have hentry : Fragment (RecordStep final x place) (Set.Ico lo s₃.length) s₂.length
        operand.start fun i j => j = (i.1, i.2.set (index * 2) (some (place i.1))) :=
      .atom ⟨hlo.trans hlt.le, hlt'⟩ (RecordStep.capture_iff hopen' (captureSlot_open hindex) rfl)
    have hleave : Fragment (RecordStep final x place) (Set.Ico lo s₃.length) s₁.length exit
        fun i j => j = (i.1, i.2.set (index * 2 + 1) (some (place i.1))) :=
      .atom ⟨hlo, hlt.trans hlt'⟩ (RecordStep.capture_iff hclose' (captureSlot_close hindex) rfl)
    refine ((hentry.seq hbody).seq hleave).congr fun i j => ?_
    simp [Comp, Regexp.Records]

end Assembly

def IsOperand (label : Nat) : Prop :=
  label ≠ catenation ∧ label ≠ alternation ∧ quantifier? label = none ∧
    ¬ (captureGroup ≤ label ∧ label < captureGroup + maxCaptures)

instance : DecidablePred IsOperand := fun _ => inferInstanceAs (Decidable (_ ∧ _))

theorem postfixToken_operand (h : IsOperand label) (b : Builder) (stack : List Frag)
    (hcap : b.ownedStates.length < b.capacity) :
    ∃ b', postfixToken b stack label = (b', some
        (⟨b.ownedStates.length, [⟨b.ownedStates.length, false⟩]⟩ :: stack)) ∧
      b.Extends b' 1 ∧ b'.ownedStates[b.ownedStates.length]? = some { label } := by
  obtain ⟨hcat, halt, hq, hcapture⟩ := h
  obtain ⟨b', hb, hext, hd⟩ := b.extends_createState label none none hcap
  refine ⟨b', ?_, hext, hd⟩
  simp only [postfixToken, if_neg hcat, if_neg halt, hq, if_neg hcapture, hb]

theorem isOperand_of_range (h : r < captureGroup ∨ runeClassBase ≤ r) : IsOperand r := by
  simp only [captureGroup, runeClassBase] at h
  have hq : quantifier? r = none := by
    rw [quantifier?, if_neg (by simp only [zeroOrOne, lazyZeroOrOne]; omega),
      if_neg (by simp only [zeroOrMore, lazyZeroOrMore]; omega),
      if_neg (by simp only [oneOrMore, lazyOneOrMore]; omega)]
  refine ⟨?_, ?_, hq, ?_⟩ <;> simp only [catenation, alternation, captureGroup, maxCaptures] <;>
    omega

def Regexp.BuildsAs (R : List StateDef → Nat → Frag → Regexp → Prop) (r : Regexp) : Prop :=
  ∀ (b : Builder) (stack : List Frag) (rest : List Nat), b.errorCode = .noError →
    b.ownedStates.length + 2 * r.toPostfix.length ≤ b.capacity →
    ∃ b' frag n, postfixLoop b stack (r.toPostfix ++ rest) = postfixLoop b' (frag :: stack) rest ∧
      b.Extends b' n ∧ n ≤ 2 * r.toPostfix.length ∧
      R b'.ownedStates b.ownedStates.length frag r

def Regexp.Builds (classes : List RuneClass) (r : Regexp) : Prop := r.BuildsAs (Realizes classes)

theorem postfixLoop_cons (h : postfixToken b stack label = (b', some stack')) (rest : List Nat) :
    postfixLoop b stack (label :: rest) = postfixLoop b' stack' rest := by
  simp only [postfixLoop, h]

/-- The slots of its operand that a quantifier patches to its `Split`. -/
def QuantifierKind.patches : QuantifierKind → Frag → List Slot
  | zeroOrOne, _ => []
  | zeroOrMore, operand | oneOrMore, operand => operand.dangling

def QuantifierKind.frag (operand : Frag) (state : State) (isLazy : Bool) : QuantifierKind → Frag
  | zeroOrOne => ⟨state, operand.dangling ++ [⟨state, !isLazy⟩]⟩
  | zeroOrMore => ⟨state, [⟨state, !isLazy⟩]⟩
  | oneOrMore => ⟨operand.start, [⟨state, !isLazy⟩]⟩

def QuantifierKind.regexp (isLazy : Bool) (p : Regexp) : QuantifierKind → Regexp
  | zeroOrOne => .zeroOrOne isLazy p
  | zeroOrMore => .zeroOrMore isLazy p
  | oneOrMore => .oneOrMore isLazy p

def QuantifierKind.token (isLazy : Bool) : QuantifierKind → Nat
  | zeroOrOne => if isLazy then lazyZeroOrOne else Regex.zeroOrOne
  | zeroOrMore => if isLazy then lazyZeroOrMore else Regex.zeroOrMore
  | oneOrMore => if isLazy then lazyOneOrMore else Regex.oneOrMore

theorem buildQuantifier_eq (h : createSplit b operand.start isLazy = (b', state))
    (stack : List Frag) (kind : QuantifierKind) :
    buildQuantifier b (operand :: stack) kind isLazy =
      (b'.patch (kind.patches operand) state, kind.frag operand state isLazy :: stack) := by
  cases kind <;> simp only [buildQuantifier, h] <;> rfl

theorem postfixToken_quantifier (kind : QuantifierKind) (isLazy : Bool)
    (h : createSplit b operand.start isLazy = (b', state)) (herr : b'.errorCode = .noError)
    (stack : List Frag) :
    postfixToken b (operand :: stack) (kind.token isLazy) =
      (b'.patch (kind.patches operand) state, some (kind.frag operand state isLazy :: stack)) := by
  have hcat : kind.token isLazy ≠ catenation := by cases kind <;> cases isLazy <;> decide
  have halt : kind.token isLazy ≠ alternation := by cases kind <;> cases isLazy <;> decide
  have hq : quantifier? (kind.token isLazy) = some (kind, isLazy) := by
    cases kind <;> cases isLazy <;> decide
  have herr' : (b'.patch (kind.patches operand) state).errorCode = .noError := herr
  simp only [postfixToken, if_neg hcat, if_neg halt, hq, buildQuantifier_eq h, herr', if_true]

theorem Realizes.quantifier (kind : QuantifierKind) (hp : Realizes classes s₁ lo operand p)
    (hlo : lo ≤ s₁.length) (hlen : s₂.length = s₁.length + 1)
    (hold : ∀ k, k < s₁.length → s₂[k]? = s₁[k]?)
    (hd : s₂[s₁.length]? = some (quantifierSplit operand.start isLazy)) :
    Realizes classes (patchStates s₂ (kind.patches operand) s₁.length) lo
      (kind.frag operand s₁.length isLazy) (kind.regexp isLazy p) := by
  cases kind with
  | zeroOrOne => exact hp.zeroOrOne hlo hlen hold hd
  | zeroOrMore => exact hp.zeroOrMore hlo hlen hold hd
  | oneOrMore => exact hp.oneOrMore hlo hlen hold hd

/-- How fragments with a property are made of each other. -/
structure Assembles (R : List StateDef → Nat → Frag → Regexp → Prop) : Prop where
  dangling {s : List StateDef} {lo : Nat} {frag : Frag} {r : Regexp} : R s lo frag r →
    ∀ slot ∈ frag.dangling, slot.state ∈ Set.Ico lo s.length
  cat {s₁ s₂ : List StateDef} {lo : Nat} {left right : Frag} {p q : Regexp} : R s₁ lo left p →
    R s₂ s₁.length right q → lo ≤ s₁.length → s₁.length ≤ s₂.length →
    (∀ k, k < s₁.length → s₂[k]? = s₁[k]?) →
    R (patchStates s₂ left.dangling right.start) lo ⟨left.start, right.dangling⟩ (.cat p q)
  alt {s₁ s₂ s₃ : List StateDef} {lo : Nat} {left right : Frag} {p q : Regexp} : R s₁ lo left p →
    R s₂ s₁.length right q → lo ≤ s₁.length → s₁.length ≤ s₂.length →
    (∀ k, k < s₁.length → s₂[k]? = s₁[k]?) → s₃.length = s₂.length + 1 →
    (∀ k, k < s₂.length → s₃[k]? = s₂[k]?) →
    s₃[s₂.length]? = some
      { label := split, next := some left.start, nextAlt := some right.start } →
    R s₃ lo ⟨s₂.length, left.dangling ++ right.dangling⟩ (.alt p q)
  quantifier {s₁ s₂ : List StateDef} {lo : Nat} {operand : Frag} {p : Regexp} {isLazy : Bool}
    (kind : QuantifierKind) : R s₁ lo operand p → lo ≤ s₁.length → s₂.length = s₁.length + 1 →
    (∀ k, k < s₁.length → s₂[k]? = s₁[k]?) →
    s₂[s₁.length]? = some (quantifierSplit operand.start isLazy) →
    R (patchStates s₂ (kind.patches operand) s₁.length) lo (kind.frag operand s₁.length isLazy)
      (kind.regexp isLazy p)
  capture {s₁ s₂ s₃ : List StateDef} {lo index : Nat} {operand : Frag} {p : Regexp} :
    R s₁ lo operand p → lo ≤ s₁.length → s₂.length = s₁.length + 1 →
    (∀ k, k < s₁.length → s₂[k]? = s₁[k]?) →
    s₂[s₁.length]? = some { label := captureClose + index } → s₃.length = s₂.length + 1 →
    (∀ k, k < s₂.length → s₃[k]? = (patchStates s₂ operand.dangling s₁.length)[k]?) →
    s₃[s₂.length]? = some { label := captureOpen + index, next := some operand.start } →
    index < maxCaptures → R s₃ lo ⟨s₂.length, [⟨s₁.length, false⟩]⟩ (.capture index p)

theorem Regexp.builds_operand {r : Regexp} (hr : r.toPostfix = [label]) (hl : IsOperand label)
    (hR : ∀ s lo, s.length = lo + 1 → s[lo]? = some { label } → R s lo ⟨lo, [⟨lo, false⟩]⟩ r) :
    r.BuildsAs R := by
  intro b stack rest _ hcap
  rw [hr, List.length_singleton] at hcap
  obtain ⟨b', htok, hext, hd⟩ := postfixToken_operand hl b stack (by omega)
  refine ⟨b', _, 1, ?_, hext, ?_, hR _ _ hext.length hd⟩
  · rw [hr]
    exact postfixLoop_cons htok rest
  · simp [hr]

theorem Assembles.builds_cat (h : Assembles R) (hp : p.BuildsAs R) (hq : q.BuildsAs R) :
    (Regexp.cat p q).BuildsAs R := by
  intro b stack rest herr hcap
  simp only [Regexp.toPostfix, List.length_append, List.length_singleton] at hcap ⊢
  simp only [List.append_assoc]
  obtain ⟨b₁, left, m, hp, hext, hm, hleft⟩ :=
    hp b stack (q.toPostfix ++ ([catenation] ++ rest)) herr (by omega)
  have hlen := hext.length
  obtain ⟨b₂, right, n, hq, hext', hn, hright⟩ := hq b₁ (left :: stack) ([catenation] ++ rest)
    (hext.errorCode.trans herr) (by rw [hext.capacity]; omega)
  have hlen' := hext'.length
  refine ⟨_, _, m + n, ?_, (hext.trans hext').patch ?_ _, by omega,
    h.cat hleft hright (by omega) (by omega) hext'.old⟩
  · rw [hp, hq]
    exact postfixLoop_cons rfl rest
  · exact fun slot hs => (h.dangling hleft slot hs).1

theorem Assembles.builds_alt (h : Assembles R) (hp : p.BuildsAs R) (hq : q.BuildsAs R) :
    (Regexp.alt p q).BuildsAs R := by
  intro b stack rest herr hcap
  simp only [Regexp.toPostfix, List.length_append, List.length_singleton] at hcap ⊢
  simp only [List.append_assoc]
  obtain ⟨b₁, left, m, hp, hext, hm, hleft⟩ :=
    hp b stack (q.toPostfix ++ ([alternation] ++ rest)) herr (by omega)
  have hlen := hext.length
  obtain ⟨b₂, right, n, hq, hext', hn, hright⟩ := hq b₁ (left :: stack) ([alternation] ++ rest)
    (hext.errorCode.trans herr) (by rw [hext.capacity]; omega)
  have hlen' := hext'.length
  obtain ⟨b₃, hb, hext'', hd⟩ := b₂.extends_createState split (some left.start)
    (some right.start) (by rw [hext'.capacity, hext.capacity]; omega)
  refine ⟨b₃, _, m + n + 1, ?_, (hext.trans hext').trans hext'', by omega,
    h.alt hleft hright (by omega) (by omega) hext'.old hext''.length hext''.old hd⟩
  rw [hp, hq]
  refine postfixLoop_cons ?_ rest
  simp only [postfixToken, if_neg (by decide : alternation ≠ catenation), if_true, hb]

theorem Assembles.builds_quantifier (h : Assembles R) (kind : QuantifierKind) (isLazy : Bool)
    (hp : p.BuildsAs R) : (kind.regexp isLazy p).BuildsAs R := by
  intro b stack rest herr hcap
  have hpost : (kind.regexp isLazy p).toPostfix = p.toPostfix ++ [kind.token isLazy] := by
    cases kind <;> rfl
  simp only [hpost, List.length_append, List.length_singleton] at hcap ⊢
  simp only [List.append_assoc]
  obtain ⟨b₁, operand, n, hp, hext, hn, hreal⟩ :=
    hp b stack ([kind.token isLazy] ++ rest) herr (by omega)
  have hlen := hext.length
  obtain ⟨b₂, hb, hext', hd⟩ := createSplit_eq b₁ operand.start isLazy
    (by rw [hext.capacity]; omega)
  have herr' : b₂.errorCode = .noError := hext'.errorCode.trans (hext.errorCode.trans herr)
  refine ⟨_, _, n + 1, ?_, (hext.trans hext').patch ?_ _, by omega,
    h.quantifier kind hreal (by omega) hext'.length hext'.old hd⟩
  · rw [hp]
    exact postfixLoop_cons (postfixToken_quantifier kind isLazy hb herr' stack) rest
  · intro slot hs
    have hs' : slot ∈ operand.dangling := by
      cases kind with
      | zeroOrOne => exact absurd hs (List.not_mem_nil)
      | zeroOrMore | oneOrMore => exact hs
    exact (h.dangling hreal slot hs').1

theorem postfixToken_capture (hindex : index < maxCaptures)
    (hclose : b.createState (captureClose + index) none none = (b', close))
    (hopen : (b'.patch operand.dangling close).createState (captureOpen + index)
      (some operand.start) none = (b'', start)) (stack : List Frag) :
    postfixToken b (operand :: stack) (captureGroup + index) =
      (b'', some (⟨start, [⟨close, false⟩]⟩ :: stack)) := by
  simp only [maxCaptures] at hindex
  have hq : quantifier? (captureGroup + index) = none := by
    rw [quantifier?, if_neg (by simp only [captureGroup, zeroOrOne, lazyZeroOrOne]; omega),
      if_neg (by simp only [captureGroup, zeroOrMore, lazyZeroOrMore]; omega),
      if_neg (by simp only [captureGroup, oneOrMore, lazyOneOrMore]; omega)]
  have hcat : captureGroup + index ≠ catenation := by
    simp only [captureGroup, catenation]
    omega
  have halt : captureGroup + index ≠ alternation := by
    simp only [captureGroup, alternation]
    omega
  have hgroup : captureGroup ≤ captureGroup + index ∧
      captureGroup + index < captureGroup + maxCaptures := by
    simp only [maxCaptures]
    omega
  simp only [postfixToken, if_neg hcat, if_neg halt, hq, if_pos hgroup, Nat.add_sub_cancel_left,
    hclose, hopen]

theorem Assembles.builds_capture (h : Assembles R) (hp : p.BuildsAs R) (hindex : index < maxCaptures) :
    (Regexp.capture index p).BuildsAs R := by
  intro b stack rest herr hcap
  simp only [Regexp.toPostfix, List.length_append, List.length_singleton] at hcap ⊢
  simp only [List.append_assoc]
  obtain ⟨b₁, operand, n, hp, hext, hn, hreal⟩ :=
    hp b stack ([captureGroup + index] ++ rest) herr (by omega)
  have hlen := hext.length
  obtain ⟨b₂, hb, hext', hclose⟩ := b₁.extends_createState (captureClose + index) none none
    (by rw [hext.capacity]; omega)
  have hlen' := hext'.length
  have hext₂ : b.Extends (b₂.patch operand.dangling b₁.ownedStates.length) (n + 1) :=
    (hext.trans hext').patch (fun slot hs => (h.dangling hreal slot hs).1) _
  have hlen₂ : (b₂.patch operand.dangling b₁.ownedStates.length).ownedStates.length =
      b₂.ownedStates.length := length_patchStates ..
  obtain ⟨b₃, hb', hext'', hopen⟩ :=
    (b₂.patch operand.dangling b₁.ownedStates.length).extends_createState (captureOpen + index)
      (some operand.start) none (by rw [hext₂.capacity, hlen₂]; omega)
  have hlen'' := hext''.length
  have hold := hext''.old
  rw [hlen₂] at hb' hopen hlen'' hold
  refine ⟨b₃, _, n + 1 + 1, ?_, hext₂.trans hext'', by omega,
    h.capture hreal (by omega) hlen' hext'.old hclose hlen'' hold hopen hindex⟩
  rw [hp]
  refine postfixLoop_cons ?_ rest
  exact postfixToken_capture hindex hb hb' stack

theorem StateDef.epsilonNext_of_range (d : StateDef) (flags : Flags)
    (h : d.label < captureGroup ∨ runeClassBase ≤ d.label) : d.epsilonNext flags = none := by
  simp only [captureGroup, runeClassBase] at h
  have hs : d.label ≠ split := by simp only [split]; omega
  have hw : d.label ≠ wordBoundary := by simp only [wordBoundary]; omega
  have hb : d.label ≠ startAnchor := by simp only [startAnchor]; omega
  have he : d.label ≠ endAnchor := by simp only [endAnchor]; omega
  have hc : ¬ (isCaptureOpen d.label || isCaptureClose d.label) = true := by
    simp only [isCaptureOpen, isCaptureClose, Bool.or_eq_true, Bool.and_eq_true,
      decide_eq_true_eq]
    simp only [captureOpen, captureClose, maxCaptures]
    omega
  simp [epsilonNext, hs, hw, hb, he, hc]

/-- A state that consumes a rune records nothing. -/
theorem RecordStep.consume_iff (hd : states[q]? = some d)
    (hl : d.label < captureGroup ∨ runeClassBase ≤ d.label) (c : Cursor) (t : State)
    (c' : Cursor) : RecordStep states x place (q, c) (t, c') ↔
      (d.next = some t ∧ ∃ r, x.runes[c.1]? = some r ∧ accepts x.classes d.label r = true) ∧
        c' = (c.1 + 1, c.2) := by
  have he := fun flags => StateDef.epsilonNext_of_range d flags hl
  have hslot := StateDef.captureSlot_terminal (he ⟨false, false, false⟩)
  exact RecordStep.iff_of_none hd hslot (R := fun i t => d.next = some t ∧ ∃ r,
    x.runes[i]? = some r ∧ accepts x.classes d.label r = true)
    (fun i t j => NfaStep.consume_iff hd (he _)) c t c'

theorem Realizes.literal (hr : c < captureGroup) (hlen : s₁.length = lo + 1)
    (hd : s₁[lo]? = some { label := c }) :
    Realizes classes s₁ lo ⟨lo, [⟨lo, false⟩]⟩ (.literal c) := by
  refine .atom hlen hd fun x place final exit _ hd i t j => ?_
  have hclass : ¬ isClassRef c = true := by
    simp only [captureGroup] at hr
    simp only [isClassRef, Bool.and_eq_true, decide_eq_true_eq, runeClassMax]
    simp only [runeClassBase]
    omega
  rw [RecordStep.consume_iff hd (.inl hr)]
  simp only [accepts, if_neg hclass, Regexp.Records]
  grind

theorem Realizes.classRef (hr : runeClassBase + index ≤ runeClassMax) (hi : index < classes.length)
    (hlen : s₁.length = lo + 1) (hd : s₁[lo]? = some { label := runeClassBase + index }) :
    Realizes classes s₁ lo ⟨lo, [⟨lo, false⟩]⟩ (.classRef index) := by
  refine .atom hlen hd fun x place final exit hx hd i t j => ?_
  have hle : runeClassBase ≤ runeClassBase + index := Nat.le_add_right ..
  have hclass : isClassRef (runeClassBase + index) = true := by simp [isClassRef, hr]
  have hindex : classRefIndex (runeClassBase + index) = index := Nat.add_sub_cancel_left ..
  have hget : x.classes[index]? = some (classes.getD index {}) := by
    simp [hx, hi]
  rw [RecordStep.consume_iff hd (.inr hle)]
  simp only [accepts, hclass, hindex, if_true, Regexp.Records, hx] at hget ⊢
  grind

/-- An assertion goes on without a rune where its condition holds. -/
theorem Realizes.assertion {r : Regexp} (hslot : captureSlot label = none)
    (holds : Input → Nat → Bool)
    (hm : ∀ x place i j, r.Records x place i j ↔ holds x i.1 = true ∧ j = i)
    (he : ∀ (d : StateDef) (x : Input) i, d.label = label →
      d.epsilonNext (x.flagsAt i) = some (if holds x i then [d.next] else []))
    (hlen : s₁.length = lo + 1) (hd : s₁[lo]? = some { label }) :
    Realizes classes s₁ lo ⟨lo, [⟨lo, false⟩]⟩ r := by
  refine .atom hlen hd fun x place final exit _ hd i t j => ?_
  have hstep : ∀ i t j, NfaStep final x (lo, i) (t, j) ↔
      (holds x i = true ∧ t = exit) ∧ j = i := by
    intro i t j
    rw [NfaStep.epsilon_iff hd (he _ x i rfl)]
    cases holds x i <;> simp
  rw [RecordStep.iff_of_none hd hslot hstep, hm, and_assoc, and_left_comm]

def Regexp.operand? : Regexp → Option Nat
  | literal c => some c
  | classRef index => some (runeClassBase + index)
  | startAnchor => some Regex.startAnchor
  | endAnchor => some Regex.endAnchor
  | wordBoundary => some Regex.wordBoundary
  | _ => none

theorem realizes_operand {r : Regexp} (hr : r.WellFormed classes) (hlabel : r.operand? = some label)
    (hlen : s₁.length = lo + 1) (hd : s₁[lo]? = some { label }) :
    Realizes classes s₁ lo ⟨lo, [⟨lo, false⟩]⟩ r := by
  cases r with
  | literal c =>
    cases hlabel
    exact .literal hr hlen hd
  | classRef index =>
    cases hlabel
    exact .classRef hr.1 hr.2 hlen hd
  | startAnchor =>
    cases hlabel
    have hslot : captureSlot Regex.startAnchor = none := by decide
    refine .assertion hslot Input.startsAt (fun _ _ _ _ => Iff.rfl) (fun d x i hl => ?_) hlen hd
    simp only [StateDef.epsilonNext, hl]
    rfl
  | endAnchor =>
    cases hlabel
    have hslot : captureSlot Regex.endAnchor = none := by decide
    refine .assertion hslot Input.endsAt (fun _ _ _ _ => Iff.rfl) (fun d x i hl => ?_) hlen hd
    simp only [StateDef.epsilonNext, hl]
    rfl
  | wordBoundary =>
    cases hlabel
    have hslot : captureSlot Regex.wordBoundary = none := by decide
    refine .assertion hslot Input.boundary (fun _ _ _ _ => Iff.rfl) (fun d x i hl => ?_) hlen hd
    simp only [StateDef.epsilonNext, hl]
    rfl
  | cat | alt | zeroOrOne | zeroOrMore | oneOrMore | capture => cases hlabel

theorem realizes_assembles (classes : List RuneClass) : Assembles (Realizes classes) where
  dangling h := h.dangling
  cat hp hq := hp.cat hq
  alt hp hq := hp.alt hq
  quantifier kind hp := hp.quantifier kind
  capture hp := hp.capture

/-- The tokens of a regex push a fragment, whatever is shown of fragments. -/
theorem Assembles.builds (h : Assembles R)
    (hoperand : ∀ (r : Regexp) label s lo, r.WellFormed classes → r.operand? = some label →
      s.length = lo + 1 → s[lo]? = some { label } → R s lo ⟨lo, [⟨lo, false⟩]⟩ r)
    (r : Regexp) (hr : r.WellFormed classes) : r.BuildsAs R := by
  induction r with
  | literal c =>
    exact Regexp.builds_operand rfl (isOperand_of_range (.inl hr)) fun s lo =>
      hoperand _ _ s lo hr rfl
  | classRef index =>
    have hle : runeClassBase ≤ runeClassBase + index := Nat.le_add_right ..
    exact Regexp.builds_operand rfl (isOperand_of_range (.inr hle)) fun s lo =>
      hoperand _ _ s lo hr rfl
  | startAnchor =>
    exact Regexp.builds_operand rfl (by decide) fun s lo => hoperand _ _ s lo hr rfl
  | endAnchor =>
    exact Regexp.builds_operand rfl (by decide) fun s lo => hoperand _ _ s lo hr rfl
  | wordBoundary =>
    exact Regexp.builds_operand rfl (by decide) fun s lo => hoperand _ _ s lo hr rfl
  | cat p q ihp ihq => exact h.builds_cat (ihp hr.1) (ihq hr.2)
  | alt p q ihp ihq => exact h.builds_alt (ihp hr.1) (ihq hr.2)
  | zeroOrOne isLazy p ih => exact h.builds_quantifier .zeroOrOne isLazy (ih hr)
  | zeroOrMore isLazy p ih => exact h.builds_quantifier .zeroOrMore isLazy (ih hr)
  | oneOrMore isLazy p ih => exact h.builds_quantifier .oneOrMore isLazy (ih hr)
  | capture index p ih => exact h.builds_capture (ih hr.2) hr.1

theorem Regexp.builds (r : Regexp) (hr : r.WellFormed classes) : r.Builds classes :=
  (realizes_assembles classes).builds (fun _ _ _ _ => realizes_operand) r hr

theorem Regexp.toPostfix_ne_nil (r : Regexp) : r.toPostfix ≠ [] := by
  cases r <;> simp [toPostfix]

/-- The builder after the accept state was created. -/
def acceptBuilder (capacity : Nat) : Builder where
  ownedStates := [{ label := matchLabel }]
  capacity := capacity

/-- An NFA whose start state leads to its accept state, which ends every path, by the matches of
the regex and with the spans that they record. -/
structure Accepts (states : List StateDef) (start : State) (classes : List RuneClass)
    (r : Regexp) : Prop where
  accept : ∃ d, states[acceptState]? = some d ∧ d.label = matchLabel ∧ d.next = none
  records_iff : ∀ x place, x.classes = classes → ∀ c c',
    ReflTransGen (RecordStep states x place) (start, c) (acceptState, c') ↔ r.Records x place c c'

theorem RecordStep.exists_of_reaches
    (h : ReflTransGen (NfaStep states x) (s, i) (t, j)) (place : Nat → Nat)
    (spans : List (Option Nat)) :
    ∃ spans', ReflTransGen (RecordStep states x place) (s, (i, spans)) (t, (j, spans')) := by
  generalize hc : (t, j) = c at h
  induction h generalizing t j with
  | refl =>
    cases hc
    exact ⟨spans, .refl⟩
  | @tail c c' _ hstep ih =>
    subst hc
    obtain ⟨q, k⟩ := c
    obtain ⟨spans', hpath⟩ := ih rfl
    have hstep' := hstep
    obtain ⟨d, hd, -⟩ := hstep'
    exact ⟨_, hpath.tail ⟨hstep, d, hd, rfl⟩⟩

theorem RecordStep.reaches (h : ReflTransGen (RecordStep states x place) (s, c) (t, c')) :
    ReflTransGen (NfaStep states x) (s, c.1) (t, c'.1) := by
  have hlift : ∀ a b, RecordStep states x place a b →
      NfaStep states x (a.1, a.2.1) (b.1, b.2.1) := fun _ _ hstep => hstep.1
  exact ReflTransGen.lift (fun a : State × Cursor => (a.1, a.2.1)) hlift _ _ h

theorem Accepts.reaches_iff (h : Accepts states start classes r) (x : Input)
    (hx : x.classes = classes) (i j : Nat) :
    ReflTransGen (NfaStep states x) (start, i) (acceptState, j) ↔ r.Matches x i j := by
  constructor
  · intro hpath
    obtain ⟨spans, hpath⟩ := RecordStep.exists_of_reaches hpath id []
    exact ((h.records_iff x id hx _ _).1 hpath).matches
  · intro hm
    obtain ⟨spans, hrecords⟩ := hm.records id []
    exact RecordStep.reaches ((h.records_iff x id hx _ _).2 hrecords)

theorem postfixToNfa_accepts (r : Regexp) (hr : r.WellFormed classes)
    (hlen : r.toPostfix.length ≤ maxStates) :
    ∃ b start, postfixToNfa (acceptBuilder (2 * r.toPostfix.length + 1)) r.toPostfix = (b, start) ∧
      b.errorCode = .noError ∧ Accepts b.ownedStates start classes r := by
  obtain ⟨b, frag, n, hloop, hext, _, hreal⟩ :=
    r.builds hr (acceptBuilder (2 * r.toPostfix.length + 1)) [] [] rfl (Nat.add_comm 1 _).le
  have hold := hext.old acceptState (Nat.zero_lt_one)
  have haccept : (b.patch frag.dangling acceptState).ownedStates[acceptState]? =
      some { label := matchLabel } := by
    simp only [Builder.patch, getElem?_patchStates, hold]
    exact congrArg some (StateDef.patched_of_disjoint _ _ (hreal.ne_of_lt Nat.zero_lt_one))
  refine ⟨b.patch frag.dangling acceptState, frag.start, ?_, hext.errorCode, ⟨_, haccept, rfl, rfl⟩,
    fun x place hx c c' => ?_⟩
  · rw [postfixToNfa, if_neg r.toPostfix_ne_nil, if_neg (Nat.not_lt.2 hlen)]
    rw [List.append_nil] at hloop
    exact hloop
  · refine (hreal.fragment x place _ acceptState hx fun q _ _ => getElem?_patchStates ..).reaches_iff
      (fun hin => absurd hin.1 (Nat.not_le.2 Nat.zero_lt_one)) (fun i c hs => ?_) c c'
    have hnone : ({ label := matchLabel } : StateDef).epsilonNext (x.flagsAt i.1) = none := rfl
    obtain ⟨t, k⟩ := c
    obtain ⟨⟨hnext, _⟩, _⟩ := (NfaStep.consume_iff haccept hnone).1 hs.1
    cases hnext

end Trieste.Regex
