import Mathlib.Order.Bounds.Basic
import Trieste.Regex.Compiled
import Trieste.Regex.Text

namespace Trieste.Regex
set_option autoImplicit true
open Library Relation

/-- The input shows the text from its position `b` on, after a rune of the given kind. -/
structure Input.Shows (x : Input) (b : Nat) (s : List UInt8) (atStart prevIsWord : Bool) :
    Prop where
  runes : ∀ k, x.runes[b + k]? = (Regex.runes s)[k]?
  length : x.runes.length = b + (Regex.runes s).length
  wordBefore : x.wordBefore b = prevIsWord
  startsAt : ∀ k, x.startsAt (b + k) = (atStart && k == 0)

theorem Input.shows_ofText (classes : List RuneClass) (s : List UInt8) (atStart : Bool) :
    (Input.ofText classes s atStart).Shows 0 s atStart false := by
  refine ⟨fun k => ?_, (Nat.zero_add _).symm, rfl, fun k => ?_⟩
  · rw [Nat.zero_add, Input.ofText]
  · rw [Nat.zero_add, Input.startsAt, Input.ofText]

namespace Input.Shows
variable {x : Input} {s : List UInt8} {atStart prevIsWord : Bool}

theorem wordAt (h : Input.Shows x b s atStart prevIsWord) (k : Nat) :
    x.wordAt (b + k) = (nextRune s (offset s k)).any fun r => isWordChar r.1 := by
  simp only [Input.wordAt, h.runes, getElem?_runes, Option.any_map]

theorem endsAt (h : Input.Shows x b s atStart prevIsWord) (hk : k ≤ (Regex.runes s).length) :
    x.endsAt (b + k) = decide (s.length ≤ offset s k) := by
  rw [Bool.eq_iff_iff, decide_eq_true_eq, length_le_offset_iff, Input.endsAt, beq_iff_eq, h.length]
  omega

end Input.Shows

/-- The states whose closures the simulation collects after `k` runes. -/
def Entry (e : RegexEngine) (x : Input) (b : Nat) : Nat → State → Prop
  | 0, t => t = e.startState
  | k + 1, t => ∃ s d r,
      (∃ u, Entry e x b k u ∧ InClosure e.ownedStates (x.flagsAt (b + k)) u s) ∧
      e.ownedStates[s]? = some d ∧ x.runes[b + k]? = some r ∧
      accepts x.classes d.label r = true ∧ d.next = some t

/-- The states that the simulation holds after `k` runes from the position `b` on. -/
def Active (e : RegexEngine) (x : Input) (b k : Nat) (u : State) : Prop :=
  ∃ t, Entry e x b k t ∧ InClosure e.ownedStates (x.flagsAt (b + k)) t u

theorem reaches_of_stackEdge
    (h : ReflTransGen (StackEdge states (x.flagsAt i)) (some a) (some b)) :
    ReflTransGen (NfaStep states x) (a, i) (b, i) := by
  generalize ho : some a = o at h
  induction h using ReflTransGen.head_induction_on generalizing a with
  | refl =>
    cases ho
    exact .refl
  | @head o c hedge hrest ih =>
    subst ho
    cases c with
    | none =>
      rcases hrest.cases_head with hc | ⟨_, hc, _⟩
      · cases hc
      · exact hc.elim
    | some c =>
      obtain ⟨d, succs, hd, he, hc⟩ := hedge
      exact .head ((NfaStep.epsilon_iff hd he).2 ⟨hc, rfl⟩) (ih rfl)

theorem entry_of_reaches (h : ReflTransGen (NfaStep e.ownedStates x) (e.startState, b) (u, j)) :
    ∃ k t, j = b + k ∧ Entry e x b k t ∧
      ReflTransGen (StackEdge e.ownedStates (x.flagsAt j)) (some t) (some u) := by
  generalize hc : (u, j) = c at h
  induction h generalizing u j with
  | refl =>
    cases hc
    exact ⟨0, e.startState, rfl, rfl, .refl⟩
  | @tail c c' _ hstep ih =>
    subst hc
    obtain ⟨s, i⟩ := c
    obtain ⟨k, t, rfl, ht, hpath⟩ := ih rfl
    obtain ⟨d, hd, hgo⟩ := hstep
    cases he : d.epsilonNext (x.flagsAt (b + k)) with
    | some succs =>
      simp only [he] at hgo
      obtain ⟨hmem, rfl⟩ := hgo
      exact ⟨k, t, rfl, ht, hpath.tail ⟨d, succs, hd, he, hmem⟩⟩
    | none =>
      simp only [he] at hgo
      obtain ⟨⟨hnext, r, hr, ha⟩, rfl⟩ := hgo
      have hentry : Entry e x b (k + 1) u :=
        ⟨s, d, r, ⟨t, ht, hpath, d, hd, he⟩, hd, hr, ha, hnext⟩
      exact ⟨k + 1, u, rfl, hentry, .refl⟩

theorem reaches_of_entry (h : Entry e x b k t) :
    ReflTransGen (NfaStep e.ownedStates x) (e.startState, b) (t, b + k) := by
  induction k generalizing t with
  | zero =>
    cases h
    exact .refl
  | succ k ih =>
    obtain ⟨s, d, r, ⟨u, hu, hpath, d', hd', hterm⟩, hd, hr, ha, hnext⟩ := h
    obtain rfl : d' = d := Option.some.inj (hd'.symm.trans hd)
    refine ((ih hu).trans (reaches_of_stackEdge hpath)).tail ?_
    exact (NfaStep.consume_iff hd hterm).2 ⟨⟨hnext, r, hr, ha⟩, rfl⟩

/-- The active states are those that paths of the NFA lead to and that closures collect. -/
theorem active_iff (e : RegexEngine) (x : Input) (b k : Nat) (u : State) :
    Active e x b k u ↔ ReflTransGen (NfaStep e.ownedStates x) (e.startState, b) (u, b + k) ∧
      Terminal e.ownedStates (x.flagsAt (b + k)) u := by
  constructor
  · intro h
    obtain ⟨t, ht, hpath, hterm⟩ := h
    exact ⟨(reaches_of_entry ht).trans (reaches_of_stackEdge hpath), hterm⟩
  · intro h
    obtain ⟨hreach, hterm⟩ := h
    obtain ⟨k', t, hk, ht, hpath⟩ := entry_of_reaches hreach
    obtain rfl : k = k' := Nat.add_left_cancel hk
    exact ⟨t, ht, hpath, hterm⟩

theorem active_accept_iff (hsound : e.Sound classes r) (hx : x.classes = classes) (b k : Nat) :
    Active e x b k acceptState ↔ r.Matches x b (b + k) := by
  rw [active_iff, hsound.nfa.reaches_iff x hx]
  obtain ⟨d, hd, hl, -⟩ := hsound.nfa.accept
  have hterm : Terminal e.ownedStates (x.flagsAt (b + k)) acceptState := by
    refine ⟨d, hd, ?_⟩
    simp only [StateDef.epsilonNext, hl]
    rfl
  exact and_iff_left hterm

/-- Once no state is active, none becomes active. -/
theorem not_active_of_le (h : ∀ u, ¬ Active e x b k u) (hk : k ≤ k') (u : State) :
    ¬ Active e x b k' u := by
  induction k', hk using Nat.le_induction generalizing u with
  | base => exact h u
  | succ k' _ ih =>
    intro hu
    obtain ⟨_, ⟨s, _, _, hs, _⟩, _⟩ := hu
    exact ih s hs

/-- The longest match that ends at one of the first `K` runes. -/
def Best (M : Nat → Prop) (s : List UInt8) (K : Nat) : Option Nat → Prop
  | none => ∀ k, k ≤ K → ¬ M k
  | some n => ∃ k, k ≤ K ∧ n = offset s k ∧ M k ∧ ∀ k', k' ≤ K → M k' → k' ≤ k

section Best
variable {M : Nat → Prop} {s : List UInt8} {best : Option Nat}

theorem Best.extend (h : Best M s K best) (hK : K ≤ K') (hnone : ∀ k, K < k → k ≤ K' → ¬ M k) :
    Best M s K' best := by
  cases best with
  | none =>
    intro k hk hm
    rcases Nat.lt_or_ge K k with hlt | hle
    · exact hnone k hlt hk hm
    · exact h k hle hm
  | some n =>
    obtain ⟨k, hk, hn, hm, hmax⟩ := h
    refine ⟨k, hk.trans hK, hn, hm, fun k' hk' hm' => ?_⟩
    rcases Nat.lt_or_ge K k' with hlt | hle
    · exact absurd hm' (hnone k' hlt hk')
    · exact hmax k' hle hm'

theorem Best.found (s : List UInt8) (hm : M K) : Best M s K (some (offset s K)) :=
  ⟨K, Nat.le_refl K, rfl, hm, fun _ hk' _ => hk'⟩

theorem Best.first (s : List UInt8) (isMatch : Bool) (hm : isMatch = true ↔ M 0) :
    Best M s 0 (if isMatch then some 0 else none) := by
  cases isMatch with
  | true => exact .found s (hm.1 rfl)
  | false =>
    intro k hk hk'
    obtain rfl : k = 0 := Nat.eq_zero_of_le_zero hk
    exact Bool.false_ne_true (hm.2 hk')

theorem Best.next (h : Best M s K best) (isMatch : Bool) (hm : isMatch = true ↔ M (K + 1)) :
    Best M s (K + 1) (if isMatch then some (offset s (K + 1)) else best) := by
  cases isMatch with
  | true => exact .found s (hm.1 rfl)
  | false =>
    refine h.extend (Nat.le_succ K) fun k hlt hle => ?_
    obtain rfl : k = K + 1 := Nat.le_antisymm hle hlt
    exact fun hk => Bool.false_ne_true (hm.2 hk)

theorem Best.congr {M' : Nat → Prop} (h : Best M s K best) (hM : ∀ k, M k ↔ M' k) :
    Best M' s K best := by
  have he : M = M' := funext fun k => propext (hM k)
  exact he ▸ h

/-- The offsets at which one of the first `K` runes ends a match. -/
def Ends (M : Nat → Prop) (s : List UInt8) (K : Nat) : Set Nat :=
  { n | ∃ k, k ≤ K ∧ offset s k = n ∧ M k }

theorem Best.eq_some_iff (h : Best M s K best) (n : Nat) :
    best = some n ↔ IsGreatest (Ends M s K) n := by
  cases best with
  | none =>
    refine ⟨fun hn => (nomatch hn), fun hn => ?_⟩
    obtain ⟨⟨k, hk, -, hm⟩, -⟩ := hn
    exact absurd hm (h k hk)
  | some m =>
    obtain ⟨k, hk, rfl, hm, hmax⟩ := h
    have hgreatest : IsGreatest (Ends M s K) (offset s k) := by
      refine ⟨⟨k, hk, rfl, hm⟩, ?_⟩
      intro n' hn'
      obtain ⟨k', hk', rfl, hm'⟩ := hn'
      exact offset_mono s (hmax k' hk' hm')
    refine ⟨fun hn => Option.some.inj hn ▸ hgreatest, fun hn => ?_⟩
    rw [hgreatest.unique hn]

theorem Best.eq_none_iff (h : Best M s K best) : best = none ↔ Ends M s K = ∅ := by
  cases best with
  | none =>
    refine ⟨fun _ => Set.eq_empty_iff_forall_notMem.2 ?_, fun _ => rfl⟩
    intro n hn
    obtain ⟨k, hk, -, hm⟩ := hn
    exact h k hk hm
  | some m =>
    obtain ⟨k, hk, rfl, hm, -⟩ := h
    refine ⟨fun hn => (nomatch hn), fun hempty => ?_⟩
    have hmem : offset s k ∈ Ends M s K := ⟨k, hk, rfl, hm⟩
    rw [hempty] at hmem
    exact hmem.elim

theorem Best.unique (h : Best M s K best) (h' : Best M s K best') : best = best' := by
  cases best with
  | none => exact (h'.eq_none_iff.2 (h.eq_none_iff.1 rfl)).symm
  | some n => exact ((h'.eq_some_iff n).2 ((h.eq_some_iff n).1 rfl)).symm

end Best

end Trieste.Regex
