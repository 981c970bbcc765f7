import Trieste.Regex.Capturing

namespace Trieste.Regex
set_option autoImplicit true
open Library Relation

/-- What a pattern parses to: a tree, or nothing for an empty sequence of tokens. -/
abbrev Pattern := Option Regexp

namespace Pattern

def toPostfix : Pattern → List Nat
  | none => []
  | some r => r.toPostfix

def WellFormed (classes : List RuneClass) : Pattern → Prop
  | none => True
  | some r => r.WellFormed classes

def Matches (x : Input) : Pattern → Nat → Nat → Prop
  | none, i, j => j = i
  | some r, i, j => r.Matches x i j

def Records (x : Input) (place : Nat → Nat) : Pattern → Cursor → Cursor → Prop
  | none, c, c' => c' = c
  | some r, c, c' => r.Records x place c c'

theorem nothing_records (hok : (RegexEngine.compile [] classes n).ok = true) (x : Input)
    (place : Nat → Nat) (c c' : Cursor) :
    ReflTransGen (RecordStep (RegexEngine.compile [] classes n).ownedStates x place)
      ((RegexEngine.compile [] classes n).startState, c) (acceptState, c') ↔ c' = c := by
  have hnfa : postfixToNfa (acceptBuilder (2 * ([] : List Nat).length + 1)) [] =
      (acceptBuilder 1, acceptState) := rfl
  obtain ⟨hcore, hstart, -⟩ := RegexEngine.compile_kept hnfa hok
  rw [hstart, ← hcore.recordStep x place]
  constructor
  · intro hpath
    rcases hpath.cases_head with heq | ⟨m, hstep, -⟩
    · exact (Prod.mk.inj heq).2.symm
    · obtain ⟨t, k⟩ := m
      have hd : (acceptBuilder 1).ownedStates[acceptState]? = some { label := matchLabel } := rfl
      have hnone : ({ label := matchLabel } : StateDef).epsilonNext (x.flagsAt c.1) = none := rfl
      obtain ⟨⟨hnext, _⟩, _⟩ := (NfaStep.consume_iff hd hnone).1 hstep.1
      cases hnext
  · intro heq
    rw [heq]

theorem records_iff {p : Pattern} (hp : p.WellFormed classes)
    (hok : (RegexEngine.compile p.toPostfix classes n).ok = true) (x : Input)
    (hx : x.classes = classes) (place : Nat → Nat) (c c' : Cursor) :
    ReflTransGen (RecordStep (RegexEngine.compile p.toPostfix classes n).ownedStates x place)
      ((RegexEngine.compile p.toPostfix classes n).startState, c) (acceptState, c') ↔
      p.Records x place c c' := by
  cases p with
  | none => exact nothing_records hok x place c c'
  | some r => exact (RegexEngine.compile_sound hp hok).nfa.records_iff x place hx c c'

theorem matches_iff_records (p : Pattern) (x : Input) (place : Nat → Nat) (i j : Nat)
    (spans : List (Option Nat)) :
    p.Matches x i j ↔ ∃ spans', p.Records x place (i, spans) (j, spans') := by
  cases p with
  | none =>
    constructor
    · intro h
      exact ⟨spans, Prod.ext h rfl⟩
    · intro h
      obtain ⟨spans', h⟩ := h
      exact congrArg Prod.fst h
  | some r =>
    constructor
    · intro h
      exact h.records place spans
    · intro h
      obtain ⟨spans', h⟩ := h
      exact h.matches

/-- The accept state is active where the pattern matches. -/
theorem active_accept_iff {p : Pattern} (hp : p.WellFormed classes)
    (hok : (RegexEngine.compile p.toPostfix classes n).ok = true) (hx : x.classes = classes)
    (b k : Nat) : Active (.compile p.toPostfix classes n) x b k acceptState ↔
      p.Matches x b (b + k) := by
  rw [matches_iff_records p x id b (b + k) []]
  constructor
  · intro h
    obtain ⟨hpath, -⟩ := (active_iff _ x b k acceptState).1 h
    obtain ⟨spans, hpath⟩ := RecordStep.exists_of_reaches hpath id []
    exact ⟨spans, (records_iff hp hok x hx id _ _).1 hpath⟩
  · intro h
    obtain ⟨spans, hrecords⟩ := h
    refine (active_iff _ x b k acceptState).2 ⟨?_, ?_⟩
    · exact RecordStep.reaches ((records_iff hp hok x hx id _ _).2 hrecords)
    · exact RegexEngine.compile_terminal hok _

end Pattern

/-- Every recorded offset is at most the given one. -/
def Within (spans : List (Option Nat)) (limit : Nat) : Prop :=
  ∀ v, some v ∈ spans → v ≤ limit

/-- If the start of the group is set, its end is set and not before it. -/
def ClosedGroup (spans : List (Option Nat)) (group : Nat) : Prop :=
  ∀ a, spans[group * 2]? = some (some a) → ∃ z, spans[group * 2 + 1]? = some (some z) ∧ a ≤ z

/-- What a match does to the spans that were recorded before it. -/
structure Recorded (place : Nat → Nat) (c c' : Cursor) : Prop where
  forward : c.1 ≤ c'.1
  length : c'.2.length = c.2.length
  within : Within c.2 (place c.1) → Within c'.2 (place c'.1)
  closed : Within c.2 (place c.1) → ∀ group, ClosedGroup c.2 group → ClosedGroup c'.2 group

namespace Recorded

theorem refl (place : Nat → Nat) (c : Cursor) : Recorded place c c :=
  ⟨Nat.le_refl _, rfl, id, fun _ _ => id⟩

theorem trans (h : Recorded place c c') (h' : Recorded place c' c'') : Recorded place c c'' :=
  ⟨h.forward.trans h'.forward, h'.length.trans h.length, fun hw => h'.within (h.within hw),
    fun hw group hg => h'.closed (h.within hw) group (h.closed hw group hg)⟩

theorem consume (hplace : Monotone place) (c : Cursor) :
    Recorded place c (c.1 + 1, c.2) :=
  ⟨Nat.le_succ _, rfl, fun hw v hv => (hw v hv).trans (hplace (Nat.le_succ _)), fun _ _ => id⟩

end Recorded

theorem Within.set (h : Within spans limit) (slot : Nat) : Within (spans.set slot (some limit)) limit := by
  intro v hv
  rcases List.mem_or_eq_of_mem_set hv with hv | hv
  · exact h v hv
  · exact (Option.some.inj hv).le

theorem ClosedGroup.set_ne (h : ClosedGroup spans group) (hslot : slot / 2 ≠ group) (v : Option Nat) :
    ClosedGroup (spans.set slot v) group := by
  intro a ha
  have hne : slot ≠ group * 2 := by
    intro heq
    exact hslot (by rw [heq, Nat.mul_div_cancel _ Nat.two_pos])
  have hne' : slot ≠ group * 2 + 1 := by
    intro heq
    apply hslot
    rw [heq]
    omega
  rw [List.getElem?_set_ne hne] at ha
  rw [List.getElem?_set_ne hne']
  exact h a ha

/-- A match moves on, and the groups that it leaves are closed. -/
theorem Regexp.Records.recorded {p : Regexp} (hplace : Monotone place)
    (h : p.Records x place c c') (heven : c.2.length % 2 = 0) : Recorded place c c' := by
  induction p generalizing c c' with
  | literal | classRef =>
    obtain ⟨-, rfl⟩ := h
    exact .consume hplace c
  | startAnchor | endAnchor | wordBoundary =>
    obtain ⟨-, rfl⟩ := h
    exact .refl place c'
  | cat p q ihp ihq =>
    obtain ⟨m, hp, hq⟩ := h
    have hrec := ihp hp heven
    exact hrec.trans (ihq hq (hrec.length ▸ heven))
  | alt p q ihp ihq =>
    rcases h with hp | hq
    · exact ihp hp heven
    · exact ihq hq heven
  | zeroOrOne _ p ih =>
    rcases h with hp | rfl
    · exact ih hp heven
    · exact .refl place c'
  | zeroOrMore _ p ih =>
    induction h with
    | refl => exact .refl place c
    | tail _ hp ihs => exact ihs.trans (ih hp (ihs.length ▸ heven))
  | oneOrMore _ p ih =>
    induction h with
    | single hp => exact ih hp heven
    | tail _ hp ihs => exact ihs.trans (ih hp (ihs.length ▸ heven))
  | capture index p ih =>
    obtain ⟨m, hp, rfl⟩ := h
    have hlen : (c.2.set (index * 2) (some (place c.1))).length = c.2.length := List.length_set
    have hrec := ih hp (hlen ▸ heven)
    have hlen' : m.2.length = c.2.length := hrec.length.trans hlen
    refine ⟨hrec.forward, List.length_set.trans hlen', fun hw => ?_, fun hw group hg => ?_⟩
    · exact (hrec.within (hw.set _)).set _
    · have hw' := hrec.within (hw.set (index * 2))
      by_cases heq : group = index
      · subst heq
        intro a ha
        have hne : group * 2 + 1 ≠ group * 2 := Nat.succ_ne_self _
        rw [List.getElem?_set_ne hne] at ha
        have hlt : group * 2 + 1 < m.2.length := by
          have := (List.getElem?_eq_some_iff.1 ha).1
          omega
        refine ⟨place m.1, List.getElem?_set_self hlt, ?_⟩
        exact hw' a (List.mem_of_getElem? ha)
      · have hopen : index * 2 / 2 ≠ group := by omega
        have hclose : (index * 2 + 1) / 2 ≠ group := by omega
        exact (hrec.closed (hw.set _) group (hg.set_ne hopen _)).set_ne hclose _

theorem Pattern.Records.recorded {p : Pattern} (hplace : Monotone place)
    (h : p.Records x place c c') (heven : c.2.length % 2 = 0) : Recorded place c c' := by
  cases p with
  | none =>
    have heq : c' = c := h
    exact heq ▸ .refl place c
  | some r => exact Regexp.Records.recorded hplace h heven

def Cursor.map (f : Nat → Nat) (c : Cursor) : Cursor := (c.1, c.2.map (Option.map f))

/-- What is recorded depends on the places only. -/
theorem Regexp.Records.map {p : Regexp} (f : Nat → Nat) (h : p.Records x place c c') :
    p.Records x (fun j => f (place j)) (c.map f) (c'.map f) := by
  induction p generalizing c c' with
  | literal | classRef | startAnchor | endAnchor | wordBoundary =>
    obtain ⟨hcond, rfl⟩ := h
    exact ⟨hcond, rfl⟩
  | cat p q ihp ihq =>
    obtain ⟨m, hp, hq⟩ := h
    exact ⟨m.map f, ihp hp, ihq hq⟩
  | alt p q ihp ihq =>
    rcases h with hp | hq
    · exact .inl (ihp hp)
    · exact .inr (ihq hq)
  | zeroOrOne _ p ih =>
    rcases h with hp | rfl
    · exact .inl (ih hp)
    · exact .inr rfl
  | zeroOrMore _ p ih => exact ReflTransGen.lift (Cursor.map f) (fun _ _ hm => ih hm) _ _ h
  | oneOrMore _ p ih => exact TransGen.lift (Cursor.map f) (fun _ _ hm => ih hm) _ _ h
  | capture index p ih =>
    obtain ⟨m, hp, rfl⟩ := h
    refine ⟨m.map f, ?_, ?_⟩
    · have hset := ih hp
      rw [Cursor.map, List.map_set] at hset
      exact hset
    · rw [Cursor.map, List.map_set]
      rfl

theorem Pattern.Records.map {p : Pattern} (f : Nat → Nat) (h : p.Records x place c c') :
    p.Records x (fun j => f (place j)) (c.map f) (c'.map f) := by
  cases p with
  | none => exact congrArg (Cursor.map f) h
  | some r => exact Regexp.Records.map f h

end Trieste.Regex
