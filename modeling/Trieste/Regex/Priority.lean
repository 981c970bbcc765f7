import Trieste.Library.Priority
import Trieste.Regex.Capturing

namespace Trieste.Regex
set_option autoImplicit true
open Library Relation

abbrev Cell := State × Nat

/-- From a `Split`, `next` comes before `next_alt`. -/
def splitPriority (states : List StateDef) : Priority Cell where
  prefers c t t' := ∃ d, states[c.1]? = some d ∧ d.label = split ∧ d.next = some t.1 ∧
    d.nextAlt = some t'.1 ∧ t.1 ≠ t'.1
  irrefl := by
    rintro c t ⟨d, -, -, -, -, hne⟩
    exact hne rfl
  trans := by
    rintro c t t' t'' ⟨d, hd, -, ht, -, hne⟩ ⟨d', hd', -, ht', -⟩
    cases hd.symm.trans hd'
    exact absurd (Option.some.inj (ht.symm.trans ht')) hne

/-- The spans recorded along a run, once its last state was left. -/
def spansAlong (states : List StateDef) (place : Nat → Nat) (slots : Nat) :
    List Cell → List (Option Nat)
  | [] => List.replicate slots none
  | c :: π =>
    match states[c.1]? with
    | some d => d.record (place c.2) (spansAlong states place slots π)
    | none => spansAlong states place slots π

theorem spansAlong_cons (hd : states[s]? = some d) (place : Nat → Nat) (slots i : Nat)
    (π : List Cell) : spansAlong states place slots ((s, i) :: π) =
      d.record (place i) (spansAlong states place slots π) := by
  rw [spansAlong, hd]

def LevelStep (states : List StateDef) (x : Input) (p : Nat) (c c' : Cell) : Prop :=
  NfaStep states x c c' ∧ c'.2 ≤ p ∧ c'.1 < states.length

theorem NfaStep.lt (h : NfaStep states x c c') : c.1 < states.length := by
  obtain ⟨d, hd, -⟩ := h
  exact (List.getElem?_eq_some_iff.1 hd).1

theorem NfaStep.place_le (h : NfaStep states x c c') : c.2 ≤ c'.2 := by
  obtain ⟨d, hd, hgo⟩ := h
  cases he : d.epsilonNext (x.flagsAt c.2) with
  | some succs =>
    simp only [he] at hgo
    exact hgo.2.ge
  | none =>
    simp only [he] at hgo
    exact hgo.2 ▸ Nat.le_succ _

theorem simpleRun_level (h : SimpleRun (NfaStep states x) start (c :: π)) (hp : c.2 ≤ p)
    (hc : c.1 < states.length) : SimpleRun (LevelStep states x p) start (c :: π) := by
  generalize hrun : c :: π = ρ at h
  induction h generalizing c π with
  | start => exact .start
  | step _ hs hnew ih =>
    obtain ⟨rfl, rfl⟩ := List.cons.inj hrun
    exact (ih (hs.place_le.trans hp) hs.lt rfl).step ⟨hs, hp, hc⟩ hnew

def cellsAt (states : List StateDef) (p : Nat) (succs : List (Option State)) : List Cell :=
  succs.filterMap fun o => o.bind fun s => if s < states.length then some (s, p) else none

theorem mem_cellsAt {succs : List (Option State)} :
    c ∈ cellsAt states p succs ↔ some c.1 ∈ succs ∧ c.2 = p ∧ c.1 < states.length := by
  obtain ⟨s, i⟩ := c
  simp only [cellsAt, List.mem_filterMap, Option.bind_eq_some_iff, Option.ite_none_right_eq_some,
    Option.some.injEq, Prod.mk.injEq]
  constructor
  · rintro ⟨o, ho, t, rfl, hlt, rfl, rfl⟩
    exact ⟨ho, rfl, hlt⟩
  · rintro ⟨ho, rfl, hlt⟩
    exact ⟨some s, ho, s, rfl, hlt, rfl, rfl⟩

theorem levelStep_epsilon_iff (hd : states[s]? = some d)
    (he : d.epsilonNext (x.flagsAt p) = some succs) (c : Cell) :
    LevelStep states x p (s, p) c ↔ c ∈ cellsAt states p succs := by
  obtain ⟨t, j⟩ := c
  rw [LevelStep, NfaStep.epsilon_iff hd he, mem_cellsAt]
  constructor
  · rintro ⟨⟨ht, rfl⟩, -, hlt⟩
    exact ⟨ht, rfl, hlt⟩
  · rintro ⟨ht, rfl, hlt⟩
    exact ⟨⟨ht, rfl⟩, Nat.le_refl _, hlt⟩

theorem not_levelStep (hd : states[s]? = some d) (he : d.epsilonNext (x.flagsAt p) = none)
    (c : Cell) : ¬ LevelStep states x p (s, p) c := by
  obtain ⟨t, j⟩ := c
  rintro ⟨hs, hle, -⟩
  obtain ⟨-, rfl⟩ := (NfaStep.consume_iff hd he).1 hs
  exact Nat.not_succ_le_self p hle

theorem StateDef.epsilonNext_single {d : StateDef} (hl : d.label ≠ split)
    (he : d.epsilonNext flags = some succs) : succs = [] ∨ succs = [d.next] := by
  simp only [epsilonNext, if_neg hl] at he
  grind

theorem cellsAt_sorted (hd : states[s]? = some d) (he : d.epsilonNext flags = some succs)
    (p : Nat) : (cellsAt states p succs).Pairwise fun t t' =>
      (splitPriority states).prefers (s, p) t t' ∨ t = t' := by
  by_cases hl : d.label = split
  · rw [StateDef.epsilonNext, if_pos hl] at he
    obtain rfl := Option.some.inj he
    rw [cellsAt, List.pairwise_filterMap]
    refine List.pairwise_pair.2 ?_
    intro t ht t' ht'
    simp only [Option.bind_eq_some_iff, Option.ite_none_right_eq_some, Option.some.injEq] at ht ht'
    obtain ⟨a, ha, -, rfl⟩ := ht
    obtain ⟨a', ha', -, rfl⟩ := ht'
    by_cases hne : a = a'
    · exact .inr (hne ▸ rfl)
    · exact .inl ⟨d, hd, hl, ha, ha', hne⟩
  · rw [cellsAt, List.pairwise_filterMap]
    rcases d.epsilonNext_single hl he with rfl | rfl
    · exact List.Pairwise.nil
    · exact List.pairwise_singleton _ _

def RecordedIn (states : List StateDef) (place : Nat → Nat) (slots : Nat) (ctx : MatchContext)
    (π : List Cell) (frame : Nat) : Prop :=
  ctx.Holds (fun _ spans => spans = spansAlong states place slots π) frame

/-- The entries of a stack whose states exist, as the runs that they stand for. -/
inductive Entries (states : List StateDef) (place : Nat → Nat) (slots p : Nat)
    (ctx : MatchContext) : List (Option State × Nat) → List (List Cell) → Prop
  | nil : Entries states place slots p ctx [] []
  | dead {o : Option State} {frame : Nat} {stack : List (Option State × Nat)}
      {runs : List (List Cell)} (ho : ∀ s, o = some s → states[s]? = none)
      (rest : Entries states place slots p ctx stack runs) :
      Entries states place slots p ctx ((o, frame) :: stack) runs
  | live {s : State} {frame : Nat} {π : List Cell} {stack : List (Option State × Nat)}
      {runs : List (List Cell)} (hs : s < states.length)
      (hframe : RecordedIn states place slots ctx π frame)
      (rest : Entries states place slots p ctx stack runs) :
      Entries states place slots p ctx ((some s, frame) :: stack) (((s, p) :: π) :: runs)

section Walk
variable {e : RegexEngine} {x : Input} {place : Nat → Nat} {slots b p pos : Nat} {flags : Flags}
  {ctx ctx' : MatchContext} {stack : List (Option State × Nat)} {threads : List Thread}
  {runs later found : List (List Cell)} {done : Set (List Cell)} {states : List StateDef}
  {cells : Set (State × Nat)} {w w' : Walk}

theorem Entries.keeps (h : Entries states place slots p ctx stack runs) (hkeeps : ctx.Keeps ctx') :
    Entries states place slots p ctx' stack runs := by
  induction h with
  | nil => exact .nil
  | dead ho _ ih => exact .dead ho ih
  | live hs hframe _ ih => exact .live hs (hkeeps.holds hframe) ih

theorem Entries.push (h : Entries states place slots p ctx stack runs)
    (hframe : RecordedIn states place slots ctx ρ frame) (succs : List (Option State)) :
    Entries states place slots p ctx (succs.map (·, frame) ++ stack)
      ((cellsAt states p succs).map (· :: ρ) ++ runs) := by
  induction succs with
  | nil => exact h
  | cons o succs ih =>
    cases o with
    | none => exact .dead (fun s hs => absurd hs.symm (Option.some_ne_none s)) ih
    | some s =>
      by_cases hs : s < states.length
      · have hcells : cellsAt states p (some s :: succs) = (s, p) :: cellsAt states p succs := by
          simp [cellsAt, hs]
        rw [hcells]
        exact .live hs hframe ih
      · have hcells : cellsAt states p (some s :: succs) = cellsAt states p succs := by
          simp [cellsAt, hs]
        rw [hcells]
        refine .dead (fun t ht => ?_) ih
        rw [← Option.some.inj ht]
        exact List.getElem?_eq_none_iff.2 (Nat.not_lt.1 hs)

/-- A walk over the states of a position that follows the runs in the order of their priority. -/
structure Walk.Prioritized (e : RegexEngine) (x : Input) (place : Nat → Nat) (slots b p : Nat)
    (done : Set (List Cell)) (later found : List (List Cell)) (w : Walk) : Prop where
  seen : ∀ s, s < e.ownedStates.length →
    (w.ctx.visited.contains s = true ↔ ∃ π, (s, p) :: π ∈ found)
  pending : ∃ runs, Entries e.ownedStates place slots p w.ctx w.stack runs ∧
    Search (splitPriority e.ownedStates) (LevelStep e.ownedStates x p) (e.startState, b)
      (fun c => c.2 = p) done found (runs ++ later)
  ends : ∃ ends : List (Thread × List Cell), w.threads = ends.map Prod.fst ∧
    (ends.map Prod.snd).Sublist found ∧
    (∀ s π, (s, p) :: π ∈ found → Terminal e.ownedStates (x.flagsAt p) s →
      (s, p) :: π ∈ ends.map Prod.snd) ∧
    ∀ t ∈ ends, (∃ π, t.2 = (t.1.state, p) :: π) ∧
      RecordedIn e.ownedStates place slots w.ctx t.2 t.1.capsFrame

theorem seen_insert {visited : EpochSet} (hseen : ∀ t, t < states.length →
      (visited.contains t = true ↔ ∃ π, (t, p) :: π ∈ found))
    (hmarks : visited.marks.length = states.length) (hs : s < states.length) (π : List Cell)
    (t : State) (ht : t < states.length) :
    (visited.insert s).contains t = true ↔ ∃ κ, (t, p) :: κ ∈ found ++ [(s, p) :: π] := by
  rw [contains_insert_iff (hmarks ▸ hs), hseen t ht]
  constructor
  · rintro (rfl | ⟨κ, hκ⟩)
    · exact ⟨π, List.mem_append_right _ (.head _)⟩
    · exact ⟨κ, List.mem_append_left _ hκ⟩
  · rintro ⟨κ, hκ⟩
    rcases List.mem_append.1 hκ with hκ | hκ
    · exact .inr ⟨κ, hκ⟩
    · obtain ⟨heq, -⟩ := List.cons.inj (List.mem_singleton.1 hκ)
      exact .inl (Prod.mk.inj heq).1

theorem WalkStep.prioritized (h : WalkStep e (place p) (x.flagsAt p) w w')
    (hw : w.Sound e (x.flagsAt p) P) (hfits : Fits w.ctx.captureFrameSlots cells)
    (hcovers : Covers e (x.flagsAt p) cells p roots)
    (hc : w.Complete e (x.flagsAt p) cells p roots)
    (hp : w.Prioritized e x place slots b p done later found) :
    ∃ found', w'.Prioritized e x place slots b p done later found' := by
  have hkeeps := (h.keeps hw).1
  obtain ⟨hseen, ⟨runs, hentries, hsearch⟩, ends, hthreads, hsub, hall, hends⟩ := hp
  have hends' : ∀ t ∈ ends, (∃ π, t.2 = (t.1.state, p) :: π) ∧
      RecordedIn e.ownedStates place slots w'.ctx t.2 t.1.capsFrame :=
    fun t ht => ⟨(hends t ht).1, hkeeps.holds (hends t ht).2⟩
  have hnone : ∀ {s : State} {d : StateDef}, e.ownedStates[s]? = some d →
      ¬ ∀ t, some s = some t → e.ownedStates[t]? = none := by
    intro s d hd hdead
    rw [hdead s rfl] at hd
    cases hd
  have hnew : ∀ {s : State}, s < e.ownedStates.length → w.ctx.visited.contains s = false →
      ∀ π, (s, p) :: π ∉ found := by
    intro s hs hv π hπ
    rw [(hseen s hs).2 ⟨π, hπ⟩] at hv
    cases hv
  have hstill : ∀ {s : State} {d : StateDef} {succs : List (Option State)} {π : List Cell},
      e.ownedStates[s]? = some d → d.epsilonNext (x.flagsAt p) = some succs →
      ∀ t κ, (t, p) :: κ ∈ found ++ [(s, p) :: π] → Terminal e.ownedStates (x.flagsAt p) t →
        (t, p) :: κ ∈ ends.map Prod.snd := by
    intro s d succs π hd he t κ hκ hterm
    rcases List.mem_append.1 hκ with hκ | hκ
    · exact hall t κ hκ hterm
    · cases List.mem_singleton.1 hκ
      exact absurd hterm (not_terminal_of_epsilon hd he)
  cases h with
  | drop ho =>
    cases hentries with
    | dead _ rest => exact ⟨found, hseen, ⟨runs, rest, hsearch⟩, ends, hthreads, hsub, hall, hends'⟩
    | live hs hframe rest =>
      refine ⟨found, hseen, ⟨_, rest, ?_⟩, ends, hthreads, hsub, hall, hends'⟩
      rcases ho _ rfl with hnone' | hvis
      · exact absurd hs (Nat.not_lt.2 (List.getElem?_eq_none_iff.1 hnone'))
      · obtain ⟨κ, hκ⟩ := (hseen _ hs).1 hvis
        exact hsearch.drop hκ
  | exhausted hd hs hslot hcopy =>
    exact absurd hcopy (hc.spent.not_exhausted hfits hs (hc.cell hcovers rfl hd hslot))
  | @copy s d frame slot copy ctx ctx' stack threads hd hs hslot hcopy =>
    cases hentries with
    | dead hdead _ => exact absurd hdead (hnone hd)
    | @live _ _ π _ runs hlt hframe rest =>
      have hhas : (ctx.markVisited s).HasFrame frame := hframe.1
      obtain ⟨-, -, -, hhas', hcaptures, hv, -⟩ :=
        MatchContext.copy_spec (hw.aligned.markVisited s) hhas hcopy slot (place p)
      have he := d.epsilonNext_capture hslot (x.flagsAt p)
      have hframe' : RecordedIn e.ownedStates place slots
          (ctx'.setCapture copy slot (place p)) ((s, p) :: π) copy := by
        refine ⟨hhas', ?_⟩
        have hold : (ctx.markVisited s).captureFrame frame =
            spansAlong e.ownedStates place slots π := hframe.2
        rw [hcaptures, hold, spansAlong_cons hd, StateDef.record, hslot]
      refine ⟨found ++ [(s, p) :: π], ?_, ⟨_, (rest.keeps hkeeps).push hframe' [d.next], ?_⟩, ends,
        hthreads, hsub.trans (List.sublist_append_left ..), ?_, hends'⟩
      · dsimp only
        rw [hv]
        exact seen_insert hseen hc.marks hlt π
      · rw [List.append_assoc]
        exact hsearch.visit (hnew hlt hs) (levelStep_epsilon_iff hd he)
          (fun c hc' => (mem_cellsAt.1 hc').2.1) (cellsAt_sorted hd he p)
      · exact hstill hd he
  | @epsilon s d frame succs ctx stack threads hd hs hslot he =>
    cases hentries with
    | dead hdead _ => exact absurd hdead (hnone hd)
    | @live _ _ π _ runs hlt hframe rest =>
      have hframe' : RecordedIn e.ownedStates place slots (ctx.markVisited s) ((s, p) :: π)
          frame := by
        refine ⟨hframe.1, ?_⟩
        rw [spansAlong_cons hd, StateDef.record_of_none hslot]
        exact hframe.2
      refine ⟨found ++ [(s, p) :: π], seen_insert hseen hc.marks hlt π,
        ⟨_, (rest.keeps hkeeps).push hframe' succs, ?_⟩, ends,
        hthreads, hsub.trans (List.sublist_append_left ..), ?_, hends'⟩
      · rw [List.append_assoc]
        exact hsearch.visit (hnew hlt hs) (levelStep_epsilon_iff hd he)
          (fun c hc' => (mem_cellsAt.1 hc').2.1) (cellsAt_sorted hd he p)
      · exact hstill hd he
  | @terminal s d frame ctx stack threads hd hs he =>
    cases hentries with
    | dead hdead _ => exact absurd hdead (hnone hd)
    | @live _ _ π _ runs hlt hframe rest =>
      have hframe' : RecordedIn e.ownedStates place slots (ctx.markVisited s) ((s, p) :: π)
          frame := by
        refine ⟨hframe.1, ?_⟩
        rw [spansAlong_cons hd, StateDef.record_of_none (StateDef.captureSlot_terminal he)]
        exact hframe.2
      refine ⟨found ++ [(s, p) :: π], seen_insert hseen hc.marks hlt π,
        ⟨_, rest.keeps hkeeps, ?_⟩, ends ++ [(⟨s, frame⟩, (s, p) :: π)], ?_, ?_, ?_, ?_⟩
      · have hstuck : ∀ c, LevelStep e.ownedStates x p (s, p) c ↔ c ∈ ([] : List Cell) :=
          fun c => iff_of_false (not_levelStep hd he c) List.not_mem_nil
        exact hsearch.visit (hnew hlt hs) hstuck (List.forall_mem_nil _) List.Pairwise.nil
      · rw [List.map_append, ← hthreads]
        rfl
      · rw [List.map_append]
        exact hsub.append (List.Sublist.refl _)
      · intro t κ hκ hterm
        rw [List.map_append]
        rcases List.mem_append.1 hκ with hκ | hκ
        · exact List.mem_append_left _ (hall t κ hκ hterm)
        · exact List.mem_append_right _ hκ
      · intro t ht
        rcases List.mem_append.1 ht with ht | ht
        · exact hends' t ht
        · obtain rfl := List.mem_singleton.1 ht
          exact ⟨⟨π, rfl⟩, hframe'⟩

theorem WalkStep.run_prioritized
    (h : ReflTransGen (WalkStep e (place p) (x.flagsAt p)) w w')
    (hP : Records e (place p) (x.flagsAt p) P) (hw : w.Sound e (x.flagsAt p) P)
    (hfits : Fits w.ctx.captureFrameSlots cells) (hcovers : Covers e (x.flagsAt p) cells p roots)
    (hc : w.Complete e (x.flagsAt p) cells p roots)
    (hp : w.Prioritized e x place slots b p done later found) :
    ∃ found', w'.Prioritized e x place slots b p done later found' := by
  induction h with
  | refl => exact ⟨found, hp⟩
  | tail hrun hstep ih =>
    obtain ⟨found₁, hp₁⟩ := ih
    obtain ⟨hw₁, hkeeps⟩ := WalkStep.run_sound hrun hP hw
    have hc₁ := WalkStep.run_complete hrun hP hw hfits hcovers hc
    exact hstep.prioritized hw₁ (hkeeps.slots ▸ hfits) hcovers hc₁ hp₁

namespace RegexEngine

theorem addThread_prioritized (hP : Records e (place p) (x.flagsAt p) P)
    (hw : Walk.Sound e (x.flagsAt p) P ⟨[], threads, ctx⟩)
    (hframe : ∀ s, state = some s → ctx.Holds (P s) frame)
    (hfits : Fits ctx.captureFrameSlots cells)
    (hcovers : Covers e (x.flagsAt p) cells p fun o => o = state ∨ roots o)
    (hc : Walk.Complete e (x.flagsAt p) cells p roots ⟨[], threads, ctx⟩)
    (hp : Walk.Prioritized e x place slots b p done later found ⟨[(state, frame)], threads, ctx⟩) :
    ∃ found', Walk.Prioritized e x place slots b p done later found'
      ⟨[], (e.addThread threads state frame (place p) ctx (x.flagsAt p)).1,
        (e.addThread threads state frame (place p) ctx (x.flagsAt p)).2⟩ := by
  obtain ⟨w, hrun, heq, hdone⟩ := e.addThread_walk threads state frame (place p) ctx (x.flagsAt p)
  rw [heq, ← hdone hc.marks]
  exact WalkStep.run_prioritized hrun hP (hw.push hframe) hfits hcovers (hc.push state frame) hp

def rootRun (e : RegexEngine) (rune p : Nat) : List Cell → Option (List Cell)
  | [] => none
  | c :: π => (e.ownedStates[c.1]?).bind fun d =>
    if e.consumes d rune then
      d.next.bind fun t => if t < e.ownedStates.length then some ((t, p) :: c :: π) else none
    else none

theorem rootRun_eq_some_iff : e.rootRun rune p (c :: π) = some τ ↔
    ∃ d t, e.ownedStates[c.1]? = some d ∧ e.consumes d rune = true ∧ d.next = some t ∧
      t < e.ownedStates.length ∧ τ = (t, p) :: c :: π := by
  simp only [rootRun, Option.bind_eq_some_iff, Option.ite_none_right_eq_some, Option.some.injEq]
  constructor
  · rintro ⟨d, hd, hr, t, hnext, hlt, rfl⟩
    exact ⟨d, t, hd, hr, hnext, hlt, rfl⟩
  · rintro ⟨d, t, hd, hr, hnext, hlt, rfl⟩
    exact ⟨d, hd, hr, t, hnext, hlt, rfl⟩

theorem suffix_of_rootRun (h : e.rootRun rune p ρ = some τ) : ρ <:+ τ := by
  cases ρ with
  | nil => cases h
  | cons c π =>
    obtain ⟨_, _, -, -, -, -, rfl⟩ := rootRun_eq_some_iff.1 h
    exact List.suffix_cons _ _

theorem rootRun_of_not (hno : ∀ d, e.ownedStates[c.1]? = some d → e.consumes d rune = false)
    (p : Nat) (π : List Cell) : e.rootRun rune p (c :: π) = none := by
  rw [Option.eq_none_iff_forall_ne_some]
  intro τ hτ
  obtain ⟨d, t, hd, hr, -⟩ := rootRun_eq_some_iff.1 hτ
  rw [hno d hd] at hr
  cases hr

theorem rootRun_entries (hd : e.ownedStates[c.1]? = some d) (hr : e.consumes d rune = true)
    (hframe : RecordedIn e.ownedStates place slots ctx (c :: π) frame) :
    Entries e.ownedStates place slots p ctx [(d.next, frame)]
      (e.rootRun rune p (c :: π)).toList := by
  have hroot : e.rootRun rune p (c :: π) = d.next.bind fun t =>
      if t < e.ownedStates.length then some ((t, p) :: c :: π) else none := by
    rw [rootRun, hd, Option.bind_some, if_pos hr]
  rw [hroot]
  cases hnext : d.next with
  | none => exact .dead (fun s hs => absurd hs.symm (Option.some_ne_none s)) .nil
  | some t =>
    rw [Option.bind_some]
    by_cases ht : t < e.ownedStates.length
    · rw [if_pos ht]
      exact .live ht hframe .nil
    · rw [if_neg ht]
      refine .dead (fun s hs => ?_) .nil
      rw [← Option.some.inj hs]
      exact List.getElem?_eq_none_iff.2 (Nat.not_lt.1 ht)

theorem stepCapturing_prioritized (hP : Records e (place p) (x.flagsAt p) P) (ha : ctx.Aligned)
    {ends : List (Thread × List Cell)}
    (hnext : Continues e P rune ctx (ends.map Prod.fst)) (hv : ctx.visited.Valid)
    (hmarks : ctx.visited.marks.length = e.ownedStates.length) (hspent : ctx.Spent cells q)
    (hq : q < p) (hfits : Fits ctx.captureFrameSlots cells)
    (hcovers : Covers e (x.flagsAt p) cells p (Roots e (ends.map Prod.fst) rune))
    (hends : ∀ t ∈ ends, (∃ π, t.2 = (t.1.state, q) :: π) ∧
      RecordedIn e.ownedStates place slots ctx t.2 t.1.capsFrame)
    (hsearch : Search (splitPriority e.ownedStates) (LevelStep e.ownedStates x p)
      (e.startState, b) (fun c => c.2 = p) done []
      ((ends.map Prod.snd).filterMap (e.rootRun rune p) ++ later)) :
    ∃ found, Walk.Prioritized e x place slots b p done later found
      ⟨[], (e.stepCapturing (ends.map Prod.fst) rune (place p) ctx (x.flagsAt p)).1,
        (e.stepCapturing (ends.map Prod.fst) rune (place p) ctx (x.flagsAt p)).2⟩ := by
  induction ends using List.reverseRecOn generalizing later with
  | nil =>
    refine ⟨[], fun s _ => ?_, ⟨[], .nil, hsearch⟩, [], rfl, List.Sublist.refl _, ?_, ?_⟩
    · have hadvance : ctx.advanceEpoch.visited.contains s = false := hv.contains_advance s
      refine iff_of_false ?_ fun ⟨π, hπ⟩ => List.not_mem_nil hπ
      exact fun hcontains => Bool.false_ne_true (hadvance.symm.trans hcontains)
    · exact fun s π hπ => absurd hπ List.not_mem_nil
    · exact List.forall_mem_nil _
  | append_singleton ends t ih =>
    obtain ⟨t, ρ⟩ := t
    obtain ⟨⟨π, hρ⟩, hframe⟩ := hends (t, ρ) List.mem_concat_self
    dsimp only at hρ hframe
    subst hρ
    simp only [List.map_append, List.map_cons, List.map_nil] at hnext hcovers hsearch ⊢
    have hleft : ∀ t' ∈ ends.map Prod.fst, t' ∈ ends.map Prod.fst ++ [t] :=
      fun t' => List.mem_append_left _
    have hnext' : Continues e P rune ctx (ends.map Prod.fst) :=
      fun t' ht' => hnext t' (hleft t' ht')
    have hroots := Roots.append_iff e (ends.map Prod.fst) t rune
    have hcovers' := hcovers.mono fun o ho => (hroots o).2 (.inr ho)
    have hends' := fun t' ht' => hends t' (List.mem_append_left _ ht')
    obtain ⟨hsound, hkeeps⟩ := stepCapturing_sound hP ha hnext'
    rw [List.filterMap_append, List.append_assoc] at hsearch
    obtain ⟨found, hp⟩ := ih hnext' hcovers' hends' hsearch
    obtain ⟨hseen, ⟨runs, hentries, hsearch'⟩, ends', hrest⟩ := hp
    cases hentries
    rcases e.stepCapturing_append (ends.map Prod.fst) t rune (place p) ctx (x.flagsAt p) with
      ⟨d, hd, hr, heq⟩ | ⟨hno, heq⟩
    · have hc := stepCapturing_complete hP ha hnext' hv hmarks hspent hq hfits hcovers'
      have hroots' : ∀ o, o = d.next ∨ Roots e (ends.map Prod.fst) rune o →
          Roots e (ends.map Prod.fst ++ [t]) rune o := by
        intro o ho
        rw [hroots]
        exact ho.imp_left fun ho => ⟨d, hd, hr, ho.symm⟩
      have hpending : List.filterMap (e.rootRun rune p) [(t.state, q) :: π] ++ later =
          (e.rootRun rune p ((t.state, q) :: π)).toList ++ later := by
        cases hroot : e.rootRun rune p ((t.state, q) :: π) <;>
          simp only [List.filterMap_cons, hroot, List.filterMap_nil] <;> rfl
      rw [List.nil_append, hpending] at hsearch'
      rw [heq]
      refine addThread_prioritized hP hsound (fun u hu => ?_) (hkeeps.slots ▸ hfits)
        (hcovers.mono hroots') hc ⟨hseen, ⟨_, ?_, hsearch'⟩, ends', hrest⟩
      · exact hkeeps.holds (hnext t List.mem_concat_self d u hd hr hu)
      · exact rootRun_entries hd hr (hkeeps.holds hframe)
    · have hnone : List.filterMap (e.rootRun rune p) [(t.state, q) :: π] = [] := by
        rw [List.filterMap_cons, rootRun_of_not hno, List.filterMap_nil]
      rw [List.nil_append, hnone, List.nil_append] at hsearch'
      rw [heq]
      exact ⟨found, hseen, ⟨[], .nil, hsearch'⟩, ends', hrest⟩

end RegexEngine

end Walk

theorem NfaStep.consumes (h : NfaStep states x c c') (hlt : c.2 < c'.2) :
    c'.2 = c.2 + 1 ∧ ∃ d r, states[c.1]? = some d ∧ d.epsilonNext (x.flagsAt c.2) = none ∧
      d.next = some c'.1 ∧ x.runes[c.2]? = some r ∧ accepts x.classes d.label r = true := by
  obtain ⟨d, hd, hgo⟩ := h
  cases he : d.epsilonNext (x.flagsAt c.2) with
  | some succs =>
    simp only [he] at hgo
    exact absurd hgo.2 hlt.ne'
  | none =>
    simp only [he] at hgo
    obtain ⟨⟨hnext, r, hr, ha⟩, hc⟩ := hgo
    exact ⟨hc, d, r, hd, he, hnext, hr, ha⟩

theorem simpleRun_le (h : SimpleRun (LevelStep states x p) (start, b) (c :: π)) (hb : b ≤ p) :
    c.2 ≤ p := by
  cases h with
  | start => exact hb
  | step _ hs _ => exact hs.2.1

def placeIn (b : Nat) (s : List UInt8) (i : Nat) : Nat := offset s (i - b)

theorem placeIn_add (b : Nat) (s : List UInt8) (k : Nat) : placeIn b s (b + k) = offset s k := by
  rw [placeIn, Nat.add_sub_cancel_left]

/-- The threads after `k` runes have the runs that come first. -/
def Prioritizes (e : RegexEngine) (x : Input) (b : Nat) (s : List UInt8) (slots k : Nat)
    (current : List Thread) (ctx : MatchContext) : Prop :=
  ∃ done found, Walk.Prioritized e x (placeIn b s) slots b (b + k) done [] found
    ⟨[], current, ctx⟩

section Loop
variable {e : RegexEngine} {classes : List RuneClass} {x : Input} {s : List UInt8}
  {atStart prevIsWord : Bool} {ctx : MatchContext} {current : List Thread}

section Ends
variable {done : Set (List Cell)} {found : List (List Cell)} {ends : List (Thread × List Cell)}

theorem ends_ordered (hsearch : Search (splitPriority e.ownedStates)
      (LevelStep e.ownedStates x p) start (fun c => c.2 = p) done found [])
    (hsub : (ends.map Prod.snd).Sublist found)
    (hends : ∀ t ∈ ends, ∃ π, t.2 = (t.1.state, p) :: π)
    (hterminal : ∀ t ∈ ends, Terminal e.ownedStates (x.flagsAt p) t.1.state) :
    (ends.map Prod.snd).Pairwise (splitPriority e.ownedStates).Preferred := by
  refine hsearch.ordered hsub (fun c π hπ c' => ?_) fun hnil => ?_
  · obtain ⟨t, ht, heq⟩ := List.mem_map.1 hπ
    obtain ⟨d, hd, he⟩ := hterminal t ht
    obtain ⟨κ, hκ⟩ := hends t ht
    obtain ⟨rfl, -⟩ := List.cons.inj (heq.symm.trans hκ)
    exact not_levelStep hd he c'
  · obtain ⟨t, ht, hnil⟩ := List.mem_map.1 hnil
    obtain ⟨κ, hκ⟩ := hends t ht
    cases hnil.symm.trans hκ

theorem search_next (hready : e.Ready classes) (hclasses : x.classes = classes)
    (hsearch : Search (splitPriority e.ownedStates) (LevelStep e.ownedStates x (b + k))
      (e.startState, b) (fun c => c.2 = b + k) done found [])
    (hsub : (ends.map Prod.snd).Sublist found)
    (hall : ∀ q π, (q, b + k) :: π ∈ found → Terminal e.ownedStates (x.flagsAt (b + k)) q →
      (q, b + k) :: π ∈ ends.map Prod.snd)
    (hends : ∀ t ∈ ends, ∃ π, t.2 = (t.1.state, b + k) :: π)
    (hterminal : ∀ t ∈ ends, Terminal e.ownedStates (x.flagsAt (b + k)) t.1.state)
    (hr : x.runes[b + k]? = some rune) :
    Search (splitPriority e.ownedStates) (LevelStep e.ownedStates x (b + (k + 1)))
      (e.startState, b) (fun c => c.2 = b + (k + 1)) (keptRuns done found) []
      ((ends.map Prod.snd).filterMap (e.rootRun rune (b + (k + 1)))) := by
  have hkept_le : ∀ c π, c :: π ∈ keptRuns done found → c.2 ≤ b + k := fun c π hπ =>
    simpleRun_le (hsearch.runs _ hπ) (Nat.le_add_right b k)
  have hconsumes : ∀ {q : State} {d : StateDef}, e.ownedStates[q]? = some d →
      e.consumes d rune = accepts x.classes d.label rune := by
    intro q d hd
    rw [hready.consumes d rune (List.mem_of_getElem? hd), hclasses]
  refine hsearch.next (fun c c' hstep => ?_) (fun c π hπ heq => ?_) (fun c c' π hπ hstep => ?_)
    (fun τ hτ => ?_) ?_
  · exact ⟨hstep.1, hstep.2.1.trans (Nat.le_succ _), hstep.2.2⟩
  · have hle := hkept_le c π hπ
    omega
  · by_cases hc' : c'.2 ≤ b + k
    · exact .inl ⟨hstep.1, hc', hstep.2.2⟩
    · -- the step consumes the rune at the position
      right
      have hc := hkept_le c π hπ
      obtain ⟨hplace, d, r, hd, he, hgo, hr', ha⟩ :=
        hstep.1.consumes (Nat.lt_of_le_of_lt hc (Nat.not_le.1 hc'))
      obtain ⟨q, i⟩ := c
      obtain ⟨t, j⟩ := c'
      dsimp only at hc hplace hc'
      obtain rfl : i = b + k := by omega
      obtain rfl : rune = r := Option.some.inj (hr.symm.trans hr')
      have hfound := hsearch.found_of_level hπ rfl
      refine List.mem_filterMap.2 ⟨_, hall q π hfound ⟨d, hd, he⟩, ?_⟩
      refine RegexEngine.rootRun_eq_some_iff.2 ⟨d, t, hd, (hconsumes hd).trans ha, hgo,
        hstep.2.2, ?_⟩
      rw [hplace]
      rfl
  · obtain ⟨ρ, hρ, hτ⟩ := List.mem_filterMap.1 hτ
    obtain ⟨t, ht, heq⟩ := List.mem_map.1 hρ
    obtain ⟨κ, hκ⟩ := hends t ht
    obtain rfl := heq.symm.trans hκ
    obtain ⟨d, hd, he⟩ := hterminal t ht
    obtain ⟨d', u, hd', hconsume, hgo, hlt, rfl⟩ := RegexEngine.rootRun_eq_some_iff.1 hτ
    cases hd.symm.trans hd'
    have haccepts := (hconsumes hd).symm.trans hconsume
    exact ⟨(t.1.state, b + k), (u, b + (k + 1)), κ, rfl, .inr (hsub.subset hρ),
      ⟨(NfaStep.consume_iff hd he).2 ⟨⟨hgo, rune, hr, haccepts⟩, rfl⟩, Nat.le_refl _, hlt⟩, rfl⟩
  · rw [List.pairwise_filterMap]
    refine (ends_ordered hsearch hsub hends hterminal).imp fun {ρ σ} hpref τ hτ τ' hτ' => ?_
    exact hpref.mono (RegexEngine.suffix_of_rootRun hτ) (RegexEngine.suffix_of_rootRun hτ')

end Ends

theorem Prioritizes.step (hready : e.Ready classes) (hclasses : x.classes = classes)
    (hs : Simulates e x b s k current ctx) (h : SimulatesAll e x b k current ctx)
    (hf : Prioritizes e x b s slots k current ctx)
    (hfits : Fits ctx.captureFrameSlots (captureCells e x b)) (hr : x.runes[b + k]? = some rune) :
    Prioritizes e x b s slots (k + 1)
      (e.stepCapturing current rune (offset s (k + 1)) ctx (x.flagsAt (b + (k + 1)))).1
      (e.stepCapturing current rune (offset s (k + 1)) ctx (x.flagsAt (b + (k + 1)))).2 := by
  obtain ⟨done, found, -, ⟨runs, hentries, hsearch⟩, ends, hthreads, hsub, hall, hends⟩ := hf
  cases hentries
  rw [List.append_nil] at hsearch
  dsimp only at hthreads hends
  subst hthreads
  have hle : b + (k + 1) ≤ x.runes.length := (List.getElem?_eq_some_iff.1 hr).1
  have hplace : placeIn b s (b + (k + 1)) = offset s (k + 1) := placeIn_add b s (k + 1)
  have hP : Records e (placeIn b s (b + (k + 1))) (x.flagsAt (b + (k + 1)))
      (Traced e x b s ctx.captureFrameSlots (b + (k + 1))) :=
    hplace ▸ Traced.records e x b s ctx.captureFrameSlots (k + 1)
  have hcovers := captureCells_covers
    (fun t ht => reaches_of_entry ((h.roots_iff hready hclasses hr t).1 ht)) hle
  have hterminal : ∀ t ∈ ends, Terminal e.ownedStates (x.flagsAt (b + k)) t.1.state :=
    fun t ht => (hs.threads t.1 (List.mem_map_of_mem ht)).2
  have hnext := search_next hready hclasses hsearch hsub hall (fun t ht => (hends t ht).1)
    hterminal hr
  rw [← List.append_nil (List.filterMap _ _)] at hnext
  obtain ⟨found', hp⟩ := RegexEngine.stepCapturing_prioritized hP hs.aligned
    (hs.continues hready hclasses hr) h.valid h.marks h.spent
    (Nat.add_lt_add_left (Nat.lt_succ_self k) b) hfits hcovers hends hnext
  rw [hplace] at hp
  exact ⟨_, found', hp⟩

/-- A thread at the accept state has recorded the run to it that comes first. -/
theorem Prioritizes.accepted (hs : Simulates e x b s k current ctx)
    (hf : Prioritizes e x b s slots k current ctx) (ht : t ∈ current)
    (hstate : t.state = acceptState) :
    ∃ ρ, (splitPriority e.ownedStates).First (NfaStep e.ownedStates x) (e.startState, b)
        (acceptState, b + k) ρ ∧
      RecordedIn e.ownedStates (placeIn b s) slots ctx ρ t.capsFrame := by
  obtain ⟨done, found, -, ⟨runs, hentries, hsearch⟩, ends, hthreads, hsub, -, hends⟩ := hf
  cases hentries
  rw [List.append_nil] at hsearch
  dsimp only at hthreads hends
  subst hthreads
  obtain ⟨⟨t, ρ⟩, hmem, rfl⟩ := List.mem_map.1 ht
  obtain ⟨⟨π, hρ⟩, hframe⟩ := hends _ hmem
  dsimp only at hρ hframe hstate
  rw [hstate] at hρ
  subst hρ
  obtain ⟨d, hd, -⟩ := (hs.threads t ht).2
  rw [hstate] at hd
  have haccept : acceptState < e.ownedStates.length := (List.getElem?_eq_some_iff.1 hd).1
  have hfound : (acceptState, b + k) :: π ∈ found := hsub.subset (List.mem_map_of_mem hmem)
  have hrun := hsearch.runs _ (.inr hfound)
  refine ⟨_, ⟨hrun.mono fun c c' hstep => hstep.1, rfl, fun σ hσ hhead => ?_⟩, hframe⟩
  obtain ⟨κ, rfl⟩ := List.head?_eq_some_iff.1 hhead
  obtain ⟨κ', hκ', hbest⟩ := hsearch.best (simpleRun_level hσ (Nat.le_refl _) haccept)
  obtain rfl := hsearch.unique (hsearch.found_of_level hκ' rfl) hfound
  rcases hbest with rfl | hbest
  · exact .inl rfl
  · exact .inr hbest

/-- The threads at the start of the text. -/
theorem Prioritizes.start (h : FirstFrame ctx slots) (hslots : 0 < slots)
    (hv : ctx.visited.Valid) (hmarks : ctx.visited.marks.length = e.ownedStates.length)
    (hfits : Fits slots (captureCells e x b)) (hb : b ≤ x.runes.length)
    (hstart : e.startState < e.ownedStates.length) (s : List UInt8) :
    Prioritizes e x b s slots 0
      (e.addThread [] (some e.startState) 0 0 ctx.advanceEpoch (x.flagsAt b)).1
      (e.addThread [] (some e.startState) 0 0 ctx.advanceEpoch (x.flagsAt b)).2 := by
  have hfirst : FirstFrame ctx.advanceEpoch slots := ⟨h.width, h.blank, h.limit⟩
  have hplace : placeIn b s b = 0 := placeIn_add b s 0
  have hP : Records e (placeIn b s b) (x.flagsAt b) (Traced e x b s slots b) :=
    hplace ▸ Traced.records e x b s slots 0
  have hframe : ∀ t, some e.startState = some t →
      ctx.advanceEpoch.Holds (Traced e x b s slots b t) 0 := by
    intro t ht
    obtain rfl := Option.some.inj ht
    exact hfirst.traced e x b s
  have hcovers : Covers e (x.flagsAt b) (captureCells e x b) b
      fun o => o = some e.startState ∨ False := by
    refine captureCells_covers (fun t ht => ?_) hb
    rw [Option.some.inj (ht.resolve_right id)]
  have hblank : RecordedIn e.ownedStates (placeIn b s) slots ctx.advanceEpoch [] 0 := by
    obtain ⟨hhas, -⟩ := hframe _ rfl
    exact ⟨hhas, hfirst.captureFrame⟩
  have hp : Walk.Prioritized e x (placeIn b s) slots b b ∅ [] []
      ⟨[(some e.startState, 0)], [], ctx.advanceEpoch⟩ := by
    refine ⟨fun t _ => ?_, ⟨_, .live hstart hblank .nil, .initial rfl⟩, [], rfl,
      List.Sublist.refl _, ?_, List.forall_mem_nil _⟩
    · have hadvance : ctx.advanceEpoch.visited.contains t = false := hv.contains_advance t
      refine iff_of_false ?_ fun ⟨π, hπ⟩ => List.not_mem_nil hπ
      exact fun hcontains => Bool.false_ne_true (hadvance.symm.trans hcontains)
    · exact fun q π hπ => absurd hπ List.not_mem_nil
  obtain ⟨found, hp⟩ := RegexEngine.addThread_prioritized hP
    (hfirst.nothing hslots e (x.flagsAt b) _) hframe (hfirst.width ▸ hfits) hcovers
    (.fresh _ hv hmarks (hfirst.spent _ b)) hp
  rw [hplace] at hp
  exact ⟨_, found, hp⟩

/-- The frame of the best match so far comes from the run to the accept state that comes first. -/
def BestFirst (e : RegexEngine) (x : Input) (b : Nat) (s : List UInt8) (slots : Nat)
    (ctx : MatchContext) (K : Nat) (best : Option (Nat × Nat)) : Prop :=
  ∀ pos frame, best = some (pos, frame) → ∃ k ρ, k ≤ K ∧ pos = offset s k ∧
    (splitPriority e.ownedStates).First (NfaStep e.ownedStates x) (e.startState, b)
      (acceptState, b + k) ρ ∧
    RecordedIn e.ownedStates (placeIn b s) slots ctx ρ frame

theorem BestFirst.keep (h : BestFirst e x b s slots ctx K best) (hkeeps : ctx.Keeps ctx')
    (hK : K ≤ K') : BestFirst e x b s slots ctx' K' best := by
  intro pos frame hbest
  obtain ⟨k, ρ, hk, hpos, hfirst, hframe⟩ := h pos frame hbest
  exact ⟨k, ρ, hk.trans hK, hpos, hfirst, hkeeps.holds hframe⟩

theorem Prioritizes.bestFirst (hs : Simulates e x b s k current ctx)
    (hf : Prioritizes e x b s slots k current ctx) (hbest : BestFirst e x b s slots ctx k best) :
    BestFirst e x b s slots ctx k
      (((RegexEngine.acceptedFrame current).map (offset s k, ·)).or best) := by
  intro pos frame heq
  cases hframe : RegexEngine.acceptedFrame current with
  | none =>
    rw [hframe, Option.map_none, Option.none_or] at heq
    exact hbest pos frame heq
  | some f =>
    rw [hframe, Option.map_some, Option.some_or] at heq
    obtain ⟨rfl, rfl⟩ := Prod.mk.inj (Option.some.inj heq)
    obtain ⟨t, ht, hstate, rfl⟩ := acceptedFrame_eq_some hframe
    obtain ⟨ρ, hfirst, hrecorded⟩ := hf.accepted hs ht hstate
    exact ⟨k, ρ, Nat.le_refl k, rfl, hfirst, hrecorded⟩

theorem capturingLoop_first (hready : e.Ready classes) (hclasses : x.classes = classes)
    (hx : x.Shows b s atStart prevIsWord) (hk : k ≤ (runes s).length)
    (hsim : Simulates e x b s k current ctx) (hall : SimulatesAll e x b k current ctx)
    (hf : Prioritizes e x b s slots k current ctx)
    (hfits : Fits ctx.captureFrameSlots (captureCells e x b))
    (hbest : BestFirst e x b s slots ctx k best) (hword : word = x.wordAt (b + k)) (fuel : Nat) :
    BestFirst e x b s slots
      (e.capturingLoop s fuel current ctx (offset s k) (nextRune s (offset s k)) word best).2
      (runes s).length
      (e.capturingLoop s fuel current ctx (offset s k) (nextRune s (offset s k)) word best).1 := by
  induction fuel generalizing k current ctx word best with
  | zero => exact hbest.keep (.refl ctx) hk
  | succ fuel ih =>
    cases hnext : nextRune s (offset s k) with
    | none => exact hbest.keep (.refl ctx) hk
    | some next =>
      obtain ⟨rune, bytes⟩ := next
      have hrune : (runes s)[k]? = some rune := by rw [getElem?_runes, hnext]; rfl
      have hk' : k + 1 ≤ (runes s).length := (List.getElem?_eq_some_iff.1 hrune).1
      have hrune' : x.runes[b + k]? = some rune := (hx.runes k).trans hrune
      unfold RegexEngine.capturingLoop
      split
      · exact hbest.keep (.refl ctx) hk
      · have hflags := capturingFlags_eq hx hk' hword
        have hstart : (atStart && k + 1 == 0) = false := Bool.and_false atStart
        rw [hstart] at hflags
        dsimp only
        rw [← offset_succ hnext, hflags]
        obtain ⟨hsim', hkeeps⟩ := hsim.step hready hclasses hrune'
        have hall' := hall.step hready hclasses hsim hfits hrune'
        have hf' := hf.step hready hclasses hsim hall hfits hrune'
        exact ih hk' hsim' hall' hf' (hkeeps.slots ▸ hfits)
          (hf'.bestFirst hsim' (hbest.keep hkeeps (Nat.le_succ k))) (hx.wordAt (k + 1)).symm

/-- While the frames are not used up, the captures of a match are those of the run that comes
first among those over its bytes. -/
theorem findPrefixWithContext_first (hready : e.Ready classes) (hclasses : x.classes = classes)
    (hn : 0 < e.numCaptures) (hstart : e.startState < e.ownedStates.length)
    (hx : x.Shows b s atStart prevIsWord) (hctx : ctx.visited.Valid) (hfits : ArenaFits e x b)
    (self n : Nat) (hfound : (e.findPrefixWithContext self s ctx atStart prevIsWord).1 = some n) :
    ∃ k ρ, k ≤ (runes s).length ∧ n = offset s k ∧
      (splitPriority e.ownedStates).First (NfaStep e.ownedStates x) (e.startState, b)
        (acceptState, b + k) ρ ∧
      (e.findPrefixWithContext self s ctx atStart prevIsWord).2.1 = e.readCaptures
        (spansAlong e.ownedStates (placeIn b s) (2 * e.numCaptures) ρ) := by
  have hslots : 0 < 2 * e.numCaptures := Nat.mul_pos Nat.two_pos hn
  have hb : b ≤ x.runes.length := hx.length ▸ Nat.le_add_right ..
  rcases findPrefixWithContext_run hready hn hx hctx self with
    ⟨-, hnot⟩ | ⟨ctx₁, hfirst, hv, hmarks, hresult, hcaptures⟩
  · exact absurd hfits hnot
  · have hfirst' : FirstFrame ctx₁.advanceEpoch (2 * e.numCaptures) :=
      ⟨hfirst.width, hfirst.blank, hfirst.limit⟩
    obtain ⟨hsim, hwidth⟩ := Simulates.start hfirst' hslots e x b s
    have hall := SimulatesAll.start hfirst hslots hv hmarks hfits.fits hb
    have hf := Prioritizes.start hfirst hslots hv hmarks hfits.fits hb hstart s
    have hnobest : BestFirst e x b s (2 * e.numCaptures)
        (e.addThread [] (some e.startState) 0 0 ctx₁.advanceEpoch (x.flagsAt b)).2 0 none :=
      fun _ _ hnone => absurd hnone.symm (Option.some_ne_none _)
    have hbest := hf.bestFirst hsim hnobest
    rw [Option.or_none] at hbest
    have hloop := capturingLoop_first hready hclasses hx (Nat.zero_le _) hsim hall hf
      (hwidth ▸ hfits.fits) hbest (hx.wordAt 0).symm s.length
    rw [hresult] at hfound
    obtain ⟨⟨pos, frame⟩, hpair, rfl⟩ := Option.map_eq_some_iff.1 hfound
    obtain ⟨k, ρ, hk, hpos, hrun, hframe⟩ := hloop pos frame hpair
    exact ⟨k, ρ, hk, hpos, hrun, (hcaptures pos frame hpair).trans (congrArg _ hframe.2)⟩

end Loop

end Trieste.Regex
