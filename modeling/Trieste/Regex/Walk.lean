import Mathlib.Data.Set.Card
import Trieste.Regex.Active
import Trieste.Regex.Context

namespace Trieste.Regex
set_option autoImplicit true
open Library Relation

namespace MatchContext

def HasFrame (ctx : MatchContext) (frame : Nat) : Prop :=
  (frame + 1) * ctx.captureFrameSlots ≤ ctx.captureFrames.length

/-- The arena is made of whole frames and within its limit. -/
structure Aligned (ctx : MatchContext) : Prop where
  slots : 0 < ctx.captureFrameSlots
  whole : ctx.captureFrameSlots ∣ ctx.captureFrames.length
  limit : ctx.captureFrames.length ≤ maxCaptureFrameEntries

/-- The frames of the first context are in the second, unchanged. -/
structure Keeps (ctx ctx' : MatchContext) : Prop where
  slots : ctx'.captureFrameSlots = ctx.captureFrameSlots
  frames : ctx.captureFrames <+: ctx'.captureFrames

theorem Keeps.refl (ctx : MatchContext) : Keeps ctx ctx := ⟨rfl, List.prefix_refl _⟩

theorem Keeps.trans (h : Keeps ctx ctx') (h' : Keeps ctx' ctx'') : Keeps ctx ctx'' :=
  ⟨h'.slots.trans h.slots, h.frames.trans h'.frames⟩

theorem Keeps.hasFrame (h : Keeps ctx ctx') (hf : ctx.HasFrame frame) : ctx'.HasFrame frame := by
  unfold HasFrame
  rw [h.slots]
  exact Nat.le_trans hf h.frames.length_le

theorem Keeps.captureFrame (h : Keeps ctx ctx') (hf : ctx.HasFrame frame) :
    ctx'.captureFrame frame = ctx.captureFrame frame := by
  obtain ⟨rest, hrest⟩ := h.frames
  have hdrop : frame * ctx.captureFrameSlots ≤ ctx.captureFrames.length := by
    apply Nat.le_trans _ hf
    exact Nat.mul_le_mul_right _ (Nat.le_succ frame)
  have hlen : ctx.captureFrameSlots ≤
      (ctx.captureFrames.drop (frame * ctx.captureFrameSlots)).length := by
    rw [List.length_drop]
    have hf' := hf
    unfold HasFrame at hf'
    rw [Nat.succ_mul] at hf'
    omega
  rw [MatchContext.captureFrame, MatchContext.captureFrame, h.slots, ← hrest,
    List.drop_append_of_le_length hdrop, List.take_append_of_le_length hlen]

theorem length_captureFrame {ctx : MatchContext} (hf : ctx.HasFrame frame) :
    (ctx.captureFrame frame).length = ctx.captureFrameSlots := by
  unfold HasFrame at hf
  rw [Nat.succ_mul] at hf
  rw [captureFrame, List.length_take, List.length_drop]
  omega

theorem copy_spec {ctx : MatchContext} (ha : ctx.Aligned) (hf : ctx.HasFrame frame)
    (hcopy : ctx.cloneCaptureFrame frame = (some copy, ctx')) (slot pos : Nat) :
    Keeps ctx (ctx'.setCapture copy slot pos) ∧ (ctx'.setCapture copy slot pos).Aligned ∧
      frame < copy ∧ (ctx'.setCapture copy slot pos).HasFrame copy ∧
      (ctx'.setCapture copy slot pos).captureFrame copy =
        (ctx.captureFrame frame).set slot (some pos) ∧
      (ctx'.setCapture copy slot pos).visited = ctx.visited ∧
      (ctx'.setCapture copy slot pos).captureFrames.length =
        ctx.captureFrames.length + ctx.captureFrameSlots := by
  obtain ⟨m, hm⟩ := ha.whole
  have hframe := length_captureFrame hf
  unfold cloneCaptureFrame at hcopy
  split at hcopy
  · cases hcopy
  · next hlimit =>
    cases hcopy
    have hdiv : ctx.captureFrames.length / ctx.captureFrameSlots = m := by
      rw [hm, Nat.mul_div_cancel_left _ ha.slots]
    have hset : (ctx.captureFrames ++ ctx.captureFrame frame).set
        (m * ctx.captureFrameSlots + slot) (some pos) =
        ctx.captureFrames ++ (ctx.captureFrame frame).set slot (some pos) := by
      rw [Nat.mul_comm, ← hm, List.set_append_right _ _ (Nat.le_add_right ..),
        Nat.add_sub_cancel_left]
    simp only [setCapture, hdiv, hset]
    have hlen : (ctx.captureFrames ++ (ctx.captureFrame frame).set slot (some pos)).length =
        ctx.captureFrames.length + ctx.captureFrameSlots := by
      rw [List.length_append, List.length_set, hframe]
    refine ⟨⟨rfl, List.prefix_append ..⟩, ⟨ha.slots, ?_, ?_⟩, ?_, ?_, ?_, trivial, hlen⟩
    · rw [hlen]
      exact (Nat.dvd_add_right ha.whole).2 (Nat.dvd_refl _)
    · rw [hlen]
      exact Nat.le_of_not_lt hlimit
    · rw [HasFrame, hm, Nat.mul_comm] at hf
      exact Nat.le_of_mul_le_mul_left hf ha.slots
    · rw [HasFrame, hlen, hm, Nat.succ_mul, Nat.mul_comm]
    · rw [captureFrame, Nat.mul_comm, ← hm, List.drop_left]
      apply List.take_of_length_le
      rw [List.length_set, hframe]

/-- The frame is in the arena and holds what the predicate asks for. -/
def Holds (ctx : MatchContext) (P : Nat → List (Option Nat) → Prop) (frame : Nat) : Prop :=
  ctx.HasFrame frame ∧ P frame (ctx.captureFrame frame)

theorem Keeps.holds (h : Keeps ctx ctx') (hP : ctx.Holds P frame) : ctx'.Holds P frame := by
  refine ⟨h.hasFrame hP.1, ?_⟩
  rw [h.captureFrame hP.1]
  exact hP.2

theorem eq_of_exhausted {ctx : MatchContext}
    (h : ctx.cloneCaptureFrame frame = (none, ctx')) : ctx' = ctx := by
  unfold cloneCaptureFrame at h
  split at h
  · cases h
    rfl
  · cases h

theorem markVisited_keeps (ctx : MatchContext) (s : State) : Keeps ctx (ctx.markVisited s) :=
  ⟨rfl, List.prefix_refl _⟩

theorem Aligned.markVisited {ctx : MatchContext} (h : ctx.Aligned) (s : State) :
    (ctx.markVisited s).Aligned := ⟨h.slots, h.whole, h.limit⟩

theorem advanceEpoch_keeps (ctx : MatchContext) : Keeps ctx ctx.advanceEpoch :=
  ⟨rfl, List.prefix_refl _⟩

end MatchContext

/-- What the loop of `add_state_capturing` works on. -/
structure Walk where
  stack : List (Option State × Nat)
  threads : List Thread
  ctx : MatchContext

/-- One round of the loop. -/
inductive WalkStep (e : RegexEngine) (pos : Nat) (flags : Flags) : Walk → Walk → Prop
  | drop {o : Option State} {frame : Nat} {ctx : MatchContext} {stack : List (Option State × Nat)}
      {threads : List Thread}
      (h : ∀ s, o = some s → e.ownedStates[s]? = none ∨ ctx.visited.contains s = true) :
      WalkStep e pos flags ⟨(o, frame) :: stack, threads, ctx⟩ ⟨stack, threads, ctx⟩
  | exhausted {s : State} {d : StateDef} {frame slot : Nat} {ctx ctx' : MatchContext}
      {stack : List (Option State × Nat)} {threads : List Thread}
      (hd : e.ownedStates[s]? = some d) (hs : ctx.visited.contains s = false)
      (hslot : captureSlot d.label = some slot)
      (hcopy : (ctx.markVisited s).cloneCaptureFrame frame = (none, ctx')) :
      WalkStep e pos flags ⟨(some s, frame) :: stack, threads, ctx⟩ ⟨stack, threads, ctx'⟩
  | copy {s : State} {d : StateDef} {frame slot copy : Nat} {ctx ctx' : MatchContext}
      {stack : List (Option State × Nat)} {threads : List Thread}
      (hd : e.ownedStates[s]? = some d) (hs : ctx.visited.contains s = false)
      (hslot : captureSlot d.label = some slot)
      (hcopy : (ctx.markVisited s).cloneCaptureFrame frame = (some copy, ctx')) :
      WalkStep e pos flags ⟨(some s, frame) :: stack, threads, ctx⟩
        ⟨(d.next, copy) :: stack, threads, ctx'.setCapture copy slot pos⟩
  | epsilon {s : State} {d : StateDef} {frame : Nat} {succs : List (Option State)}
      {ctx : MatchContext} {stack : List (Option State × Nat)} {threads : List Thread}
      (hd : e.ownedStates[s]? = some d) (hs : ctx.visited.contains s = false)
      (hslot : captureSlot d.label = none) (he : d.epsilonNext flags = some succs) :
      WalkStep e pos flags ⟨(some s, frame) :: stack, threads, ctx⟩
        ⟨succs.map (·, frame) ++ stack, threads, ctx.markVisited s⟩
  | terminal {s : State} {d : StateDef} {frame : Nat} {ctx : MatchContext}
      {stack : List (Option State × Nat)} {threads : List Thread}
      (hd : e.ownedStates[s]? = some d) (hs : ctx.visited.contains s = false)
      (he : d.epsilonNext flags = none) :
      WalkStep e pos flags ⟨(some s, frame) :: stack, threads, ctx⟩
        ⟨stack, threads ++ [⟨s, frame⟩], ctx.markVisited s⟩

def Walk.measure (w : Walk) : Nat := 2 * w.ctx.visited.free + w.stack.length

namespace RegexEngine

theorem captureNext_step (hd : e.ownedStates[s]? = some d) (hs : ctx.visited.contains s = false)
    (hslot : captureSlot d.label = some slot) (pos : Nat) (flags : Flags) (frame : Nat)
    (stack : List (Option State × Nat)) (threads : List Thread) :
    WalkStep e pos flags ⟨(some s, frame) :: stack, threads, ctx⟩
      ⟨(captureNext d frame slot pos (ctx.markVisited s)).1 ++ stack, threads,
        (captureNext d frame slot pos (ctx.markVisited s)).2⟩ := by
  unfold captureNext
  rcases hcopy : (ctx.markVisited s).cloneCaptureFrame frame with ⟨copy, ctx'⟩
  cases copy with
  | none => exact .exhausted hd hs hslot hcopy
  | some copy => exact .copy hd hs hslot hcopy

theorem addStateCapturing_succ (e : RegexEngine) (pos : Nat) (flags : Flags) (fuel : Nat)
    (entry : Option State × Nat) (stack : List (Option State × Nat)) (threads : List Thread)
    (ctx : MatchContext) :
    ∃ w, WalkStep e pos flags ⟨entry :: stack, threads, ctx⟩ w ∧
      e.addStateCapturing pos flags (fuel + 1) (entry :: stack) threads ctx =
        e.addStateCapturing pos flags fuel w.stack w.threads w.ctx := by
  obtain ⟨o, frame⟩ := entry
  cases o with
  | none =>
    exact ⟨⟨stack, threads, ctx⟩, .drop (fun s hs => nomatch hs), rfl⟩
  | some s =>
    cases hd : e.ownedStates[s]? with
    | none =>
      refine ⟨⟨stack, threads, ctx⟩, .drop (fun t ht => ?_), ?_⟩
      · cases ht
        exact .inl hd
      · simp only [addStateCapturing, hd]
    | some d =>
      cases hv : ctx.visited.contains s with
      | true =>
        refine ⟨⟨stack, threads, ctx⟩, .drop (fun t ht => ?_), ?_⟩
        · cases ht
          exact .inr hv
        · simp only [addStateCapturing, hd, hv, if_true]
      | false =>
        cases ho : isCaptureOpen d.label with
        | true =>
          have hslot : captureSlot d.label = some (captureIndex d.label * 2) := by
            rw [captureSlot, if_pos ho]
          refine ⟨_, captureNext_step hd hv hslot pos flags frame stack threads, ?_⟩
          simp only [addStateCapturing, hd, hv, ho, if_true, Bool.false_eq_true, if_false]
        | false =>
          cases hc : isCaptureClose d.label with
          | true =>
            have hslot : captureSlot d.label = some (captureIndex d.label * 2 + 1) := by
              rw [captureSlot, ho, hc, if_neg Bool.false_ne_true, if_pos rfl]
            refine ⟨_, captureNext_step hd hv hslot pos flags frame stack threads, ?_⟩
            simp only [addStateCapturing, hd, hv, ho, hc, if_true, Bool.false_eq_true, if_false]
          | false =>
            have hslot : captureSlot d.label = none := by
              rw [captureSlot, ho, hc, if_neg Bool.false_ne_true, if_neg Bool.false_ne_true]
            cases he : d.epsilonNext flags with
            | some succs =>
              refine ⟨_, .epsilon hd hv hslot he, ?_⟩
              simp only [addStateCapturing, hd, hv, ho, hc, he, Bool.false_eq_true, if_false]
            | none =>
              refine ⟨_, .terminal hd hv he, ?_⟩
              simp only [addStateCapturing, hd, hv, ho, hc, he, Bool.false_eq_true, if_false]

end RegexEngine

theorem cloneCaptureFrame_visited_eq {ctx : MatchContext}
    (h : ctx.cloneCaptureFrame frame = (result, ctx')) : ctx'.visited = ctx.visited := by
  have hv := ctx.cloneCaptureFrame_visited frame
  rwa [h] at hv

/-- An entry is dropped, or a state is visited that was not. -/
theorem WalkStep.visits (h : WalkStep e pos flags w w') :
    (w'.ctx.visited = w.ctx.visited ∧ w'.stack.length < w.stack.length) ∨
      ∃ s, s < e.ownedStates.length ∧ w.ctx.visited.contains s = false ∧
        w'.ctx.visited = w.ctx.visited.insert s ∧ w'.stack.length ≤ w.stack.length + 1 := by
  have hlt : ∀ {s : State} {d : StateDef}, e.ownedStates[s]? = some d → s < e.ownedStates.length :=
    fun hd => (List.getElem?_eq_some_iff.1 hd).1
  cases h with
  | drop => exact .inl ⟨rfl, Nat.lt_succ_self _⟩
  | exhausted hd hs _ hcopy =>
    refine .inr ⟨_, hlt hd, hs, cloneCaptureFrame_visited_eq hcopy, ?_⟩
    simp only [List.length_cons]
    omega
  | copy hd hs _ hcopy =>
    refine .inr ⟨_, hlt hd, hs, cloneCaptureFrame_visited_eq hcopy, ?_⟩
    simp only [List.length_cons]
    omega
  | @epsilon _ d _ _ _ _ _ hd hs _ he =>
    have hlen := d.epsilonNext_length_le he
    refine .inr ⟨_, hlt hd, hs, rfl, ?_⟩
    simp only [List.length_append, List.length_map, List.length_cons]
    omega
  | terminal hd hs =>
    refine .inr ⟨_, hlt hd, hs, rfl, ?_⟩
    simp only [List.length_cons]
    omega

theorem WalkStep.marks (h : WalkStep e pos flags w w') :
    w'.ctx.visited.marks.length = w.ctx.visited.marks.length := by
  rcases h.visits with ⟨hv, -⟩ | ⟨s, -, -, hv, -⟩
  · rw [hv]
  · rw [hv, EpochSet.length_marks_insert]

theorem WalkStep.measure_lt (h : WalkStep e pos flags w w')
    (hlen : w.ctx.visited.marks.length = e.ownedStates.length) : w'.measure < w.measure := by
  unfold Walk.measure
  rcases h.visits with ⟨hv, hlt⟩ | ⟨s, hs, hnew, hv, hle⟩
  · rw [hv]
    omega
  · have hfree := EpochSet.free_insert (hlen ▸ hs) hnew
    rw [hv]
    omega

theorem RegexEngine.addStateCapturing_walk (e : RegexEngine) (pos : Nat) (flags : Flags)
    (fuel : Nat) (stack : List (Option State × Nat)) (threads : List Thread) (ctx : MatchContext) :
    ∃ w, ReflTransGen (WalkStep e pos flags) ⟨stack, threads, ctx⟩ w ∧
      e.addStateCapturing pos flags fuel stack threads ctx = (w.threads, w.ctx) ∧
      (ctx.visited.marks.length = e.ownedStates.length →
        (Walk.mk stack threads ctx).measure ≤ fuel → w.stack = []) := by
  induction fuel generalizing stack threads ctx with
  | zero =>
    refine ⟨_, .refl, rfl, fun _ hm => ?_⟩
    apply List.eq_nil_of_length_eq_zero
    exact Nat.eq_zero_of_le_zero ((Nat.le_add_left ..).trans hm)
  | succ fuel ih =>
    cases stack with
    | nil =>
      refine ⟨⟨[], threads, ctx⟩, .refl, ?_, fun _ _ => rfl⟩
      rw [addStateCapturing]
      exact Nat.succ_ne_zero fuel
    | cons entry stack =>
      obtain ⟨w, hstep, heq⟩ := e.addStateCapturing_succ pos flags fuel entry stack threads ctx
      obtain ⟨w', hrun, hres, hdone⟩ := ih w.stack w.threads w.ctx
      refine ⟨w', .head hstep hrun, heq.trans hres, fun hlen hm => ?_⟩
      apply hdone (hstep.marks.trans hlen)
      have := hstep.measure_lt hlen
      exact Nat.le_of_lt_succ (Nat.lt_of_lt_of_le this hm)

/-- The frame that a state goes on with: a later one if it is a capture state. -/
def StateDef.goesOnIn (d : StateDef) (frame frame' : Nat) : Prop :=
  match captureSlot d.label with
  | some _ => frame < frame'
  | none => frame' = frame

/-- What holds of a state with its frame and what that holds is also true of the states that it
goes on to, once it was recorded. -/
def Records (e : RegexEngine) (pos : Nat) (flags : Flags)
    (P : State → Nat → List (Option Nat) → Prop) : Prop :=
  ∀ s d succs t frame frame' spans, e.ownedStates[s]? = some d →
    d.epsilonNext flags = some succs → some t ∈ succs → d.goesOnIn frame frame' →
    P s frame spans → P t frame' (d.record pos spans)

/-- The entries and threads of a walk have frames for which a predicate holds. -/
structure Walk.Sound (e : RegexEngine) (flags : Flags) (P : State → Nat → List (Option Nat) → Prop)
    (w : Walk) : Prop where
  aligned : w.ctx.Aligned
  pending : ∀ s frame, (some s, frame) ∈ w.stack → w.ctx.Holds (P s) frame
  threads : ∀ t ∈ w.threads, w.ctx.Holds (P t.state) t.capsFrame ∧
    Terminal e.ownedStates flags t.state

theorem WalkStep.keeps (h : WalkStep e pos flags w w') (hw : w.Sound e flags P) :
    w.ctx.Keeps w'.ctx ∧ w'.ctx.Aligned := by
  cases h with
  | drop => exact ⟨.refl _, hw.aligned⟩
  | @exhausted s _ _ _ ctx =>
    rename_i hcopy
    rw [MatchContext.eq_of_exhausted hcopy]
    exact ⟨ctx.markVisited_keeps s, hw.aligned.markVisited s⟩
  | @copy s _ frame slot _ ctx =>
    rename_i hcopy
    have hhas : (ctx.markVisited s).HasFrame frame := (hw.pending s frame (.head _)).1
    have hspec := MatchContext.copy_spec (hw.aligned.markVisited s) hhas hcopy slot pos
    exact ⟨(ctx.markVisited_keeps s).trans hspec.1, hspec.2.1⟩
  | @epsilon s _ _ _ ctx => exact ⟨ctx.markVisited_keeps s, hw.aligned.markVisited s⟩
  | @terminal s _ _ ctx => exact ⟨ctx.markVisited_keeps s, hw.aligned.markVisited s⟩

/-- A step of the walk keeps what its frames hold, whether the arena is used up or not. -/
theorem WalkStep.sound (h : WalkStep e pos flags w w') (hP : Records e pos flags P)
    (hw : w.Sound e flags P) : w'.Sound e flags P := by
  obtain ⟨hkeeps, haligned⟩ := h.keeps hw
  refine ⟨haligned, ?_, ?_⟩
  · intro s frame hmem
    cases h with
    | drop => exact hw.pending s frame (.tail _ hmem)
    | exhausted => exact hkeeps.holds (hw.pending s frame (.tail _ hmem))
    | @copy q d frame₀ slot copy ctx ctx' stack threads hd _ hslot hcopy =>
      rcases List.mem_cons.1 hmem with heq | hmem
      · have hq := hw.pending q frame₀ (.head _)
        have hhas' : (ctx.markVisited q).HasFrame frame₀ := hq.1
        obtain ⟨-, -, hlt, hhas, hframe, -⟩ :=
          MatchContext.copy_spec (hw.aligned.markVisited q) hhas' hcopy slot pos
        obtain ⟨hnext, hcopy'⟩ := Prod.mk.inj heq
        subst hcopy'
        refine ⟨hhas, ?_⟩
        have hgoes : d.goesOnIn frame₀ frame := by
          rw [StateDef.goesOnIn, hslot]
          exact hlt
        have hrecord := hP q d [d.next] s frame₀ frame _ hd (d.epsilonNext_capture hslot flags)
          (List.mem_singleton.2 hnext) hgoes hq.2
        rw [StateDef.record, hslot] at hrecord
        rw [hframe]
        exact hrecord
      · exact hkeeps.holds (hw.pending s frame (.tail _ hmem))
    | @epsilon q d frame₀ succs ctx stack threads hd _ hslot he =>
      rcases List.mem_append.1 hmem with hmem | hmem
      · obtain ⟨o, ho, heq⟩ := List.mem_map.1 hmem
        obtain ⟨rfl, rfl⟩ := Prod.mk.inj heq
        have hq := hw.pending q frame₀ (.head _)
        have hgoes : d.goesOnIn frame₀ frame₀ := by rw [StateDef.goesOnIn, hslot]
        have hrecord := hP q d succs s frame₀ frame₀ _ hd he ho hgoes hq.2
        rw [StateDef.record, hslot] at hrecord
        exact ⟨hq.1, hrecord⟩
      · exact hkeeps.holds (hw.pending s frame (.tail _ hmem))
    | terminal => exact hkeeps.holds (hw.pending s frame (.tail _ hmem))
  · intro t hmem
    cases h with
    | drop => exact hw.threads t hmem
    | exhausted | copy | epsilon =>
      obtain ⟨hholds, hterm⟩ := hw.threads t hmem
      exact ⟨hkeeps.holds hholds, hterm⟩
    | @terminal q d frame₀ ctx stack threads hd _ he =>
      rcases List.mem_append.1 hmem with hmem | hmem
      · obtain ⟨hholds, hterm⟩ := hw.threads t hmem
        exact ⟨hkeeps.holds hholds, hterm⟩
      · rw [List.mem_singleton.1 hmem]
        exact ⟨hkeeps.holds (hw.pending q frame₀ (.head _)), d, hd, he⟩

theorem WalkStep.run_sound (h : ReflTransGen (WalkStep e pos flags) w w')
    (hP : Records e pos flags P) (hw : w.Sound e flags P) :
    w'.Sound e flags P ∧ w.ctx.Keeps w'.ctx := by
  induction h with
  | refl => exact ⟨hw, .refl _⟩
  | tail _ hstep ih => exact ⟨hstep.sound hP ih.1, ih.2.trans (hstep.keeps ih.1).1⟩

/-- The frames in the arena were taken for different cells, those of position `p` for states
that count as visited. -/
def MatchContext.Spent (ctx : MatchContext) (cells : Set (State × Nat)) (p : Nat) : Prop :=
  ∃ taken : Finset (State × Nat), ↑taken ⊆ cells ∧
    ctx.captureFrames.length = ctx.captureFrameSlots * (1 + taken.card) ∧
    ∀ c ∈ taken, c.2 < p ∨ (c.2 = p ∧ ctx.visited.contains c.1 = true)

/-- The arena has a frame for the start and one for every cell. -/
structure Fits (slots : Nat) (cells : Set (State × Nat)) : Prop where
  finite : cells.Finite
  entries : slots * (1 + cells.ncard) ≤ maxCaptureFrameEntries

theorem Fits.insert_card {taken : Finset (State × Nat)} {visited : EpochSet}
    (h : Fits slots cells) (hsub : ↑taken ⊆ cells)
    (hold : ∀ c ∈ taken, c.2 < p ∨ (c.2 = p ∧ visited.contains c.1 = true))
    (hs : visited.contains s = false) (hcell : (s, p) ∈ cells) :
    (insert (s, p) taken).card = taken.card + 1 ∧ ↑(insert (s, p) taken) ⊆ cells ∧
      taken.card + 1 ≤ cells.ncard := by
  have hnew : (s, p) ∉ taken := by
    intro hmem
    rcases hold _ hmem with hlt | ⟨-, hvis⟩
    · exact Nat.lt_irrefl p hlt
    · rw [hs] at hvis
      cases hvis
  have hcard := Finset.card_insert_of_notMem hnew
  have hsub' : ↑(insert (s, p) taken) ⊆ cells := by
    rw [Finset.coe_insert]
    exact Set.insert_subset hcell hsub
  refine ⟨hcard, hsub', ?_⟩
  rw [← hcard, ← Set.ncard_coe_finset]
  exact Set.ncard_le_ncard hsub' h.finite

namespace MatchContext

theorem Spent.visit {ctx ctx' : MatchContext} (h : ctx.Spent cells p)
    (hslots : ctx'.captureFrameSlots = ctx.captureFrameSlots)
    (hframes : ctx'.captureFrames.length = ctx.captureFrames.length)
    (hv : ∀ s, ctx.visited.contains s = true → ctx'.visited.contains s = true) :
    ctx'.Spent cells p := by
  obtain ⟨taken, hsub, hlen, hold⟩ := h
  refine ⟨taken, hsub, ?_, fun c hc => ?_⟩
  · rw [hframes, hslots, hlen]
  · exact (hold c hc).imp_right fun hc' => ⟨hc'.1, hv _ hc'.2⟩

theorem Spent.not_exhausted {ctx ctx' : MatchContext} (h : ctx.Spent cells p)
    (hfits : Fits ctx.captureFrameSlots cells) (hs : ctx.visited.contains s = false)
    (hcell : (s, p) ∈ cells) :
    (ctx.markVisited s).cloneCaptureFrame frame ≠ (none, ctx') := by
  obtain ⟨taken, hsub, hlen, hold⟩ := h
  obtain ⟨-, -, hle⟩ := hfits.insert_card hsub hold hs hcell
  have hmul := Nat.mul_le_mul_left ctx.captureFrameSlots (Nat.add_le_add_left hle 1)
  have hentries := hmul.trans hfits.entries
  have hfit : ¬ maxCaptureFrameEntries <
      ctx.captureFrames.length + ctx.captureFrameSlots := by
    rw [hlen, Nat.not_lt]
    rw [← Nat.add_assoc, Nat.mul_succ] at hentries
    exact hentries
  intro heq
  rw [cloneCaptureFrame, markVisited] at heq
  rw [if_neg hfit] at heq
  cases heq

/-- At the next position no state counts as visited. -/
theorem Spent.advance {ctx : MatchContext} (h : ctx.Spent cells q) (hq : q < p) :
    ctx.advanceEpoch.Spent cells p := by
  obtain ⟨taken, hsub, hlen, hold⟩ := h
  refine ⟨taken, hsub, hlen, fun c hc => .inl ?_⟩
  rcases hold c hc with hlt | ⟨heq, -⟩
  · exact hlt.trans hq
  · exact heq.trans_lt hq

theorem Spent.copy {ctx ctx' : MatchContext} (h : ctx.Spent cells p)
    (hfits : Fits ctx.captureFrameSlots cells) (hs : ctx.visited.contains s = false)
    (hcell : (s, p) ∈ cells) (hslots : ctx'.captureFrameSlots = ctx.captureFrameSlots)
    (hframes : ctx'.captureFrames.length = ctx.captureFrames.length + ctx.captureFrameSlots)
    (hv : ∀ t, ctx'.visited.contains t = true ↔ t = s ∨ ctx.visited.contains t = true) :
    ctx'.Spent cells p := by
  obtain ⟨taken, hsub, hlen, hold⟩ := h
  obtain ⟨hcard, hsub', -⟩ := hfits.insert_card hsub hold hs hcell
  refine ⟨insert (s, p) taken, hsub', ?_, fun c hc => ?_⟩
  · rw [hframes, hslots, hlen, hcard, ← Nat.add_assoc, Nat.mul_succ]
  · rcases Finset.mem_insert.1 hc with rfl | hc
    · exact .inr ⟨rfl, (hv s).2 (.inl rfl)⟩
    · exact (hold c hc).imp_right fun hc' => ⟨hc'.1, (hv _).2 (.inr hc'.2)⟩

end MatchContext

/-- What a walk has visited from the given roots, while its frames are not used up. -/
structure Walk.Complete (e : RegexEngine) (flags : Flags) (cells : Set (State × Nat)) (p : Nat)
    (roots : Option State → Prop) (w : Walk) : Prop where
  marks : w.ctx.visited.marks.length = e.ownedStates.length
  spent : w.ctx.Spent cells p
  explored : ∃ P, Explored (StackEdge e.ownedStates flags) roots P (w.stack.map Prod.fst) ∧
    (∀ s, s < e.ownedStates.length → (P (some s) ↔ w.ctx.visited.contains s = true)) ∧
    ∀ t, t ∈ w.threads.map Thread.state ↔ P (some t) ∧ Terminal e.ownedStates flags t

/-- The capture states that roots lead to are cells. -/
def Covers (e : RegexEngine) (flags : Flags) (cells : Set (State × Nat)) (p : Nat)
    (roots : Option State → Prop) : Prop :=
  ∀ r s d slot, roots r → ReflTransGen (StackEdge e.ownedStates flags) r (some s) →
    e.ownedStates[s]? = some d → captureSlot d.label = some slot → (s, p) ∈ cells

theorem StackEdge.iff_mem (hd : states[s]? = some d) (he : d.epsilonNext flags = some succs)
    (o : Option State) : StackEdge states flags (some s) o ↔ o ∈ succs := by
  simp [StackEdge, hd, he]

theorem StackEdge.not_terminal (hd : states[s]? = some d) (he : d.epsilonNext flags = none)
    (o : Option State) : ¬ StackEdge states flags (some s) o := by
  simp [StackEdge, hd, he]

theorem not_terminal_of_epsilon (hd : states[s]? = some d)
    (he : d.epsilonNext flags = some succs) : ¬ Terminal states flags s := by
  simp [Terminal, hd, he]

theorem contains_insert_iff {visited : EpochSet} (hs : s < visited.marks.length) (t : State) :
    (visited.insert s).contains t = true ↔ t = s ∨ visited.contains t = true := by
  rw [EpochSet.contains_insert, Bool.or_eq_true, decide_eq_true_eq]
  exact or_congr_left ⟨fun h => h.1.symm, fun h => ⟨h.symm, hs⟩⟩

section Complete
variable {e : RegexEngine} {flags : Flags} {cells : Set (State × Nat)}
  {stack : List (Option State × Nat)} {threads : List Thread} {ctx : MatchContext}

/-- The walk goes on from the states that it has just visited. -/
theorem Walk.Complete.visit {w w' : Walk} (succs : List (Option State))
    (h : w.Complete e flags cells p roots)
    (hstack : w.stack = (some s, frame) :: stack) (hd : e.ownedStates[s]? = some d)
    (hv : w'.ctx.visited = w.ctx.visited.insert s)
    (hspent : w'.ctx.Spent cells p) (hstack' : w'.stack.map Prod.fst = succs ++ stack.map Prod.fst)
    (hsuccs : ∀ o, StackEdge e.ownedStates flags (some s) o ↔ o ∈ succs)
    (hthreads : ∀ t, t ∈ w'.threads.map Thread.state ↔
      t ∈ w.threads.map Thread.state ∨ (t = s ∧ Terminal e.ownedStates flags t)) :
    w'.Complete e flags cells p roots := by
  obtain ⟨P, hexp, hseen, hmem⟩ := h.explored
  have hlt : s < e.ownedStates.length := (List.getElem?_eq_some_iff.1 hd).1
  have hcontains := contains_insert_iff (h.marks ▸ hlt)
  rw [hstack, List.map_cons] at hexp
  have hexp' := hexp.visit hsuccs
  rw [← hstack'] at hexp'
  refine ⟨by rw [hv, EpochSet.length_marks_insert, h.marks], hspent, _, hexp', ?_, ?_⟩
  · intro t ht
    simp only [hv, hcontains, ← hseen t ht, Option.some.injEq]
  · intro t
    simp only [hthreads, hmem, Option.some.injEq, or_and_right]
    exact or_comm

/-- Entries that lead nowhere new are dropped. -/
theorem Walk.Complete.drop
    (h : Walk.Complete e flags cells p roots ⟨(o, frame) :: stack, threads, ctx⟩)
    (ho : ∀ s, o = some s → e.ownedStates[s]? = none ∨ ctx.visited.contains s = true) :
    Walk.Complete e flags cells p roots ⟨stack, threads, ctx⟩ := by
  obtain ⟨P, hexp, hseen, hmem⟩ := h.explored
  by_cases hP : P o
  · exact ⟨h.marks, h.spent, P, hexp.skip hP, hseen, hmem⟩
  · have hnone : ∀ s, o = some s → e.ownedStates[s]? = none := by
      intro s hs
      rcases ho s hs with hnone | hvis
      · exact hnone
      · apply List.getElem?_eq_none_iff.2
        rw [← Nat.not_lt]
        intro hlt
        exact hP (hs ▸ (hseen s hlt).2 hvis)
    have hedge : ∀ b, ¬ StackEdge e.ownedStates flags o b := by
      intro b hb
      cases o with
      | none => exact hb
      | some s =>
        obtain ⟨d, _, hd, -⟩ := hb
        rw [hnone s rfl] at hd
        cases hd
    refine ⟨h.marks, h.spent, _, hexp.visit_nil hedge, fun t ht => ?_, fun t => ?_⟩
    · rw [← hseen t ht]
      refine or_iff_right fun heq => ?_
      exact Nat.not_lt.2 (List.getElem?_eq_none_iff.1 (hnone t heq.symm)) ht
    · rw [hmem]
      refine and_congr_left fun hterm => (or_iff_right fun heq => ?_).symm
      obtain ⟨d, hd, -⟩ := hterm
      rw [hnone t heq.symm] at hd
      cases hd

/-- The capture states that a walk comes to are cells. -/
theorem Walk.Complete.cell {w : Walk} (hc : w.Complete e flags cells p roots)
    (hcovers : Covers e flags cells p roots) (hstack : w.stack = (some s, frame) :: stack)
    (hd : e.ownedStates[s]? = some d) (hslot : captureSlot d.label = some slot) :
    (s, p) ∈ cells := by
  obtain ⟨P, hexp, -⟩ := hc.explored
  rw [hstack] at hexp
  obtain ⟨r, hr, hreach⟩ := hexp.sound (some s) (.inr (.head _))
  exact hcovers r s d slot hr hreach hd hslot

/-- While the arena has frames for all cells, a step of the walk misses nothing. -/
theorem WalkStep.complete (h : WalkStep e pos flags w w') (hw : w.Sound e flags P)
    (hfits : Fits w.ctx.captureFrameSlots cells) (hcovers : Covers e flags cells p roots)
    (hc : w.Complete e flags cells p roots) : w'.Complete e flags cells p roots := by
  have hlt : ∀ {s : State} {d : StateDef}, e.ownedStates[s]? = some d →
      s < w.ctx.visited.marks.length := by
    intro s d hd
    rw [hc.marks]
    exact (List.getElem?_eq_some_iff.1 hd).1
  cases h with
  | drop ho => exact hc.drop ho
  | exhausted hd hs hslot hcopy =>
    exact absurd hcopy (hc.spent.not_exhausted hfits hs (hc.cell hcovers rfl hd hslot))
  | @copy s d frame slot copy ctx ctx' stack threads hd hs hslot hcopy =>
    have hhas : (ctx.markVisited s).HasFrame frame := (hw.pending s frame (.head _)).1
    obtain ⟨hkeeps, -, -, -, -, hv, hlen⟩ :=
      MatchContext.copy_spec (hw.aligned.markVisited s) hhas hcopy slot pos
    have he := d.epsilonNext_capture hslot flags
    have hspent := hc.spent.copy hfits hs (hc.cell hcovers rfl hd hslot) hkeeps.slots hlen fun t => by
      rw [hv]
      exact contains_insert_iff (hlt hd) t
    refine hc.visit [d.next] rfl hd hv hspent rfl (StackEdge.iff_mem hd he) fun t => ?_
    refine (or_iff_left fun ht => ?_).symm
    exact not_terminal_of_epsilon hd he (ht.1 ▸ ht.2)
  | @epsilon s d frame succs ctx stack threads hd hs hslot he =>
    have hspent : (ctx.markVisited s).Spent cells p := hc.spent.visit rfl rfl fun t ht =>
      (contains_insert_iff (hlt hd) t).2 (.inr ht)
    refine hc.visit succs rfl hd rfl hspent ?_ (StackEdge.iff_mem hd he) fun t => ?_
    · simp [Function.comp_def]
    · refine (or_iff_left fun ht => ?_).symm
      exact not_terminal_of_epsilon hd he (ht.1 ▸ ht.2)
  | @terminal s d frame ctx stack threads hd hs he =>
    have hspent : (ctx.markVisited s).Spent cells p := hc.spent.visit rfl rfl fun t ht =>
      (contains_insert_iff (hlt hd) t).2 (.inr ht)
    refine hc.visit [] rfl hd rfl hspent rfl (fun o => ?_) fun t => ?_
    · simp [StackEdge.not_terminal hd he]
    · simp only [List.map_append, List.map_cons, List.map_nil, List.mem_append,
        List.mem_singleton]
      refine or_congr_right (iff_self_and.2 fun ht => ?_)
      exact ht ▸ ⟨d, hd, he⟩

theorem WalkStep.run_complete (h : ReflTransGen (WalkStep e pos flags) w w')
    (hP : Records e pos flags P) (hw : w.Sound e flags P)
    (hfits : Fits w.ctx.captureFrameSlots cells) (hcovers : Covers e flags cells p roots)
    (hc : w.Complete e flags cells p roots) : w'.Complete e flags cells p roots := by
  induction h with
  | refl => exact hc
  | tail hrun hstep ih =>
    obtain ⟨hw', hkeeps⟩ := WalkStep.run_sound hrun hP hw
    exact hstep.complete hw' (hkeeps.slots ▸ hfits) hcovers ih

/-- One more entry is pending. -/
theorem Walk.Sound.push (hw : Walk.Sound e flags P ⟨[], threads, ctx⟩)
    (hframe : ∀ s, state = some s → ctx.Holds (P s) frame) :
    Walk.Sound e flags P ⟨[(state, frame)], threads, ctx⟩ := by
  refine ⟨hw.aligned, fun s f hmem => ?_, hw.threads⟩
  obtain ⟨hs, rfl⟩ := Prod.mk.inj (List.mem_singleton.1 hmem)
  exact hframe s hs.symm

theorem Walk.Complete.push (hc : Walk.Complete e flags cells p roots ⟨[], threads, ctx⟩)
    (state : Option State) (frame : Nat) :
    Walk.Complete e flags cells p (fun o => o = state ∨ roots o)
      ⟨[(state, frame)], threads, ctx⟩ := by
  obtain ⟨P, hexp, hseen, hmem⟩ := hc.explored
  exact ⟨hc.marks, hc.spent, P, hexp.restart state, hseen, hmem⟩

namespace RegexEngine

theorem addThread_walk (e : RegexEngine) (threads : List Thread) (state : Option State)
    (frame pos : Nat) (ctx : MatchContext) (flags : Flags) :
    ∃ w, ReflTransGen (WalkStep e pos flags) ⟨[(state, frame)], threads, ctx⟩ w ∧
      e.addThread threads state frame pos ctx flags = (w.threads, w.ctx) ∧
      (ctx.visited.marks.length = e.ownedStates.length → w.stack = []) := by
  obtain ⟨w, hrun, heq, hdone⟩ := e.addStateCapturing_walk pos flags
    (2 * e.ownedStates.length + 1) [(state, frame)] threads ctx
  refine ⟨w, hrun, heq, fun hmarks => hdone hmarks ?_⟩
  have hfree := ctx.visited.free_le
  simp only [Walk.measure, List.length_singleton]
  omega

theorem addThread_sound (hP : Records e pos flags P)
    (hw : Walk.Sound e flags P ⟨[], threads, ctx⟩)
    (hframe : ∀ s, state = some s → ctx.Holds (P s) frame) :
    Walk.Sound e flags P ⟨[], (e.addThread threads state frame pos ctx flags).1,
        (e.addThread threads state frame pos ctx flags).2⟩ ∧
      ctx.Keeps (e.addThread threads state frame pos ctx flags).2 := by
  obtain ⟨w, hrun, heq, -⟩ := e.addThread_walk threads state frame pos ctx flags
  obtain ⟨hsound, hkeeps⟩ := WalkStep.run_sound hrun hP (hw.push hframe)
  rw [heq]
  exact ⟨⟨hsound.aligned, fun _ _ hmem => absurd hmem List.not_mem_nil, hsound.threads⟩, hkeeps⟩

theorem addThread_complete (hP : Records e pos flags P)
    (hw : Walk.Sound e flags P ⟨[], threads, ctx⟩)
    (hframe : ∀ s, state = some s → ctx.Holds (P s) frame)
    (hfits : Fits ctx.captureFrameSlots cells)
    (hcovers : Covers e flags cells p fun o => o = state ∨ roots o)
    (hc : Walk.Complete e flags cells p roots ⟨[], threads, ctx⟩) :
    Walk.Complete e flags cells p (fun o => o = state ∨ roots o)
      ⟨[], (e.addThread threads state frame pos ctx flags).1,
        (e.addThread threads state frame pos ctx flags).2⟩ := by
  obtain ⟨w, hrun, heq, hdone⟩ := e.addThread_walk threads state frame pos ctx flags
  have hcomplete := WalkStep.run_complete hrun hP (hw.push hframe) hfits hcovers
    (hc.push state frame)
  rw [heq, ← hdone hc.marks]
  exact hcomplete

/-- The successors of the threads that consume a rune. -/
def Roots (e : RegexEngine) (current : List Thread) (rune : Nat) (o : Option State) : Prop :=
  ∃ t ∈ current, ∃ d, e.ownedStates[t.state]? = some d ∧ e.consumes d rune = true ∧ d.next = o

theorem stepCapturing_append (e : RegexEngine) (current : List Thread) (t : Thread)
    (rune pos : Nat) (ctx : MatchContext) (flags : Flags) :
    (∃ d, e.ownedStates[t.state]? = some d ∧ e.consumes d rune = true ∧
      e.stepCapturing (current ++ [t]) rune pos ctx flags =
        e.addThread (e.stepCapturing current rune pos ctx flags).1 d.next t.capsFrame pos
          (e.stepCapturing current rune pos ctx flags).2 flags) ∨
    ((∀ d, e.ownedStates[t.state]? = some d → e.consumes d rune = false) ∧
      e.stepCapturing (current ++ [t]) rune pos ctx flags =
        e.stepCapturing current rune pos ctx flags) := by
  simp only [stepCapturing, List.foldl_append, List.foldl_cons, List.foldl_nil]
  cases hd : e.ownedStates[t.state]? with
  | none => exact .inr ⟨(fun d hd => nomatch hd), rfl⟩
  | some d =>
    cases hr : e.consumes d rune with
    | true =>
      refine .inl ⟨d, rfl, hr, ?_⟩
      simp only [hr, if_true]
    | false =>
      refine .inr ⟨fun d' hd' => Option.some.inj hd' ▸ hr, ?_⟩
      simp only [hr, Bool.false_eq_true, if_false]

/-- The threads that consume a rune have frames with what the predicate asks of their successors. -/
def Continues (e : RegexEngine) (P : State → Nat → List (Option Nat) → Prop) (rune : Nat)
    (ctx : MatchContext) (current : List Thread) : Prop :=
  ∀ t ∈ current, ∀ d u, e.ownedStates[t.state]? = some d → e.consumes d rune = true →
    d.next = some u → ctx.Holds (P u) t.capsFrame

theorem stepCapturing_sound (hP : Records e pos flags P) (ha : ctx.Aligned)
    (hnext : Continues e P rune ctx current) :
    Walk.Sound e flags P ⟨[], (e.stepCapturing current rune pos ctx flags).1,
        (e.stepCapturing current rune pos ctx flags).2⟩ ∧
      ctx.Keeps (e.stepCapturing current rune pos ctx flags).2 := by
  induction current using List.reverseRecOn with
  | nil =>
    refine ⟨⟨⟨ha.slots, ha.whole, ha.limit⟩, ?_, ?_⟩, ctx.advanceEpoch_keeps⟩
    · intro _ _ hmem
      exact absurd hmem List.not_mem_nil
    · intro _ hmem
      exact absurd hmem List.not_mem_nil
  | append_singleton current t ih =>
    obtain ⟨hsound, hkeeps⟩ := ih fun t' ht' => hnext t' (List.mem_append_left _ ht')
    rcases e.stepCapturing_append current t rune pos ctx flags with ⟨d, hd, hr, heq⟩ | ⟨-, heq⟩
    · obtain ⟨hsound', hkeeps'⟩ := addThread_sound hP hsound fun u hu =>
        hkeeps.holds (hnext t List.mem_concat_self d u hd hr hu)
      rw [heq]
      exact ⟨hsound', hkeeps.trans hkeeps'⟩
    · rw [heq]
      exact ⟨hsound, hkeeps⟩

theorem Roots.append_iff (e : RegexEngine) (current : List Thread) (t : Thread) (rune : Nat)
    (o : Option State) : Roots e (current ++ [t]) rune o ↔
      (∃ d, e.ownedStates[t.state]? = some d ∧ e.consumes d rune = true ∧ d.next = o) ∨
        Roots e current rune o := by
  simp only [Roots, List.mem_append, List.mem_singleton, or_and_right, exists_or, exists_eq_left]
  exact or_comm

end RegexEngine

theorem Covers.mono (h : Covers e flags cells p roots) (hsub : ∀ o, roots' o → roots o) :
    Covers e flags cells p roots' :=
  fun r s d slot hr => h r s d slot (hsub r hr)

theorem Walk.Complete.congr {w : Walk} (h : w.Complete e flags cells p roots)
    (hroots : ∀ o, roots o ↔ roots' o) : w.Complete e flags cells p roots' := by
  have heq : roots = roots' := funext fun o => propext (hroots o)
  exact heq ▸ h

/-- After an advance nothing is visited. -/
theorem Walk.Complete.fresh (flags : Flags) (hv : ctx.visited.Valid)
    (hmarks : ctx.visited.marks.length = e.ownedStates.length)
    (hspent : ctx.advanceEpoch.Spent cells p) :
    Walk.Complete e flags cells p (fun _ => False) ⟨[], [], ctx.advanceEpoch⟩ := by
  have hmarks' : ctx.advanceEpoch.visited.marks.length = e.ownedStates.length :=
    (EpochSet.length_marks_advance _).trans hmarks
  refine ⟨hmarks', hspent, _, .nothing _, fun s _ => ?_, fun t => ?_⟩
  · have hadvance : ctx.advanceEpoch.visited.contains s = false := hv.contains_advance s
    simp [hadvance]
  · simp

namespace RegexEngine

theorem stepCapturing_complete (hP : Records e pos flags P) (ha : ctx.Aligned)
    (hnext : Continues e P rune ctx current) (hv : ctx.visited.Valid)
    (hmarks : ctx.visited.marks.length = e.ownedStates.length) (hspent : ctx.Spent cells q)
    (hq : q < p) (hfits : Fits ctx.captureFrameSlots cells)
    (hcovers : Covers e flags cells p (Roots e current rune)) :
    Walk.Complete e flags cells p (Roots e current rune)
      ⟨[], (e.stepCapturing current rune pos ctx flags).1,
        (e.stepCapturing current rune pos ctx flags).2⟩ := by
  induction current using List.reverseRecOn with
  | nil =>
    refine (Walk.Complete.fresh flags hv hmarks (hspent.advance hq)).congr fun o => ?_
    simp [Roots]
  | append_singleton current t ih =>
    have hleft : ∀ t' ∈ current, t' ∈ current ++ [t] := fun t' => List.mem_append_left _
    have hnext' : Continues e P rune ctx current := fun t' ht' => hnext t' (hleft t' ht')
    have hroots := Roots.append_iff e current t rune
    have hc := ih hnext' (hcovers.mono fun o ho => (hroots o).2 (.inr ho))
    obtain ⟨hsound, hkeeps⟩ := stepCapturing_sound hP ha hnext'
    rcases e.stepCapturing_append current t rune pos ctx flags with ⟨d, hd, hr, heq⟩ | ⟨hno, heq⟩
    · have hroots' : ∀ o, (o = d.next ∨ Roots e current rune o) ↔
          Roots e (current ++ [t]) rune o := by
        intro o
        rw [hroots]
        refine or_congr_left ⟨fun ho => ⟨d, hd, hr, ho.symm⟩, fun ho => ?_⟩
        obtain ⟨d', hd', -, ho⟩ := ho
        rw [Option.some.inj (hd.symm.trans hd'), ho]
      rw [heq]
      refine Walk.Complete.congr ?_ hroots'
      refine addThread_complete hP hsound (fun u hu => ?_) (hkeeps.slots ▸ hfits)
        (hcovers.mono fun o ho => (hroots' o).1 ho) hc
      exact hkeeps.holds (hnext t List.mem_concat_self d u hd hr hu)
    · rw [heq]
      refine hc.congr fun o => ?_
      rw [hroots]
      refine (or_iff_right fun ho => ?_).symm
      obtain ⟨d, hd, hr, -⟩ := ho
      rw [hno d hd] at hr
      cases hr

end RegexEngine

end Complete

end Trieste.Regex
