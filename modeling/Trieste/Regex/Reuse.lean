import Trieste.Regex.Prefix

namespace Trieste.Regex
set_option autoImplicit true
open Library Relation

/-- Contexts that a capturing call does not tell apart. -/
structure MatchContext.Alike (ctx ctx' : MatchContext) : Prop where
  visited : ctx.visited.Same ctx'.visited
  frames : ctx.captureFrames = ctx'.captureFrames
  slots : ctx.captureFrameSlots = ctx'.captureFrameSlots

def SameResult (r r' : β × MatchContext) : Prop := r.1 = r'.1 ∧ r.2.Alike r'.2

namespace MatchContext.Alike
variable {ctx ctx' : MatchContext}

theorem advanceEpoch (h : ctx.Alike ctx') : ctx.advanceEpoch.Alike ctx'.advanceEpoch :=
  ⟨h.visited.valid.same_advance h.visited.valid' h.visited.length, h.frames, h.slots⟩

theorem markVisited (h : ctx.Alike ctx') (s : State) :
    (ctx.markVisited s).Alike (ctx'.markVisited s) :=
  ⟨h.visited.insert s, h.frames, h.slots⟩

theorem setCapture (h : ctx.Alike ctx') (frame slot pos : Nat) :
    (ctx.setCapture frame slot pos).Alike (ctx'.setCapture frame slot pos) := by
  refine ⟨h.visited, ?_, h.slots⟩
  simp only [MatchContext.setCapture, h.frames, h.slots]

theorem captureFrame (h : ctx.Alike ctx') (frame : Nat) :
    ctx.captureFrame frame = ctx'.captureFrame frame := by
  simp only [MatchContext.captureFrame, h.frames, h.slots]

theorem cloneCaptureFrame (h : ctx.Alike ctx') (frame : Nat) :
    SameResult (ctx.cloneCaptureFrame frame) (ctx'.cloneCaptureFrame frame) := by
  unfold MatchContext.cloneCaptureFrame
  rw [h.frames, h.slots, h.captureFrame]
  split
  · exact ⟨rfl, h⟩
  · exact ⟨rfl, h.visited, rfl, rfl⟩

end MatchContext.Alike

namespace RegexEngine
variable {ctx ctx' : MatchContext}

theorem captureNext_alike (d : StateDef) (frame slot pos : Nat) (h : ctx.Alike ctx') :
    SameResult (captureNext d frame slot pos ctx) (captureNext d frame slot pos ctx') := by
  have hclone := h.cloneCaptureFrame frame
  unfold captureNext
  generalize ctx.cloneCaptureFrame frame = r at hclone
  generalize ctx'.cloneCaptureFrame frame = r' at hclone
  obtain ⟨copy, c⟩ := r
  obtain ⟨copy', c'⟩ := r'
  obtain ⟨heq, halike⟩ := hclone
  cases heq
  cases copy with
  | none => exact ⟨rfl, halike⟩
  | some copy => exact ⟨rfl, halike.setCapture copy slot pos⟩

theorem addStateCapturing_alike (e : RegexEngine) (pos : Nat) (flags : Flags) (fuel : Nat)
    (stack : List (Option State × Nat)) (threads : List Thread) (h : ctx.Alike ctx') :
    SameResult (e.addStateCapturing pos flags fuel stack threads ctx)
      (e.addStateCapturing pos flags fuel stack threads ctx') := by
  induction fuel generalizing stack threads ctx ctx' with
  | zero => exact ⟨rfl, h⟩
  | succ fuel ih =>
    rcases stack with _ | ⟨⟨s, frame⟩, stack⟩
    · exact ⟨rfl, h⟩
    · cases s with
      | none => exact ih stack threads h
      | some s =>
        have hmarked := h.markVisited s
        have hcapture : ∀ d slot, SameResult
            (addStateCapturing e pos flags fuel
              ((captureNext d frame slot pos (ctx.markVisited s)).1 ++ stack) threads
              (captureNext d frame slot pos (ctx.markVisited s)).2)
            (addStateCapturing e pos flags fuel
              ((captureNext d frame slot pos (ctx'.markVisited s)).1 ++ stack) threads
              (captureNext d frame slot pos (ctx'.markVisited s)).2) := by
          intro d slot
          obtain ⟨heq, halike⟩ := captureNext_alike d frame slot pos hmarked
          rw [heq]
          exact ih _ threads halike
        unfold addStateCapturing
        rw [h.visited.contains]
        split
        · exact ih stack threads h
        · next d _ =>
          split
          · exact ih stack threads h
          · dsimp only
            split
            · exact hcapture d _
            · split
              · exact hcapture d _
              · split
                · exact ih _ threads hmarked
                · exact ih stack _ hmarked

theorem stepCapturing_alike (e : RegexEngine) (current : List Thread) (rune pos : Nat)
    (flags : Flags) (h : ctx.Alike ctx') :
    SameResult (e.stepCapturing current rune pos ctx flags)
      (e.stepCapturing current rune pos ctx' flags) := by
  unfold stepCapturing
  apply List.foldl_rel (r := SameResult)
  · exact ⟨rfl, h.advanceEpoch⟩
  · intro t _ acc acc' hacc
    obtain ⟨heq, halike⟩ := hacc
    split
    · exact ⟨heq, halike⟩
    · split
      · rw [heq]
        exact e.addStateCapturing_alike pos flags _ _ _ halike
      · exact ⟨heq, halike⟩

theorem capturingLoop_alike (e : RegexEngine) (s : List UInt8) (fuel : Nat)
    (current : List Thread) (pos : Nat) (next : Option (Nat × Nat)) (prevIsWord : Bool)
    (best : Option (Nat × Nat)) (h : ctx.Alike ctx') :
    SameResult (e.capturingLoop s fuel current ctx pos next prevIsWord best)
      (e.capturingLoop s fuel current ctx' pos next prevIsWord best) := by
  induction fuel generalizing current ctx ctx' pos next prevIsWord best with
  | zero => exact ⟨rfl, h⟩
  | succ fuel ih =>
    cases next with
    | none => exact ⟨rfl, h⟩
    | some next =>
      obtain ⟨rune, bytes⟩ := next
      unfold capturingLoop
      dsimp only
      split
      · exact ⟨rfl, h⟩
      · obtain ⟨heq, halike⟩ := e.stepCapturing_alike current rune (pos + bytes)
          (capturingFlags s (pos + bytes) prevIsWord
            ((nextRune s (pos + bytes)).any fun r => isWordChar r.1) false) h
        rw [heq]
        exact ih _ _ _ _ _ halike

end RegexEngine

theorem MatchContext.allocateCaptureFrame_reset (ctx : MatchContext) (slots : Nat) :
    (ctx.resetCaptureFrames slots).allocateCaptureFrame =
      if maxCaptureFrameEntries < slots then (none, ctx.resetCaptureFrames slots)
      else (some 0, { ctx.resetCaptureFrames slots with
        captureFrames := List.replicate slots none }) := by
  simp only [allocateCaptureFrame, resetCaptureFrames, List.length_nil, Nat.zero_add, Nat.zero_div,
    List.nil_append]

theorem findPrefixWithContext_reuse {e : RegexEngine} (hready : e.Ready classes)
    {ctx ctx' : MatchContext} (h : ctx.visited.Valid) (h' : ctx'.visited.Valid) (self : Nat)
    (s : List UInt8) (atStart : Bool) :
    (e.findPrefixWithContext self s ctx atStart false).1 =
        (e.findPrefixWithContext self s ctx' atStart false).1 ∧
      (e.findPrefixWithContext self s ctx atStart false).2.1 =
        (e.findPrefixWithContext self s ctx' atStart false).2.1 := by
  have hv := MatchContext.bindEngine_valid h self e.stateCount
  have hv' := MatchContext.bindEngine_valid h' self e.stateCount
  have hmarks := (ctx.bindEngine_marks self e.stateCount).trans
    (ctx'.bindEngine_marks self e.stateCount).symm
  unfold RegexEngine.findPrefixWithContext
  dsimp only
  by_cases hplain : (!e.ok || e.numCaptures == 0) = true
  · rw [if_pos hplain, if_pos hplain]
    have hx := Input.shows_ofText classes s atStart
    exact ⟨(findPrefixNoncapturing_best hready rfl hx hv self).unique
      (findPrefixNoncapturing_best hready rfl hx hv' self), rfl⟩
  · rw [if_neg hplain, if_neg hplain, MatchContext.allocateCaptureFrame_reset,
      MatchContext.allocateCaptureFrame_reset]
    by_cases hslots : maxCaptureFrameEntries < 2 * e.numCaptures
    · rw [if_pos hslots, if_pos hslots]
      exact ⟨rfl, rfl⟩
    · rw [if_neg hslots, if_neg hslots]
      dsimp only
      generalize hc : MatchContext.advanceEpoch _ = c
      generalize hc' : MatchContext.advanceEpoch _ = c'
      have halike : c.Alike c' := by
        subst hc hc'
        exact ⟨hv.same_advance hv' hmarks, rfl, rfl⟩
      have hthreads : SameResult
          (e.addThread [] (some e.startState) 0 0 c
            (RegexEngine.capturingFlags s 0 false ((nextRune s 0).any fun r => isWordChar r.1) atStart))
          (e.addThread [] (some e.startState) 0 0 c'
            (RegexEngine.capturingFlags s 0 false ((nextRune s 0).any fun r => isWordChar r.1)
              atStart)) := e.addStateCapturing_alike 0 _ _ _ _ halike
      generalize e.addThread [] (some e.startState) 0 0 c _ = r at hthreads ⊢
      generalize e.addThread [] (some e.startState) 0 0 c' _ = r' at hthreads ⊢
      obtain ⟨threads, d⟩ := r
      obtain ⟨threads', d'⟩ := r'
      obtain ⟨heq, halike⟩ := hthreads
      cases heq
      have hloop := e.capturingLoop_alike s s.length threads 0 (nextRune s 0)
        ((nextRune s 0).any fun r => isWordChar r.1)
        ((RegexEngine.acceptedFrame threads).map (0, ·)) halike
      dsimp only
      generalize e.capturingLoop s s.length threads d _ _ _ _ = r at hloop ⊢
      generalize e.capturingLoop s s.length threads d' _ _ _ _ = r' at hloop ⊢
      obtain ⟨best, d⟩ := r
      obtain ⟨best', d'⟩ := r'
      obtain ⟨heq, halike⟩ := hloop
      cases heq
      cases best with
      | none => exact ⟨rfl, rfl⟩
      | some best => exact ⟨rfl, congrArg e.readCaptures (halike.captureFrame best.2)⟩

end Trieste.Regex
