import Trieste.Regex.Compiled

namespace Trieste.Regex
set_option autoImplicit true
open Library Relation

namespace MatchContext

theorem bindEngine_valid {ctx : MatchContext} (h : ctx.visited.Valid) (engine stateCount : Nat) :
    (ctx.bindEngine engine stateCount).visited.Valid := by
  simp only [bindEngine]
  split
  · exact .fresh stateCount
  · unfold ensureVisitedCapacity
    split
    · exact ⟨fun m hm => (List.eq_of_mem_replicate hm).trans_le (Nat.zero_le _), h.epoch⟩
    · exact h

theorem clearVisited_valid {ctx : MatchContext} (h : ctx.visited.Valid) :
    ctx.clearVisited.visited.Valid := by
  unfold clearVisited
  split
  · exact h
  · exact h.advance

theorem alreadyVisited_valid {ctx : MatchContext} (h : ctx.visited.Valid) (s : State) :
    (ctx.alreadyVisited s).2.visited.Valid := by
  unfold alreadyVisited
  split
  · exact h
  · split
    · exact h
    · exact h.insert s

theorem cloneCaptureFrame_visited (ctx : MatchContext) (frame : Nat) :
    (ctx.cloneCaptureFrame frame).2.visited = ctx.visited := by
  unfold cloneCaptureFrame
  split <;> rfl

theorem allocateCaptureFrame_visited (ctx : MatchContext) :
    ctx.allocateCaptureFrame.2.visited = ctx.visited := by
  unfold allocateCaptureFrame
  split <;> rfl

theorem bindEngine_marks (ctx : MatchContext) (self stateCount : Nat) :
    (ctx.bindEngine self stateCount).visited.marks.length = stateCount := by
  simp only [bindEngine]
  split
  · exact List.length_replicate ..
  · unfold ensureVisitedCapacity
    split
    · exact List.length_replicate ..
    · next h => exact Decidable.not_not.1 h

end MatchContext

namespace RegexEngine
variable {ctx : MatchContext}

theorem valid_of_eq {result : β × MatchContext} (heq : result = (b, ctx))
    (h : result.2.visited.Valid) : ctx.visited.Valid := by
  subst heq
  exact h

theorem addTerminal_valid {acc : List State × MatchContext} (h : acc.2.visited.Valid) (t : State) :
    (addTerminal acc t).2.visited.Valid := by
  have hv := MatchContext.alreadyVisited_valid h t
  unfold addTerminal
  split
  · next heq => exact valid_of_eq heq hv
  · next heq => exact valid_of_eq heq hv

theorem foldl_valid {f : β × MatchContext → α → β × MatchContext}
    (hf : ∀ acc a, acc.2.visited.Valid → (f acc a).2.visited.Valid) (l : List α)
    {acc : β × MatchContext} (h : acc.2.visited.Valid) : (l.foldl f acc).2.visited.Valid := by
  induction l generalizing acc with
  | nil => exact h
  | cons a l ih => exact ih (hf acc a h)

theorem addState_valid (e : RegexEngine) (states : List State) (s : Option State)
    (h : ctx.visited.Valid) (flags : Flags) :
    (e.addState states s ctx flags).2.visited.Valid := by
  unfold addState
  split
  · exact h
  · split
    · exact addTerminal_valid h _
    · exact foldl_valid (fun _ t ha => addTerminal_valid ha t) _ h

theorem startList_valid (e : RegexEngine) (h : ctx.visited.Valid) (flags : Flags) :
    (e.startList ctx flags).2.visited.Valid :=
  e.addState_valid _ _ (MatchContext.clearVisited_valid h) flags

theorem step_valid (e : RegexEngine) (current : List State) (rune : Nat) (h : ctx.visited.Valid)
    (flags : Flags) : (e.step current rune ctx flags).2.visited.Valid := by
  refine foldl_valid (fun acc s ha => ?_) current (MatchContext.clearVisited_valid h)
  unfold stepState
  split
  · exact ha
  · split
    · exact e.addState_valid _ _ ha flags
    · exact ha

theorem prefixLoop_valid (e : RegexEngine) (s : List UInt8) (fuel : Nat) (current : List State)
    (pos : Nat) (next : Option (Nat × Nat)) (prevIsWord : Bool) (best : Option Nat)
    (h : ctx.visited.Valid) :
    (e.prefixLoop s fuel current ctx pos next prevIsWord best).2.visited.Valid := by
  induction fuel generalizing current ctx pos next prevIsWord best with
  | zero => exact h
  | succ fuel ih =>
    cases next with
    | none => exact h
    | some next =>
      unfold prefixLoop
      split
      · exact h
      · exact ih _ _ _ _ _ (e.step_valid current next.1 h _)

theorem findPrefixNoncapturing_valid (e : RegexEngine) (self : Nat) (s : List UInt8)
    (h : ctx.visited.Valid) (atStart prevIsWord : Bool) :
    (e.findPrefixNoncapturing self s ctx atStart prevIsWord).2.visited.Valid := by
  have hb := MatchContext.bindEngine_valid h self e.stateCount
  unfold findPrefixNoncapturing
  split
  · exact hb
  · exact e.prefixLoop_valid _ _ _ _ _ _ _ (e.startList_valid hb _)

theorem captureNext_visited (d : StateDef) (frame slot pos : Nat) (ctx : MatchContext) :
    (captureNext d frame slot pos ctx).2.visited = ctx.visited := by
  have hc := ctx.cloneCaptureFrame_visited frame
  unfold captureNext
  split
  · next heq => rwa [heq] at hc
  · next heq =>
    rw [heq] at hc
    exact hc

theorem addStateCapturing_valid (e : RegexEngine) (pos : Nat) (flags : Flags) (fuel : Nat)
    (stack : List (Option State × Nat)) (threads : List Thread) (h : ctx.visited.Valid) :
    (e.addStateCapturing pos flags fuel stack threads ctx).2.visited.Valid := by
  induction fuel generalizing stack threads ctx with
  | zero => exact h
  | succ fuel ih =>
    match stack with
    | [] => exact h
    | (none, _) :: stack => exact ih stack threads h
    | (some s, frame) :: stack =>
      have hcapture : ∀ d frame slot, (captureNext d frame slot pos
          (ctx.markVisited s)).2.visited.Valid := fun d frame slot => by
        rw [captureNext_visited]
        exact h.insert s
      unfold addStateCapturing
      split
      · exact ih stack threads h
      · split
        · exact ih stack threads h
        · dsimp only
          split
          · exact ih _ threads (hcapture ..)
          · split
            · exact ih _ threads (hcapture ..)
            · split
              · exact ih _ threads (h.insert s)
              · exact ih stack _ (h.insert s)

theorem stepCapturing_valid (e : RegexEngine) (current : List Thread) (rune pos : Nat)
    (h : ctx.visited.Valid) (flags : Flags) :
    (e.stepCapturing current rune pos ctx flags).2.visited.Valid := by
  refine foldl_valid (fun acc t ha => ?_) current h.advance
  split
  · exact ha
  · split
    · exact e.addStateCapturing_valid pos flags _ _ _ ha
    · exact ha

theorem capturingLoop_valid (e : RegexEngine) (s : List UInt8) (fuel : Nat) (current : List Thread)
    (pos : Nat) (next : Option (Nat × Nat)) (prevIsWord : Bool) (best : Option (Nat × Nat))
    (h : ctx.visited.Valid) :
    (e.capturingLoop s fuel current ctx pos next prevIsWord best).2.visited.Valid := by
  induction fuel generalizing current ctx pos next prevIsWord best with
  | zero => exact h
  | succ fuel ih =>
    cases next with
    | none => exact h
    | some next =>
      unfold capturingLoop
      split
      · exact h
      · exact ih _ _ _ _ _ (e.stepCapturing_valid current next.1 _ h _)

theorem findPrefixWithContext_valid (e : RegexEngine) (self : Nat) (s : List UInt8)
    (h : ctx.visited.Valid) (atStart prevIsWord : Bool) :
    (e.findPrefixWithContext self s ctx atStart prevIsWord).2.2.visited.Valid := by
  have hb := MatchContext.bindEngine_valid h self e.stateCount
  unfold findPrefixWithContext
  dsimp only
  split
  · exact e.findPrefixNoncapturing_valid self s hb atStart prevIsWord
  · have ha := MatchContext.allocateCaptureFrame_visited
      ((ctx.bindEngine self e.stateCount).resetCaptureFrames (2 * e.numCaptures))
    split
    · next heq =>
      rw [heq] at ha
      exact ha ▸ hb
    · next frame ctx' heq =>
      rw [heq] at ha
      have hv : ctx'.visited.Valid := ha ▸ hb
      have hv' : ctx'.advanceEpoch.visited.Valid := hv.advance
      have hadd := e.addStateCapturing_valid 0
        (capturingFlags s 0 prevIsWord ((nextRune s 0).any fun r => isWordChar r.1) atStart)
        (2 * e.ownedStates.length + 1) [(some e.startState, frame)] [] hv'
      split
      · next hl => exact valid_of_eq hl (e.capturingLoop_valid s _ _ _ _ _ _ hadd)
      · next hl => exact valid_of_eq hl (e.capturingLoop_valid s _ _ _ _ _ _ hadd)

end RegexEngine

theorem MatchContext.LeftOver.valid (h : LeftOver ctx) : ctx.visited.Valid := by
  induction h with
  | fresh => exact .fresh 0
  | findPrefix _ e self s atStart ih => exact e.findPrefixNoncapturing_valid self s ih atStart false
  | findPrefixWithContext _ e self s atStart prevIsWord ih =>
    exact e.findPrefixWithContext_valid self s ih atStart prevIsWord

end Trieste.Regex
