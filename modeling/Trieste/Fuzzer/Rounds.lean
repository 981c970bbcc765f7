import Trieste.Fuzzer

namespace Trieste
set_option autoImplicit true
open Bindings (Generated)

def Tested.Shows (t : Tested A) (seed : UInt64) (ast shown : A) : Prop :=
  if t.tracing then shown = ast else generated (t.gen [] seed) = .ok shown

namespace Fuzzer
variable {A : Type} {f : Fuzzer} {t : Tested A}

/-- How the retries from a context and a tree go. -/
inductive Retries (f : Fuzzer) (t : Tested A) :
    SeedContext → A → List (Event A) → Except Stop (Option A × SeedContext) → Prop
  | fresh (hnew : t.hash ast ∉ context.astHashes) :
    Retries f t context ast [] (.ok (some ast, context.insert (t.hash ast)))
  | exhausted (hold : t.hash ast ∈ context.astHashes) (hmax : f.maxRetries ≤ context.retries) :
    Retries f t context ast [] (.ok (none, context))
  | stopped (hold : t.hash ast ∈ context.astHashes) (hlt : context.retries < f.maxRetries)
      (hgen : generated (t.gen f.tokenWeights context.retrySeed) = .error stop) :
    Retries f t context ast [.retried context.retrySeed] (.error stop)
  | again (hold : t.hash ast ∈ context.astHashes) (hlt : context.retries < f.maxRetries)
      (hgen : generated (t.gen f.tokenWeights context.retrySeed) = .ok next)
      (hrest : Retries f t context.retry next events fresh) :
    Retries f t context ast (.retried context.retrySeed :: events) fresh

/-- How a tree is checked. -/
inductive Checked (f : Fuzzer) (t : Tested A) (seed : UInt64) (ast : A) :
    List (Event A) → Except Stop Unit → Prop
  | thrown (hrun : t.runPass ast = none) : Checked f t seed ast [.ran seed ast] (.error .raised)
  | passed (hrun : t.runPass ast = some (newAst, result)) (hok : result ≠ .fail) :
    Checked f t seed ast [.ran seed ast] (.ok ())
  | unshown (hrun : t.runPass ast = some (newAst, .fail)) (htrace : t.tracing = false)
      (hgen : generated (t.gen [] seed) = .error stop) :
    Checked f t seed ast [.ran seed ast, .reported seed none newAst] (.error stop)
  | failed (hrun : t.runPass ast = some (newAst, .fail)) (hshown : t.Shows seed ast shown) :
    Checked f t seed ast [.ran seed ast, .reported seed (some shown) newAst]
      (if f.failfast then .error .failfast else .ok ())

/-- How an iteration goes. -/
inductive Round (f : Fuzzer) (t : Tested A) (context : SeedContext) (seed : UInt64) :
    List (Event A) → Except Stop SeedContext → Prop
  | stopped (hgen : generated (t.gen f.tokenWeights seed) = .error stop) :
    Round f t context seed [.attempted seed] (.error stop)
  | broken (hgen : generated (t.gen f.tokenWeights seed) = .ok ast)
      (hretries : Retries f t { context with currentSeed := seed } ast events (.error stop)) :
    Round f t context seed (.attempted seed :: events) (.error stop)
  | skipped (hgen : generated (t.gen f.tokenWeights seed) = .ok ast)
      (hretries : Retries f t { context with currentSeed := seed } ast events
        (.ok (none, after))) :
    Round f t context seed (.attempted seed :: events) (.ok after)
  | checked (hgen : generated (t.gen f.tokenWeights seed) = .ok ast)
      (hretries : Retries f t { context with currentSeed := seed } ast events
        (.ok (some fresh, after)))
      (hcheck : Checked f t after.currentSeed fresh more result) :
    Round f t context seed (.attempted seed :: events ++ more) (result.map fun _ => after)

/-- How the loop goes. -/
inductive Rounds (f : Fuzzer) (t : Tested A) :
    SeedContext → List UInt64 → List (Event A) → Stop → Prop
  | done : Rounds f t context [] [] .finished
  | stopped (hround : Round f t context seed events (.error stop)) :
    Rounds f t context (seed :: rest) events stop
  | next (hround : Round f t context seed events (.ok after))
      (hrest : Rounds f t after rest more stop) :
    Rounds f t context (seed :: rest) (events ++ more) stop

theorem retry_retries (context : SeedContext) (ast : A)
    (hleft : left = f.maxRetries - context.retries) :
    Retries f t context ast (f.retry t left context ast).1 (f.retry t left context ast).2 := by
  induction left generalizing context ast with
  | zero =>
    rw [retry]
    split
    · next hold => exact .exhausted hold (Nat.sub_eq_zero_iff_le.1 hleft.symm)
    · next hnew => exact .fresh hnew
  | succ left ih =>
    have hlt : context.retries < f.maxRetries :=
      Nat.lt_of_sub_pos (hleft ▸ Nat.succ_pos left)
    rw [retry]
    split
    · next hold =>
      cases hgen : generated (t.gen f.tokenWeights context.retrySeed) with
      | error stop => exact .stopped hold hlt hgen
      | ok next =>
        apply Retries.again hold hlt hgen
        apply ih
        rw [SeedContext.retry, Nat.sub_add_eq, ← hleft, Nat.add_sub_cancel]
    · next hnew => exact .fresh hnew

theorem checkPass_checked (seed : UInt64) (ast : A) :
    Checked f t seed ast (f.checkPass t seed ast).1 (f.checkPass t seed ast).2 := by
  cases hrun : t.runPass ast with
  | none =>
    simp only [checkPass, hrun]
    exact .thrown hrun
  | some result =>
    obtain ⟨newAst, result⟩ := result
    cases result with
    | ok =>
      simp only [checkPass, hrun]
      exact .passed hrun nofun
    | error =>
      simp only [checkPass, hrun]
      exact .passed hrun nofun
    | fail =>
      simp only [checkPass, hrun, report]
      by_cases htrace : t.tracing = true
      · simp only [if_pos htrace]
        apply Checked.failed hrun
        rw [Tested.Shows, if_pos htrace]
      · simp only [if_neg htrace]
        cases hgen : generated (t.gen [] seed) with
        | error stop => exact .unshown hrun (Bool.eq_false_iff.2 htrace) hgen
        | ok shown =>
          apply Checked.failed hrun
          rwa [Tested.Shows, if_neg htrace]

theorem iteration_round (context : SeedContext) (seed : UInt64) :
    Round f t context seed (f.iteration t context seed).1 (f.iteration t context seed).2 := by
  cases hgen : generated (t.gen f.tokenWeights seed) with
  | error stop =>
    simp only [iteration, genFreshAst, hgen]
    exact .stopped hgen
  | ok ast =>
    have hretries := retry_retries (f := f) (t := t) { context with currentSeed := seed } ast rfl
    simp only [iteration, genFreshAst, hgen]
    generalize f.retry t _ _ ast = result at hretries
    obtain ⟨events, fresh⟩ := result
    cases fresh with
    | error stop => exact .broken hgen hretries
    | ok fresh =>
      obtain ⟨fresh, after⟩ := fresh
      cases fresh with
      | none => exact .skipped hgen hretries
      | some fresh => exact .checked hgen hretries (checkPass_checked _ _)

theorem iterations_rounds (context : SeedContext) (seeds : List UInt64) :
    Rounds f t context seeds (f.iterations t context seeds).1
      (f.iterations t context seeds).2 := by
  induction seeds generalizing context with
  | nil => exact .done
  | cons seed seeds ih =>
    have hround := iteration_round (f := f) (t := t) context seed
    rw [iterations]
    generalize f.iteration t context seed = result at hround
    obtain ⟨events, outcome⟩ := result
    cases outcome with
    | error stop => exact .stopped hround
    | ok after => exact .next hround (ih after)

theorem test_rounds : Rounds f t f.seedContext f.seeds (f.test t).1 (f.test t).2 :=
  iterations_rounds _ _

end Fuzzer

end Trieste
