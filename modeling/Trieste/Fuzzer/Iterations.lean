import Trieste.Fuzzer.Rounds

namespace Trieste
set_option autoImplicit true
open Bindings (Generated)

namespace Event

def attempt : Event A → Option UInt64
  | .attempted seed => some seed
  | _ => none

def retry : Event A → Option UInt64
  | .retried seed => some seed
  | _ => none

end Event

def attempts (events : List (Event A)) : List UInt64 := events.filterMap Event.attempt

def retries (events : List (Event A)) : List UInt64 := events.filterMap Event.retry

@[simp] theorem attempts_append (events more : List (Event A)) :
    attempts (events ++ more) = attempts events ++ attempts more := List.filterMap_append

@[simp] theorem retries_append (events more : List (Event A)) :
    retries (events ++ more) = retries events ++ retries more := List.filterMap_append

def following (seed : UInt64) : Nat → List UInt64
  | 0 => []
  | n + 1 => seed :: following (seed + 1) n

theorem following_append (seed : UInt64) (m n : Nat) :
    following seed m ++ following (seed + UInt64.ofNat m) n = following seed (m + n) := by
  induction m generalizing seed with
  | zero => rw [Nat.zero_add]; exact congrArg (following · n) (UInt64.add_zero seed)
  | succ m ih =>
    have hseed : seed + UInt64.ofNat (m + 1) = seed + 1 + UInt64.ofNat m := by
      rw [UInt64.ofNat_add, UInt64.add_comm (UInt64.ofNat m), ← UInt64.add_assoc]
      rfl
    rw [Nat.succ_add, following, following, List.cons_append, hseed, ih]

theorem mem_following {seed x : UInt64} (hsize : seed.toNat + n ≤ 2 ^ 64) :
    x ∈ following seed n ↔ seed.toNat ≤ x.toNat ∧ x.toNat < seed.toNat + n := by
  induction n generalizing seed with
  | zero =>
    constructor
    · exact fun h => nomatch h
    · exact fun h => absurd h.2 (Nat.not_lt.2 h.1)
  | succ n ih =>
    rw [following, List.mem_cons, ← UInt64.toNat_inj]
    cases n with
    | zero =>
      rw [following]
      simp
      omega
    | succ n =>
      have hnext : (seed + 1).toNat = seed.toNat + 1 := by
        rw [UInt64.toNat_add, UInt64.toNat_one]
        exact Nat.mod_eq_of_lt (by omega)
      rw [ih (by omega), hnext]
      omega

theorem zero_mem_following {seed : UInt64} (h : 2 ^ 64 < seed.toNat + n) :
    0 ∈ following seed n := by
  induction n generalizing seed with
  | zero => exact absurd seed.toNat_lt (Nat.lt_asymm h)
  | succ n ih =>
    by_cases hzero : seed = 0
    · rw [hzero]
      exact List.mem_cons_self
    · apply List.mem_cons_of_mem
      have hnext : (seed + 1).toNat = (seed.toNat + 1) % 2 ^ 64 := UInt64.toNat_add seed 1
      by_cases hlast : seed.toNat + 1 = 2 ^ 64
      · rw [hlast, Nat.mod_self] at hnext
        rw [UInt64.toNat_inj.1 (hnext.trans UInt64.toNat_zero.symm)]
        cases n with
        | zero => exact absurd h (by omega)
        | succ n => exact List.mem_cons_self
      · have hlt := seed.toNat_lt
        rw [Nat.mod_eq_of_lt (by omega)] at hnext
        apply ih
        omega

theorem generated_error (h : generated g = .error stop) : stop ≠ .finished ∧ stop ≠ .failfast := by
  cases g with
  | none => cases h; decide
  | some g =>
    cases g with
    | tree ast => cases h
    | thrown failure => cases h; decide
    | aborted => cases h; decide

theorem generated_aborted (h : generated g = .error .aborted) : g = some .aborted := by
  cases g with
  | none => cases h
  | some g =>
    cases g with
    | tree ast => cases h
    | thrown failure => cases h
    | aborted => rfl

def Tested.AbortsAtZero (t : Tested A) : Prop :=
  ∀ weights seed, t.gen weights seed = some .aborted → seed = 0

namespace Fuzzer
variable {A : Type} {f : Fuzzer} {t : Tested A}

namespace Retries

theorem attempts_eq (h : Retries f t context ast events result) : attempts events = [] := by
  induction h with
  | fresh => rfl
  | exhausted => rfl
  | stopped => rfl
  | again _ _ _ _ ih => exact ih

theorem retries_eq (h : Retries f t context ast events result) :
    retries events = following context.retrySeed (retries events).length := by
  induction h with
  | fresh => rfl
  | exhausted => rfl
  | stopped => rfl
  | again _ _ _ _ ih => exact congrArg _ ih

theorem length_le (h : Retries f t context ast events result) :
    (retries events).length ≤ f.maxRetries - context.retries := by
  induction h with
  | fresh => exact Nat.zero_le _
  | exhausted => exact Nat.zero_le _
  | stopped _ hlt => exact Nat.sub_pos_of_lt hlt
  | again _ hlt _ _ ih =>
    rw [SeedContext.retry, Nat.sub_add_eq] at ih
    exact Nat.add_le_of_le_sub (Nat.sub_pos_of_lt hlt) ih

theorem retries_add (h : Retries f t context ast events (.ok (tree, after))) :
    after.retries = context.retries + (retries events).length := by
  generalize hresult : Except.ok (tree, after) = result at h
  induction h with
  | fresh => cases hresult; rfl
  | exhausted => cases hresult; rfl
  | stopped => cases hresult
  | again _ _ _ _ ih => exact (ih hresult).trans (Nat.succ_add_eq_add_succ _ _)

theorem retrySeed_eq (h : Retries f t context ast events (.ok (tree, after))) :
    after.retrySeed = context.retrySeed + UInt64.ofNat (retries events).length := by
  generalize hresult : Except.ok (tree, after) = result at h
  induction h with
  | fresh => cases hresult; exact (UInt64.add_zero _).symm
  | exhausted => cases hresult; exact (UInt64.add_zero _).symm
  | stopped => cases hresult
  | @again _ _ _ events _ _ _ _ _ ih =>
    rw [ih hresult, SeedContext.retry, UInt64.add_assoc, UInt64.add_comm 1]
    exact congrArg _ (UInt64.ofNat_add _ 1).symm

theorem generated_fresh (h : Retries f t context ast events (.ok (some tree, after)))
    (hgen : generated (t.gen f.tokenWeights context.currentSeed) = .ok ast) :
    generated (t.gen f.tokenWeights after.currentSeed) = .ok tree := by
  generalize hresult : Except.ok (some tree, after) = result at h
  induction h with
  | fresh => cases hresult; exact hgen
  | exhausted => cases hresult
  | stopped => cases hresult
  | again _ _ hnext _ ih => exact ih hnext hresult

theorem mem_currentSeed (h : Retries f t context ast events (.ok (tree, after))) :
    after.currentSeed ∈ [context.currentSeed] ++ retries events := by
  generalize hresult : Except.ok (tree, after) = result at h
  induction h with
  | fresh => cases hresult; exact List.mem_cons_self
  | exhausted => cases hresult; exact List.mem_cons_self
  | stopped => cases hresult
  | again _ _ _ _ ih => exact List.mem_cons_of_mem _ (ih hresult)

theorem aborted (h : Retries f t context ast events (.error .aborted)) (hzero : t.AbortsAtZero) :
    0 ∈ retries events := by
  generalize hresult : Except.error Stop.aborted = result at h
  induction h with
  | fresh => cases hresult
  | exhausted => cases hresult
  | stopped _ _ hgen =>
    cases hresult
    rw [← hzero _ _ (generated_aborted hgen)]
    exact List.mem_singleton_self _
  | again _ _ _ _ ih => exact List.mem_cons_of_mem _ (ih hresult)

theorem error_ne (h : Retries f t context ast events (.error stop)) :
    stop ≠ .finished ∧ stop ≠ .failfast := by
  generalize hresult : Except.error stop = result at h
  induction h with
  | fresh => cases hresult
  | exhausted => cases hresult
  | stopped _ _ hgen => cases hresult; exact generated_error hgen
  | again _ _ _ _ ih => exact ih hresult

end Retries

namespace Checked

theorem attempts_eq (h : Checked f t seed ast events result) : attempts events = [] := by
  cases h <;> rfl

theorem retries_eq (h : Checked f t seed ast events result) : retries events = [] := by
  cases h <;> rfl

theorem error_eq (h : Checked f t seed ast events (.error stop)) :
    stop ≠ .finished ∧ (stop = .aborted → t.gen [] seed = some .aborted) := by
  generalize hresult : Except.error stop = result at h
  cases h with
  | thrown hrun => cases hresult; exact ⟨by decide, nofun⟩
  | passed hrun hok => cases hresult
  | unshown hrun htrace hgen =>
    cases hresult
    exact ⟨(generated_error hgen).1, fun h => generated_aborted (h ▸ hgen)⟩
  | failed hrun hshown =>
    split at hresult
    · cases hresult; exact ⟨by decide, nofun⟩
    · cases hresult

end Checked

namespace Round

theorem attempts_eq (h : Round f t context seed events result) : attempts events = [seed] := by
  cases h with
  | stopped hgen => rfl
  | broken hgen hretries => exact congrArg (seed :: ·) hretries.attempts_eq
  | skipped hgen hretries => exact congrArg (seed :: ·) hretries.attempts_eq
  | checked hgen hretries hcheck =>
    rw [attempts_append, hcheck.attempts_eq, List.append_nil]
    exact congrArg (seed :: ·) hretries.attempts_eq

theorem retries_eq (h : Round f t context seed events result) :
    retries events = following context.retrySeed (retries events).length := by
  cases h with
  | stopped hgen => rfl
  | broken hgen hretries => exact hretries.retries_eq
  | skipped hgen hretries => exact hretries.retries_eq
  | checked hgen hretries hcheck =>
    rw [retries_append, hcheck.retries_eq, List.append_nil]
    exact hretries.retries_eq

theorem retrySeed_eq (h : Round f t context seed events (.ok after)) :
    after.retrySeed = context.retrySeed + UInt64.ofNat (retries events).length := by
  generalize hresult : Except.ok after = result at h
  cases h with
  | stopped hgen => cases hresult
  | broken hgen hretries => cases hresult
  | skipped hgen hretries => cases hresult; exact hretries.retrySeed_eq
  | @checked _ _ _ _ more result hgen hretries hcheck =>
    cases result with
    | error stop => cases hresult
    | ok passed =>
      cases hresult
      rw [retries_append, hcheck.retries_eq, List.append_nil]
      exact hretries.retrySeed_eq

theorem length_le (h : Round f t context seed events result) :
    (retries events).length ≤ f.maxRetries - context.retries := by
  cases h with
  | stopped hgen => exact Nat.zero_le _
  | broken hgen hretries => exact hretries.length_le
  | skipped hgen hretries => exact hretries.length_le
  | checked hgen hretries hcheck =>
    rw [retries_append, hcheck.retries_eq, List.append_nil]
    exact hretries.length_le

theorem retries_add (h : Round f t context seed events (.ok after)) :
    after.retries = context.retries + (retries events).length := by
  generalize hresult : Except.ok after = result at h
  cases h with
  | stopped hgen => cases hresult
  | broken hgen hretries => cases hresult
  | skipped hgen hretries => cases hresult; exact hretries.retries_add
  | @checked _ _ _ _ more result hgen hretries hcheck =>
    cases result with
    | error stop => cases hresult
    | ok passed =>
      cases hresult
      rw [retries_append, hcheck.retries_eq, List.append_nil]
      exact hretries.retries_add

theorem error_ne (h : Round f t context seed events (.error stop)) : stop ≠ .finished := by
  generalize hresult : Except.error stop = result at h
  cases h with
  | stopped hgen => cases hresult; exact (generated_error hgen).1
  | broken hgen hretries => cases hresult; exact hretries.error_ne.1
  | skipped hgen hretries => cases hresult
  | @checked _ _ _ _ more result hgen hretries hcheck =>
    cases result with
    | error stop => cases hresult; exact hcheck.error_eq.1
    | ok passed => cases hresult

/-- Where an iteration aborts, it has used the seed zero. -/
theorem aborted (h : Round f t context seed events (.error .aborted)) (hzero : t.AbortsAtZero) :
    0 ∈ attempts events ++ retries events := by
  rw [h.attempts_eq]
  generalize hresult : Except.error Stop.aborted = result at h
  cases h with
  | stopped hgen =>
    cases hresult
    rw [hzero _ _ (generated_aborted hgen)]
    exact List.mem_cons_self
  | broken hgen hretries =>
    cases hresult
    exact List.mem_append_right _ (hretries.aborted hzero)
  | skipped hgen hretries => cases hresult
  | @checked _ _ _ after more result hgen hretries hcheck =>
    cases result with
    | ok passed => cases hresult
    | error stop =>
      cases hresult
      have hcurrent := hzero _ _ (hcheck.error_eq.2 rfl)
      rw [retries_append, hcheck.retries_eq, List.append_nil, ← hcurrent]
      exact hretries.mem_currentSeed

end Round

namespace Rounds

theorem attempts_prefix (h : Rounds f t context rest events stop) : attempts events <+: rest := by
  induction h with
  | done => exact List.nil_prefix
  | stopped hround =>
    rw [hround.attempts_eq]
    exact List.prefix_append [_] _
  | next hround _ ih =>
    rw [attempts_append, hround.attempts_eq]
    exact (List.prefix_append_right_inj [_]).2 ih

theorem retries_eq (h : Rounds f t context rest events stop) :
    retries events = following context.retrySeed (retries events).length := by
  induction h with
  | done => rfl
  | stopped hround => exact hround.retries_eq
  | next hround _ ih =>
    rw [hround.retrySeed_eq] at ih
    rw [retries_append, List.length_append, ← following_append, ← ih, ← hround.retries_eq]

/-- All retries of a test count. -/
theorem length_le (h : Rounds f t context rest events stop) :
    (retries events).length ≤ f.maxRetries - context.retries := by
  induction h with
  | done => exact Nat.zero_le _
  | stopped hround => exact hround.length_le
  | next hround _ ih =>
    have hle := hround.length_le
    rw [hround.retries_add] at ih
    rw [retries_append, List.length_append]
    omega

theorem aborted (h : Rounds f t context rest events .aborted) (hzero : t.AbortsAtZero) :
    0 ∈ attempts events ++ retries events := by
  generalize hstop : Stop.aborted = stop at h
  induction h with
  | done => cases hstop
  | stopped hround =>
    cases hstop
    exact hround.aborted hzero
  | next hround _ ih =>
    rw [attempts_append, retries_append, List.mem_append, List.mem_append, List.mem_append]
    rcases List.mem_append.1 (ih hstop) with hattempt | hretry
    · exact .inl (.inr hattempt)
    · exact .inr (.inr hretry)

end Rounds

theorem iterations_ok (h : (f.iteration t context seed).2 = .ok after) (rest : List UInt64) :
    f.iterations t context (seed :: rest) =
      ((f.iteration t context seed).1 ++ (f.iterations t after rest).1,
        (f.iterations t after rest).2) := by
  rw [iterations]
  generalize f.iteration t context seed = result at h
  obtain ⟨events, outcome⟩ := result
  cases h
  rfl

theorem iterations_error (h : (f.iteration t context seed).2 = .error stop) (rest : List UInt64) :
    f.iterations t context (seed :: rest) = ((f.iteration t context seed).1, stop) := by
  rw [iterations]
  generalize f.iteration t context seed = result at h
  obtain ⟨events, outcome⟩ := result
  cases h
  rfl

theorem attempted_first (f : Fuzzer) (t : Tested A) (context : SeedContext) (seed : UInt64)
    (rest : List UInt64) : seed ∈ attempts (f.iterations t context (seed :: rest)).1 := by
  have hattempts : attempts (f.iteration t context seed).1 = [seed] :=
    (iteration_round context seed).attempts_eq
  cases hround : (f.iteration t context seed).2 with
  | ok after =>
    rw [iterations_ok hround, attempts_append, hattempts]
    exact List.mem_cons_self
  | error stop =>
    rw [iterations_error hround, hattempts]
    exact List.mem_cons_self

/-- The states of the loop, with the seeds that are left. -/
inductive Reached (f : Fuzzer) (t : Tested A) : SeedContext → List UInt64 → Prop
  | start : Reached f t f.seedContext f.seeds
  | next (hreached : Reached f t context (seed :: rest))
      (hround : (f.iteration t context seed).2 = .ok after) : Reached f t after rest

/-- A call of the generation or of the pass throws or does not return, before the last
iteration. -/
def Interrupted (f : Fuzzer) (t : Tested A) : Prop :=
  ∃ context seed rest stop, Reached f t context (seed :: rest) ∧ rest ≠ [] ∧
    (f.iteration t context seed).2 = .error stop ∧ (stop = .raised ∨ stop = .stuck)

/-- What has been done before a state of the loop. -/
theorem Reached.split (h : Reached f t context rest) :
    ∃ events, attempts events ++ rest = f.seeds ∧
      f.test t = (events ++ (f.iterations t context rest).1, (f.iterations t context rest).2) := by
  induction h with
  | start => exact ⟨[], rfl, rfl⟩
  | @next context seed rest after hreached hround ih =>
    obtain ⟨events, hseeds, htest⟩ := ih
    rw [iterations_ok hround] at htest
    have hattempts : attempts (f.iteration t context seed).1 = [seed] :=
      (iteration_round context seed).attempts_eq
    refine ⟨events ++ (f.iteration t context seed).1, ?_, ?_⟩
    · rw [attempts_append, hattempts, List.append_assoc]
      exact hseeds
    · rw [htest, List.append_assoc]

theorem attempts_complete (h : Reached f t context rest) (hrun : ¬ Interrupted f t) :
    attempts (f.iterations t context rest).1 = rest ∨
      (f.iterations t context rest).2 = .failfast ∨
        (f.iterations t context rest).2 = .aborted := by
  induction rest generalizing context with
  | nil => exact .inl rfl
  | cons seed rest ih =>
    have hattempts : attempts (f.iteration t context seed).1 = [seed] :=
      (iteration_round context seed).attempts_eq
    cases hround : (f.iteration t context seed).2 with
    | ok after =>
      rw [iterations_ok hround, attempts_append, hattempts]
      rcases ih (h.next hround) with hall | hstop
      · exact .inl (congrArg (seed :: ·) hall)
      · exact .inr hstop
    | error stop =>
      rw [iterations_error hround, hattempts]
      by_cases hrest : rest = []
      · exact .inl (hrest ▸ rfl)
      · have hcalls : ¬ (stop = .raised ∨ stop = .stuck) :=
          fun hstop => hrun ⟨context, seed, rest, stop, h, hrest, hround, hstop⟩
        have hend : stop ≠ .finished :=
          Round.error_ne (hround ▸ iteration_round (f := f) (t := t) context seed)
        cases stop with
        | finished => exact absurd rfl hend
        | failfast => exact .inr (.inl rfl)
        | raised => exact absurd (.inl rfl) hcalls
        | aborted => exact .inr (.inr rfl)
        | stuck => exact absurd (.inr rfl) hcalls

theorem Interrupted.stops (h : Interrupted f t) :
    (attempts (f.test t).1).length < f.seeds.length ∧ (f.test t).2 ≠ .failfast := by
  obtain ⟨context, seed, rest, stop, hreached, hrest, hround, hstop⟩ := h
  obtain ⟨events, hseeds, htest⟩ := hreached.split
  have hattempts : attempts (f.iteration t context seed).1 = [seed] :=
    (iteration_round context seed).attempts_eq
  rw [htest, iterations_error hround, ← hseeds, attempts_append, hattempts, List.length_append,
    List.length_append]
  constructor
  · apply Nat.add_lt_add_left
    exact Nat.succ_lt_succ (List.length_pos_of_ne_nil hrest)
  · rcases hstop with rfl | rfl <;> exact nofun

theorem toNat_sum_of_lt (h : f.startSeed.toNat + f.seedCount.toNat < 2 ^ 32) :
    (f.startSeed + f.seedCount).toNat = f.startSeed.toNat + f.seedCount.toNat := by
  rw [UInt32.toNat_add]
  exact Nat.mod_eq_of_lt h

theorem toNat_retrySeed (h : f.startSeed.toNat + f.seedCount.toNat < 2 ^ 32) :
    f.seedContext.retrySeed.toNat = f.startSeed.toNat + f.seedCount.toNat := by
  rw [seedContext, UInt32.toNat_toUInt64, toNat_sum_of_lt h]

theorem length_seeds :
    f.seeds.length = (f.startSeed + f.seedCount).toNat - f.startSeed.toNat := by
  rw [seeds, List.length_map, List.length_range']

theorem lt_size_of_mem (h : i ∈ List.range' f.startSeed.toNat
    ((f.startSeed + f.seedCount).toNat - f.startSeed.toNat)) : i < UInt64.size := by
  obtain ⟨hle, hlt⟩ := List.mem_range'_1.1 h
  have hsum := (f.startSeed + f.seedCount).toNat_lt
  rw [UInt64.size]
  omega

theorem toNat_of_mem_seeds (h : seed ∈ f.seeds) : f.startSeed.toNat ≤ seed.toNat := by
  obtain ⟨i, hi, rfl⟩ := List.mem_map.1 h
  rw [UInt64.toNat_ofNat_of_lt' (lt_size_of_mem hi)]
  exact (List.mem_range'_1.1 hi).1

theorem nodup_seeds : f.seeds.Nodup := by
  apply List.Nodup.map_on _ List.nodup_range'
  intro i hi j hj heq
  have hsize : (UInt64.ofNat i).toNat = (UInt64.ofNat j).toNat := congrArg _ heq
  rwa [UInt64.toNat_ofNat_of_lt' (lt_size_of_mem hi),
    UInt64.toNat_ofNat_of_lt' (lt_size_of_mem hj)] at hsize

/-- The test tries to generate trees from as many seeds as it is asked for, or fewer after a failure
with `failfast`, and no generator gets to the state in which it aborts. -/
structure EveryIteration (f : Fuzzer) (t : Tested A) : Prop where
  attempts : ((attempts (f.test t).1).Nodup ∧
    (Trieste.attempts (f.test t).1).length = f.seedCount.toNat) ∨ (f.test t).2 = .failfast
  alive : ∀ seed ∈ Trieste.attempts (f.test t).1 ++ retries (f.test t).1, ∀ n,
    ∃ rand, Rand.state seed n = some rand ∧ rand ≠ XorOshiro.zero
  runs : (f.test t).2 ≠ .aborted

namespace EveryIteration

theorem zero_not_mem (h : EveryIteration f t) :
    0 ∉ Trieste.attempts (f.test t).1 ++ retries (f.test t).1 := by
  intro hzero
  obtain ⟨rand, hstate, -⟩ := h.alive 0 hzero 0
  rw [Rand.state_zero] at hstate
  cases hstate

theorem sum_lt (h : EveryIteration f t) :
    f.startSeed.toNat + f.seedCount.toNat < 2 ^ 32 := by
  by_contra hge
  have hstart := f.startSeed.toNat_lt
  have hcount := f.seedCount.toNat_lt
  have hsum : (f.startSeed + f.seedCount).toNat = f.startSeed.toNat + f.seedCount.toNat - 2 ^ 32 := by
    rw [UInt32.toNat_add]
    omega
  have hseeds : f.seeds = [] := by
    apply List.eq_nil_of_length_eq_zero
    rw [length_seeds]
    omega
  have htest : f.test t = ([], .finished) := by
    rw [test, testPass, hseeds, iterations]
  rcases h.attempts with ⟨-, hlength⟩ | hstop
  · rw [htest] at hlength
    have hnone : 0 = f.seedCount.toNat := hlength
    omega
  · rw [htest] at hstop
    cases hstop

theorem start_ne_zero (h : EveryIteration f t) : f.seedCount = 0 ∨ f.startSeed ≠ 0 := by
  by_contra hboth
  obtain ⟨hcount, hstart⟩ := not_or.1 hboth
  have hstart : f.startSeed = 0 := not_not.1 hstart
  have hpos : 0 < f.seedCount.toNat :=
    Nat.pos_of_ne_zero fun hz => hcount (UInt32.toNat_inj.1 hz)
  have hseeds : f.seeds = 0 :: (List.range' 1 (f.seedCount.toNat - 1)).map UInt64.ofNat := by
    rw [seeds, toNat_sum_of_lt h.sum_lt, Nat.add_sub_cancel_left, hstart]
    obtain ⟨n, hn⟩ := Nat.exists_eq_succ_of_ne_zero hpos.ne'
    rw [hn]
    rfl
  apply h.zero_not_mem
  apply List.mem_append_left
  rw [test, testPass, hseeds]
  exact attempted_first f t _ 0 _

theorem retries_le (h : EveryIteration f t) :
    f.startSeed.toNat + f.seedCount.toNat + (retries (f.test t).1).length ≤ 2 ^ 64 := by
  by_contra hgt
  apply h.zero_not_mem
  apply List.mem_append_right
  rw [test_rounds.retries_eq]
  apply zero_mem_following
  rw [toNat_retrySeed h.sum_lt]
  exact Nat.lt_of_not_le hgt

theorem not_interrupted (h : EveryIteration f t) : ¬ Interrupted f t := by
  intro hrun
  obtain ⟨hlt, hstop⟩ := hrun.stops
  rcases h.attempts with ⟨-, hlength⟩ | hfail
  · rw [hlength, length_seeds, toNat_sum_of_lt h.sum_lt, Nat.add_sub_cancel_left] at hlt
    exact Nat.lt_irrefl _ hlt
  · exact hstop hfail

end EveryIteration

theorem everyIteration_of (hzero : t.AbortsAtZero)
    (hsum : f.startSeed.toNat + f.seedCount.toNat < 2 ^ 32)
    (hstart : f.seedCount = 0 ∨ f.startSeed ≠ 0)
    (hretries : f.startSeed.toNat + f.seedCount.toNat + (retries (f.test t).1).length ≤ 2 ^ 64)
    (hrun : ¬ Interrupted f t) : EveryIteration f t := by
  have hrounds := test_rounds (f := f) (t := t)
  have hnonzero : 0 ∉ attempts (f.test t).1 ++ retries (f.test t).1 := by
    intro hmem
    rcases hstart with hcount | hstart
    · have hseeds : f.seeds = [] := by
        apply List.eq_nil_of_length_eq_zero
        rw [length_seeds, hcount, UInt32.add_zero, Nat.sub_self]
      rw [test, testPass, hseeds] at hmem
      cases hmem
    · have hpos : 0 < f.startSeed.toNat :=
        Nat.pos_of_ne_zero fun hz => hstart (UInt32.toNat_inj.1 hz)
      rcases List.mem_append.1 hmem with hattempt | hretry
      · have hle := toNat_of_mem_seeds (hrounds.attempts_prefix.subset hattempt)
        exact absurd hle (Nat.not_le.2 hpos)
      · rw [hrounds.retries_eq] at hretry
        rw [← toNat_retrySeed hsum] at hretries
        have hle := ((mem_following hretries).1 hretry).1
        rw [toNat_retrySeed hsum] at hle
        exact absurd (Nat.le_trans (Nat.le_add_right _ _) hle) (Nat.not_le.2 hpos)
  have hruns : (f.test t).2 ≠ .aborted :=
    fun hstop => hnonzero ((hstop ▸ hrounds).aborted hzero)
  refine ⟨?_, fun seed hseed n => ?_, hruns⟩
  · rcases attempts_complete .start hrun with hall | hfail | hstop
    · left
      have hattempts : attempts (f.test t).1 = f.seeds := hall
      rw [hattempts, length_seeds, toNat_sum_of_lt hsum, Nat.add_sub_cancel_left]
      exact ⟨nodup_seeds, rfl⟩
    · exact .inr hfail
    · exact absurd hstop hruns
  · have hne : seed ≠ 0 := fun hz => hnonzero (hz ▸ hseed)
    exact ⟨_, Rand.state_eq hne n⟩

def tested (f : Fuzzer) (wf : Bindings.Wellformed) (gloc : Bindings.Generator.FreshLocations)
    (fuel : Nat) (hash : Bindings.Scopes → UInt64)
    (runPass : Bindings.Scopes → Option (Bindings.Scopes × RunResult)) (tracing : Bool) :
    Tested Bindings.Scopes where
  gen := f.gen wf gloc fuel
  hash
  runPass
  tracing

theorem tested_aborts (f : Fuzzer) (wf : Bindings.Wellformed)
    (gloc : Bindings.Generator.FreshLocations) (fuel : Nat) (hash : Bindings.Scopes → UInt64)
    (runPass : Bindings.Scopes → Option (Bindings.Scopes × RunResult)) (tracing : Bool) :
    (f.tested wf gloc fuel hash runPass tracing).AbortsAtZero :=
  fun _ _ h => Bindings.Wellformed.gen_aborted h

/-- The test does all that it is asked for where the sum of the first seed and their number has 32
bits, no seed is zero, and no call throws. -/
theorem every_iteration_iff (f : Fuzzer) (wf : Bindings.Wellformed)
    (gloc : Bindings.Generator.FreshLocations) (fuel : Nat) (hash : Bindings.Scopes → UInt64)
    (runPass : Bindings.Scopes → Option (Bindings.Scopes × RunResult)) (tracing : Bool) :
    EveryIteration f (f.tested wf gloc fuel hash runPass tracing) ↔
      f.startSeed.toNat + f.seedCount.toNat < 2 ^ 32 ∧
        (f.seedCount = 0 ∨ f.startSeed ≠ 0) ∧
        f.startSeed.toNat + f.seedCount.toNat +
          (retries (f.test (f.tested wf gloc fuel hash runPass tracing)).1).length ≤ 2 ^ 64 ∧
        ¬ Interrupted f (f.tested wf gloc fuel hash runPass tracing) := by
  constructor
  · intro h
    exact ⟨h.sum_lt, h.start_ne_zero, h.retries_le, h.not_interrupted⟩
  · rintro ⟨hsum, hstart, hretries, hrun⟩
    exact everyIteration_of (tested_aborts f wf gloc fuel hash runPass tracing) hsum hstart hretries hrun

/-- The retries do not wrap around for any limit up to 2^64 - 2^32. -/
theorem every_iteration_of_maxRetries (f : Fuzzer) (wf : Bindings.Wellformed)
    (gloc : Bindings.Generator.FreshLocations) (fuel : Nat) (hash : Bindings.Scopes → UInt64)
    (runPass : Bindings.Scopes → Option (Bindings.Scopes × RunResult)) (tracing : Bool)
    (hmax : f.maxRetries ≤ 2 ^ 64 - 2 ^ 32) :
    EveryIteration f (f.tested wf gloc fuel hash runPass tracing) ↔
      f.startSeed.toNat + f.seedCount.toNat < 2 ^ 32 ∧ (f.seedCount = 0 ∨ f.startSeed ≠ 0) ∧
        ¬ Interrupted f (f.tested wf gloc fuel hash runPass tracing) := by
  constructor
  · intro h
    exact ⟨h.sum_lt, h.start_ne_zero, h.not_interrupted⟩
  · rintro ⟨hsum, hstart, hrun⟩
    have hle := (test_rounds (f := f) (t := f.tested wf gloc fuel hash runPass tracing)).length_le
    have haborts := tested_aborts f wf gloc fuel hash runPass tracing
    exact everyIteration_of haborts hsum hstart (by omega) hrun

/-- A seed whose successor has no 32 bits, and the seed zero. -/
theorem iterations_missed :
    ¬ EveryIteration { startSeed := 4294967295, seedCount := 1 }
        (tested { startSeed := 4294967295, seedCount := 1 } { shapes := [], distinct := .nil }
          (fun _ _ _ i => ({}, i)) 1 (fun _ => 0) (fun ast => some (ast, .ok)) false) ∧
      ¬ EveryIteration { startSeed := 0, seedCount := 1 }
        (tested { startSeed := 0, seedCount := 1 } { shapes := [], distinct := .nil }
          (fun _ _ _ i => ({}, i)) 1 (fun _ => 0) (fun ast => some (ast, .ok)) false) := by
  constructor
  · exact fun h => absurd h.sum_lt (by decide)
  · exact fun h => absurd h.start_ne_zero (by decide)

end Fuzzer

end Trieste
