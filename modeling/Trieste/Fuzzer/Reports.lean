import Trieste.Fuzzer.Iterations

namespace Trieste
set_option autoImplicit true
open Bindings (Generated)

def Event.tree : Event A → Option A
  | .ran _ ast => some ast
  | _ => none

def runTrees (events : List (Event A)) : List A := events.filterMap Event.tree

theorem generated_eq_ok : generated g = .ok ast ↔ g = some (.tree ast) := by
  constructor
  · intro h
    cases g with
    | none => cases h
    | some g =>
      cases g with
      | tree ast => cases h; rfl
      | thrown failure => cases h
      | aborted => cases h
  · rintro rfl
    rfl

namespace Fuzzer
variable {A : Type} {f : Fuzzer} {t : Tested A}

/-- A report follows the run of the pass on the tree of its seed. It shows this tree where the trees
are printed anyway, or where the weights make no difference. -/
def Reported (f : Fuzzer) (t : Tested A) (seed : UInt64) (shown : Option A) (newAst ast : A)
    (events : List (Event A)) : Prop :=
  [.ran seed ast, .reported seed shown newAst] <:+: events ∧
    t.gen f.tokenWeights seed = some (.tree ast) ∧
    (shown = some ast ↔ t.tracing = true ∨ t.gen [] seed = some (.tree ast))

theorem Reported.mono (h : Reported f t seed shown newAst ast events) (hin : events <:+: all) :
    Reported f t seed shown newAst ast all :=
  ⟨h.1.trans hin, h.2⟩

theorem shown_iff (h : t.Shows seed ast shown) :
    some shown = some ast ↔ t.tracing = true ∨ t.gen [] seed = some (.tree ast) := by
  rw [Tested.Shows] at h
  split at h
  · next htrace => exact iff_of_true (congrArg some h) (.inl htrace)
  · next htrace =>
    rw [generated_eq_ok.1 h, or_iff_right htrace, Option.some.injEq, Option.some.injEq,
      Generated.tree.injEq]

theorem Checked.reported (h : Checked f t seed ast events result)
    (hgen : generated (t.gen f.tokenWeights seed) = .ok ast)
    (hreport : .reported reportedSeed shown newAst ∈ events) :
    Reported f t reportedSeed shown newAst ast events := by
  cases h with
  | thrown hrun => simp at hreport
  | passed hrun hok => simp at hreport
  | unshown hrun htrace hshown =>
    simp at hreport
    obtain ⟨rfl, rfl, rfl⟩ := hreport
    refine ⟨List.infix_rfl, generated_eq_ok.1 hgen, ?_⟩
    apply iff_of_false nofun
    rintro (htracing | htree)
    · exact absurd htracing (htrace ▸ nofun)
    · rw [htree] at hshown
      cases hshown
  | failed hrun hshown =>
    simp at hreport
    obtain ⟨rfl, rfl, rfl⟩ := hreport
    exact ⟨List.infix_rfl, generated_eq_ok.1 hgen, shown_iff hshown⟩

theorem Retries.not_reported (h : Retries f t context ast events result) :
    .reported seed shown newAst ∉ events := by
  induction h with
  | fresh => exact List.not_mem_nil
  | exhausted => exact List.not_mem_nil
  | stopped => exact fun h => nomatch List.mem_singleton.1 h
  | again _ _ _ _ ih =>
    rw [List.mem_cons]
    rintro (heq | hmem)
    · cases heq
    · exact ih hmem

theorem Round.reported (h : Round f t context first events result)
    (hreport : .reported seed shown newAst ∈ events) :
    ∃ ast, Reported f t seed shown newAst ast events := by
  cases h with
  | stopped hgen => cases List.mem_singleton.1 hreport
  | broken hgen hretries =>
    rcases List.mem_cons.1 hreport with heq | hmem
    · cases heq
    · exact absurd hmem hretries.not_reported
  | skipped hgen hretries =>
    rcases List.mem_cons.1 hreport with heq | hmem
    · cases heq
    · exact absurd hmem hretries.not_reported
  | @checked _ events fresh after more result hgen hretries hcheck =>
    rcases List.mem_append.1 hreport with hmem | hmem
    · rcases List.mem_cons.1 hmem with heq | hmem
      · cases heq
      · exact absurd hmem hretries.not_reported
    · have hfresh := hretries.generated_fresh hgen
      exact ⟨fresh, (hcheck.reported hfresh hmem).mono (List.suffix_append _ _).isInfix⟩

theorem Rounds.reported (h : Rounds f t context rest events stop)
    (hreport : .reported seed shown newAst ∈ events) :
    ∃ ast, Reported f t seed shown newAst ast events := by
  induction h with
  | done => cases hreport
  | stopped hround => exact hround.reported hreport
  | next hround _ ih =>
    rcases List.mem_append.1 hreport with hmem | hmem
    · obtain ⟨ast, h⟩ := hround.reported hmem
      exact ⟨ast, h.mono (List.prefix_append _ _).isInfix⟩
    · obtain ⟨ast, h⟩ := ih hmem
      exact ⟨ast, h.mono (List.suffix_append _ _).isInfix⟩

def rerun (f : Fuzzer) (seed : UInt32) : Fuzzer := { f with startSeed := seed, seedCount := 1 }

theorem runTrees_checkPass (seed : UInt64) (ast : A) :
    runTrees (f.checkPass t seed ast).1 = [ast] := by
  have hcheck := checkPass_checked (f := f) (t := t) seed ast
  generalize f.checkPass t seed ast = result at hcheck
  obtain ⟨events, outcome⟩ := result
  cases hcheck <;> rfl

theorem retry_new (left : Nat) {context : SeedContext} (hnew : t.hash ast ∉ context.astHashes) :
    f.retry t left context ast = ([], .ok (some ast, context.insert (t.hash ast))) := by
  cases left with
  | zero => rw [retry, if_neg hnew]
  | succ left => rw [retry, if_neg hnew]

theorem runTrees_first {context : SeedContext} (hfirst : context.astHashes = []) (seed : UInt64) :
    runTrees (f.iteration t context seed).1 =
      (generated (t.gen f.tokenWeights seed)).toOption.toList := by
  cases hgen : generated (t.gen f.tokenWeights seed) with
  | error stop =>
    simp only [iteration, genFreshAst, hgen]
    rfl
  | ok ast =>
    have hnew : t.hash ast ∉ { context with currentSeed := seed }.astHashes := by
      rw [hfirst]
      exact List.not_mem_nil
    simp only [iteration, genFreshAst, hgen, retry_new _ hnew]
    exact runTrees_checkPass seed ast

theorem seeds_rerun (hseed : seed.toNat + 1 < 2 ^ 32) : (f.rerun seed).seeds = [seed.toUInt64] := by
  have hsum : ((f.rerun seed).startSeed + (f.rerun seed).seedCount).toNat = seed.toNat + 1 :=
    toNat_sum_of_lt hseed
  have hword : UInt64.ofNat seed.toNat = seed.toUInt64 := by
    rw [← UInt64.toNat_inj, UInt32.toNat_toUInt64]
    exact UInt64.toNat_ofNat_of_lt' (Nat.lt_trans seed.toNat_lt (by decide))
  rw [seeds, hsum, rerun, Nat.add_sub_cancel_left]
  exact congrArg (fun first => [first]) hword

theorem seeds_rerun_last (hseed : seed.toNat + 1 = 2 ^ 32) : (f.rerun seed).seeds = [] := by
  have hzero : seed + 1 = 0 := by
    rw [← UInt32.toNat_inj, UInt32.toNat_add, UInt32.toNat_one, hseed]
    rfl
  have hsum : ((f.rerun seed).startSeed + (f.rerun seed).seedCount) = 0 := hzero
  rw [seeds, hsum, UInt32.toNat_zero, Nat.zero_sub]
  rfl

theorem runTrees_rerun :
    runTrees ((f.rerun seed).test t).1 = [ast] ↔
      seed.toNat + 1 < 2 ^ 32 ∧ t.gen f.tokenWeights seed.toUInt64 = some (.tree ast) := by
  rcases Nat.lt_or_eq_of_le (Nat.succ_le_of_lt seed.toNat_lt) with hlt | heq
  · rw [and_iff_right hlt, test, testPass, seeds_rerun hlt, ← generated_eq_ok]
    have htrees : runTrees ((f.rerun seed).iteration t (f.rerun seed).seedContext seed.toUInt64).1 =
        (generated (t.gen f.tokenWeights seed.toUInt64)).toOption.toList := runTrees_first rfl _
    have hevents : ((f.rerun seed).iterations t (f.rerun seed).seedContext [seed.toUInt64]).1 =
        ((f.rerun seed).iteration t (f.rerun seed).seedContext seed.toUInt64).1 := by
      cases hround : ((f.rerun seed).iteration t (f.rerun seed).seedContext seed.toUInt64).2 with
      | ok after => rw [iterations_ok hround, iterations, List.append_nil]
      | error stop => rw [iterations_error hround]
    rw [hevents, htrees]
    cases generated (t.gen f.tokenWeights seed.toUInt64) with
    | error stop => simp [Except.toOption]
    | ok ast => simp [Except.toOption]
  · rw [test, testPass, seeds_rerun_last heq, iterations]
    apply iff_of_false
    · exact List.cons_ne_nil _ _ ∘ Eq.symm
    · exact fun h => absurd heq (Nat.ne_of_lt h.1)

theorem reproduced_iff (f : Fuzzer) (wf : Bindings.Wellformed)
    (gloc : Bindings.Generator.FreshLocations) (fuel : Nat) (hash : Bindings.Scopes → UInt64)
    (runPass : Bindings.Scopes → Option (Bindings.Scopes × RunResult)) (tracing : Bool)
    {seed : UInt64} {shown : Option Bindings.Scopes} {ast : Bindings.Scopes}
    (hgen : f.gen wf gloc fuel f.tokenWeights seed = some (.tree ast))
    (hshown : shown = some ast ↔ tracing = true ∨ f.gen wf gloc fuel [] seed = some (.tree ast)) :
    shown = some ast ∧ runTrees ((f.rerun seed.toUInt32).test
        ((f.rerun seed.toUInt32).tested wf gloc fuel hash runPass tracing)).1 = [ast] ↔
      (tracing = true ∨ f.gen wf gloc fuel [] seed = f.gen wf gloc fuel f.tokenWeights seed) ∧
        seed.toUInt32.toNat + 1 < 2 ^ 32 ∧
        f.gen wf gloc fuel f.tokenWeights seed.toUInt32.toUInt64 =
          f.gen wf gloc fuel f.tokenWeights seed := by
  have hrerun : runTrees ((f.rerun seed.toUInt32).test
        ((f.rerun seed.toUInt32).tested wf gloc fuel hash runPass tracing)).1 = [ast] ↔
      seed.toUInt32.toNat + 1 < 2 ^ 32 ∧
        f.gen wf gloc fuel f.tokenWeights seed.toUInt32.toUInt64 = some (.tree ast) :=
    runTrees_rerun
  rw [hshown, hrerun, hgen]

/-- A reported failure shows the tree on which the pass was run, and a test with its seed runs the
pass on this tree, where the seed gives the same tree without the weights and with 32 bits, of which
not all are one. -/
theorem failure_reproduced_iff (f : Fuzzer) (wf : Bindings.Wellformed)
    (gloc : Bindings.Generator.FreshLocations) (fuel : Nat) (hash : Bindings.Scopes → UInt64)
    (runPass : Bindings.Scopes → Option (Bindings.Scopes × RunResult)) (tracing : Bool)
    {seed : UInt64} {shown : Option Bindings.Scopes} {newAst : Bindings.Scopes}
    (hreport : .reported seed shown newAst ∈
      (f.test (f.tested wf gloc fuel hash runPass tracing)).1) :
    ∃ ast, [.ran seed ast, .reported seed shown newAst] <:+:
        (f.test (f.tested wf gloc fuel hash runPass tracing)).1 ∧
      (shown = some ast ∧ runTrees ((f.rerun seed.toUInt32).test
          ((f.rerun seed.toUInt32).tested wf gloc fuel hash runPass tracing)).1 = [ast] ↔
        (tracing = true ∨
          f.gen wf gloc fuel [] seed = f.gen wf gloc fuel f.tokenWeights seed) ∧
        seed.toUInt32.toNat + 1 < 2 ^ 32 ∧
        f.gen wf gloc fuel f.tokenWeights seed.toUInt32.toUInt64 =
          f.gen wf gloc fuel f.tokenWeights seed) := by
  obtain ⟨ast, hran, hgen, hshown⟩ := test_rounds.reported hreport
  exact ⟨ast, hran, reproduced_iff f wf gloc fuel hash runPass tracing hgen hshown⟩

/-- A failure is shown and comes again for every smaller seed, where no weights are given. -/
theorem failure_reproduced (f : Fuzzer) (wf : Bindings.Wellformed)
    (gloc : Bindings.Generator.FreshLocations) (fuel : Nat) (hash : Bindings.Scopes → UInt64)
    (runPass : Bindings.Scopes → Option (Bindings.Scopes × RunResult)) (tracing : Bool)
    {seed : UInt64} {shown : Option Bindings.Scopes} {newAst : Bindings.Scopes}
    (hweights : f.tokenWeights = []) (hseed : seed.toNat + 1 < 2 ^ 32)
    (hreport : .reported seed shown newAst ∈
      (f.test (f.tested wf gloc fuel hash runPass tracing)).1) :
    ∃ ast, [.ran seed ast, .reported seed shown newAst] <:+:
        (f.test (f.tested wf gloc fuel hash runPass tracing)).1 ∧
      shown = some ast ∧ runTrees ((f.rerun seed.toUInt32).test
        ((f.rerun seed.toUInt32).tested wf gloc fuel hash runPass tracing)).1 = [ast] := by
  obtain ⟨ast, hran, hgen, hshown⟩ := test_rounds.reported hreport
  have hlow : seed.toUInt32.toNat = seed.toNat := by
    rw [UInt64.toNat_toUInt32]
    exact Nat.mod_eq_of_lt (Nat.lt_of_succ_lt hseed)
  have hword : seed.toUInt32.toUInt64 = seed := by
    rw [← UInt64.toNat_inj, UInt32.toNat_toUInt64, hlow]
  refine ⟨ast, hran, (reproduced_iff f wf gloc fuel hash runPass tracing hgen hshown).2
    ⟨.inr (by rw [hweights]), by rwa [hlow], by rw [hword]⟩⟩

def leaves : Bindings.Wellformed where
  shapes := [(.top, .fields {
    fields := [{ name := ⟨"leaf", 0⟩, choice := ⟨[⟨"a", 0⟩, ⟨"b", 0⟩]⟩ }]
    apart := List.pairwise_singleton _ _ })]
  distinct := List.nodup_singleton _

def weighted (tokenWeights : TokenWeights) : Fuzzer where
  startSeed := 6
  seedCount := 1
  tokenWeights

/-- The test of a pass whose results are never trees of its definition. -/
def failing (tokenWeights : TokenWeights) : List (Event Bindings.Scopes) :=
  ((weighted tokenWeights).test ((weighted tokenWeights).tested leaves (fun _ _ _ i => ({}, i)) 3
    (fun _ => 0) (fun ast => some (ast, .fail)) false)).1

/-- The types of the nodes of the trees that the pass is run on and that are shown. -/
def types : Event Bindings.Scopes → Option (List Token)
  | .ran _ ast => some (ast.heap.nodes.map NodeDef.type)
  | .reported _ shown _ => shown.map fun ast => ast.heap.nodes.map NodeDef.type
  | _ => none

def reportedSeed : Event A → Option UInt64
  | .reported seed _ _ => some seed
  | _ => none

theorem exists_reported {events : List (Event A)} (h : seed ∈ events.filterMap reportedSeed) :
    ∃ shown newAst, .reported seed shown newAst ∈ events := by
  obtain ⟨e, he, hseed⟩ := List.mem_filterMap.1 h
  cases e with
  | reported _ shown newAst =>
    cases hseed
    exact ⟨shown, newAst, he⟩
  | _ => cases hseed

/-- The report of a failure without weights. -/
theorem failure_reproduced_unweighted : ∃ shown newAst ast,
    [.ran 6 ast, .reported 6 shown newAst] <:+: failing [] ∧ shown = some ast ∧
      runTrees (((weighted []).rerun 6).test (((weighted []).rerun 6).tested leaves
        (fun _ _ _ i => ({}, i)) 3 (fun _ => 0) (fun ast => some (ast, .fail)) false)).1 = [ast] := by
  have hseed : 6 ∈ (failing []).filterMap reportedSeed := by decide +kernel
  obtain ⟨shown, newAst, hreport⟩ := exists_reported hseed
  obtain ⟨ast, hran, hiff⟩ := failure_reproduced_iff (weighted []) leaves (fun _ _ _ i => ({}, i)) 3
    (fun _ => 0) (fun ast => some (ast, .fail)) false hreport
  obtain ⟨hshown, hrerun⟩ := hiff.2 ⟨.inr rfl, by decide, rfl⟩
  exact ⟨shown, newAst, ast, hran, hshown, hrerun⟩

/-- Of two leaves the first one has the weight zero. The report shows it all the same. -/
theorem failure_not_shown : ¬ ∀ seed shown newAst,
    .reported seed shown newAst ∈ failing [(⟨"a", 0⟩, 0), (⟨"b", 0⟩, 1)] →
    ∃ ast, [.ran seed ast, .reported seed shown newAst] <:+:
      failing [(⟨"a", 0⟩, 0), (⟨"b", 0⟩, 1)] ∧ shown = some ast := by
  intro h
  have hseed : 6 ∈ (failing [(⟨"a", 0⟩, 0), (⟨"b", 0⟩, 1)]).filterMap reportedSeed := by
    decide +kernel
  have htypes : (failing [(⟨"a", 0⟩, 0), (⟨"b", 0⟩, 1)]).filterMap types =
      [[.top, ⟨"b", 0⟩], [.top, ⟨"a", 0⟩]] := by decide +kernel
  obtain ⟨shown, newAst, hreport⟩ := exists_reported hseed
  obtain ⟨ast, hran, rfl⟩ := h 6 shown newAst hreport
  have hsame := hran.filterMap types
  rw [htypes] at hsame
  have heq := hsame.eq_of_length rfl
  have hnodes : ast.heap.nodes.map NodeDef.type = [.top, ⟨"b", 0⟩] := (List.cons.inj heq).1
  have hother : ast.heap.nodes.map NodeDef.type = [.top, ⟨"a", 0⟩] :=
    (List.cons.inj (List.cons.inj heq).2).1
  rw [hnodes] at hother
  exact absurd hother (by decide)

end Fuzzer

end Trieste
