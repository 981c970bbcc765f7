import Trieste.Library.Transition
import Trieste.Regex.Thompson

namespace Trieste.Regex
set_option autoImplicit true
open Library Relation

/-- An edge between the stack entries of a closure. -/
def StackEdge (states : List StateDef) (flags : Flags) : Option State → Option State → Prop
  | none, _ => False
  | some s, t => ∃ d succs, states[s]? = some d ∧ d.epsilonNext flags = some succs ∧ t ∈ succs

def Terminal (states : List StateDef) (flags : Flags) (s : State) : Prop :=
  ∃ d, states[s]? = some d ∧ d.epsilonNext flags = none

/-- The states that the closure of a state collects. -/
def InClosure (states : List StateDef) (flags : Flags) (s t : State) : Prop :=
  ReflTransGen (StackEdge states flags) (some s) (some t) ∧ Terminal states flags t

theorem StateDef.epsilonNext_length_le (d : StateDef) (h : d.epsilonNext flags = some succs) :
    succs.length ≤ 2 := by
  unfold epsilonNext at h
  repeat' split at h
  all_goals simp only [Option.some.injEq, reduceCtorEq] at h
  all_goals subst h; simp

/-- With the nodes seen so far in the set and its terminals in the closure, enough fuel collects
the terminals that the root leads to. -/
theorem mem_closureLoop {states : List StateDef} {flags : Flags} {P : Option State → Prop}
    {closure : List State}
    (hexp : Explored (StackEdge states flags) (· = root) P stack)
    (hseen : ∀ s, s < states.length → (P (some s) ↔ seen.contains s = true))
    (hlen : seen.marks.length = states.length)
    (hclosure : ∀ t, t ∈ closure ↔ P (some t) ∧ Terminal states flags t)
    (hfuel : 2 * seen.free + stack.length ≤ fuel) (t : State) :
    t ∈ (closureLoop states flags fuel stack seen closure).1 ↔
      ReflTransGen (StackEdge states flags) root (some t) ∧ Terminal states flags t := by
  induction fuel generalizing stack seen closure P with
  | zero =>
    obtain rfl : stack = [] := List.eq_nil_of_length_eq_zero (by omega)
    rw [closureLoop, hclosure, hexp.reaches_iff]
    simp only [exists_eq_left]
  | succ fuel ih =>
    cases stack with
    | nil =>
      rw [closureLoop, hclosure, hexp.reaches_iff]
      · simp only [exists_eq_left]
      · exact Nat.succ_ne_zero fuel
    | cons entry stack =>
      simp only [List.length_cons] at hfuel
      cases entry with
      | none =>
        rw [closureLoop]
        refine ih (hexp.visit_nil fun o => ?_) (fun s hs => ?_) hlen (fun t => ?_)
          (by omega)
        · simp [StackEdge]
        · simp [hseen s hs]
        · simp [hclosure]
      | some s =>
        cases hd : states[s]? with
        | none =>
          have hs : states.length ≤ s := List.getElem?_eq_none_iff.1 hd
          simp only [closureLoop, hd]
          refine ih (hexp.visit_nil fun o => ?_) (fun u hu => ?_) hlen (fun u => ?_)
            (by omega)
          · simp [StackEdge, hd]
          · simp [hseen u hu, (hu.trans_le hs).ne]
          · rw [hclosure]
            grind [Terminal]
        | some d =>
          have hs : s < states.length := (List.getElem?_eq_some_iff.1 hd).1
          cases hv : seen.contains s with
          | true =>
            simp only [closureLoop, hd, hv, if_true]
            exact ih (hexp.skip ((hseen s hs).2 hv)) hseen hlen hclosure (by omega)
          | false =>
            have hfree := EpochSet.free_insert (hlen ▸ hs) hv
            have hseen' : ∀ u, u < states.length →
                ((some u = some s ∨ P (some u)) ↔ (seen.insert s).contains u = true) := by
              intro u hu
              rw [EpochSet.contains_insert, hseen u hu]
              grind
            have hlen' : (seen.insert s).marks.length = states.length := by simp [hlen]
            have hnew : ¬ P (some s) := by simp [hseen s hs, hv]
            cases he : d.epsilonNext flags with
            | some pushed =>
              have hpushed := d.epsilonNext_length_le he
              simp only [closureLoop, hd, hv, he]
              refine ih (hexp.visit fun o => ?_) hseen' hlen' (fun u => ?_) ?_
              · simp [StackEdge, hd, he]
              · rw [hclosure]
                grind [Terminal]
              · simp only [List.length_append]
                omega
            | none =>
              simp only [closureLoop, hd, hv, he]
              refine ih (hexp.visit_nil fun o => ?_) hseen' hlen' (fun u => ?_) ?_
              · simp [StackEdge, hd, he]
              · rw [List.mem_append, List.mem_singleton, hclosure]
                grind [Terminal]
              · omega

theorem closureLoop_seen (states : List StateDef) (flags : Flags) (fuel : Nat)
    (stack : List (Option State)) (closure : List State) (hv : seen.Valid)
    (hlen : seen.marks.length = n) :
    (closureLoop states flags fuel stack seen closure).2.Valid ∧
      (closureLoop states flags fuel stack seen closure).2.marks.length = n := by
  induction fuel, stack, seen, closure using closureLoop.induct states flags with
  | case1 => exact ⟨hv, hlen⟩
  | case2 stack seen closure hne => rw [closureLoop]; exacts [⟨hv, hlen⟩, hne]
  | case3 fuel stack seen closure ih => exact ih hv hlen
  | case4 fuel s stack seen closure hs ih => simpa only [closureLoop, hs] using ih hv hlen
  | case5 fuel s stack seen closure d hs hc ih =>
    simpa only [closureLoop, hs, hc, if_true] using ih hv hlen
  | case6 fuel s stack seen closure d hs hc pushed he ih =>
    simpa only [closureLoop, hs, hc, he, if_false, Bool.false_eq_true] using
      ih (hv.insert s) ((EpochSet.length_marks_insert ..).trans hlen)
  | case7 fuel s stack seen closure d hs hc he ih =>
    simpa only [closureLoop, hs, hc, he, if_false, Bool.false_eq_true] using
      ih (hv.insert s) ((EpochSet.length_marks_insert ..).trans hlen)

theorem mem_computeEpsilonClosure (hv : seen.Valid) (hlen : seen.marks.length = states.length)
    (flags : Flags) (s t : State) :
    t ∈ (computeEpsilonClosure states s flags seen).1 ↔ InClosure states flags s t := by
  refine mem_closureLoop (.init _ _) (fun u _ => ?_) (by simpa using hlen) (fun u => ?_) ?_ t
  · simp [hv.contains_advance]
  · simp
  · have hfree := seen.advance.free_le
    rw [EpochSet.length_marks_advance, hlen] at hfree
    simp only [List.length_singleton]
    omega

theorem computeEpsilonClosure_seen (hv : seen.Valid) (hlen : seen.marks.length = n)
    (states : List StateDef) (s : State) (flags : Flags) :
    (computeEpsilonClosure states s flags seen).2.Valid ∧
      (computeEpsilonClosure states s flags seen).2.marks.length = n :=
  closureLoop_seen _ _ _ _ _ hv.advance ((EpochSet.length_marks_advance _).trans hlen)

/-- The cache holds a list of closures one after another, one for each slot. -/
structure ClosureCache.Holds (cache : ClosureCache) (closures : List (List State)) : Prop where
  flat : cache.flat = closures.flatten
  offsets : ∀ j, j < closures.length → cache.offsets[j]? = some (closures.take j).flatten.length

theorem ClosureCache.Holds.push (h : ClosureCache.Holds cache closures)
    (hlt : closures.length < cache.offsets.length) (closure : List State) (seen : EpochSet)
    (total : Nat) :
    ClosureCache.Holds
      { flat := cache.flat ++ closure
        offsets := cache.offsets.set closures.length cache.flat.length
        seen, totalEntries := total } (closures ++ [closure]) := by
  refine ⟨by simp [h.flat], fun j hj => ?_⟩
  simp only [List.length_append, List.length_singleton] at hj
  rcases Nat.lt_succ_iff_lt_or_eq.1 hj with hj | rfl
  · rw [List.getElem?_set_ne hj.ne', h.offsets j hj, List.take_append_of_le_length hj.le]
  · rw [List.getElem?_set_self hlt, List.take_left, h.flat]

/-- What lies between two offsets of a cache. -/
def segment (flat : List State) (offsets : List Nat) (slot : Nat) : List State :=
  (flat.drop (offsets.getD slot 0)).take (offsets.getD (slot + 1) 0 - offsets.getD slot 0)

theorem segment_eq {offsets : List Nat} {closures : List (List State)} {closure : List State}
    (hoff : ∀ j, j ≤ closures.length → offsets[j]? = some (closures.take j).flatten.length)
    (hj : closures[j]? = some closure) : segment closures.flatten offsets j = closure := by
  have hlt : j < closures.length := (List.getElem?_eq_some_iff.1 hj).1
  have hflat : closures.flatten =
      (closures.take j).flatten ++ (closure ++ (closures.drop (j + 1)).flatten) := by
    rw [← List.flatten_cons, ← List.flatten_append, ← (List.getElem?_eq_some_iff.1 hj).2,
      ← List.drop_eq_getElem_cons hlt, List.take_append_drop]
  have htake : (closures.take (j + 1)).flatten.length =
      (closures.take j).flatten.length + closure.length := by
    rw [List.take_add_one, hj, Option.toList_some, List.flatten_append, List.length_append,
      List.flatten_singleton]
  rw [segment, List.getD_eq_getElem?_getD, List.getD_eq_getElem?_getD, hoff j hlt.le, hoff (j + 1) hlt,
    Option.getD_some, Option.getD_some, htake, hflat, List.drop_left, Nat.add_sub_cancel_left,
    List.take_left]

/-- The closures are those of one state after another, each under all combinations of flags. -/
structure CacheInv (states : List StateDef) (combos : Nat) (cache : ClosureCache)
    (closures : List (List State)) : Prop where
  holds : cache.Holds closures
  cached : ∀ j closure, closures[j]? = some closure →
    ∀ t, t ∈ closure ↔ InClosure states (flagsOf (j % combos)) (j / combos) t
  valid : cache.seen.Valid
  marks : cache.seen.marks.length = states.length
  slots : cache.offsets.length = states.length * combos + 1

/-- Under all flags from `f` on, the state is the only one in its closure. -/
def TrivialFrom (states : List StateDef) (combos f : Nat) (s : State) : Prop :=
  ∀ g, f ≤ g → g < combos → ∀ t, InClosure states (flagsOf g) s t ↔ t = s

theorem slot_eq (hc : combos = 1 ∨ combos = closureFlagCombinations) (hf : f < combos) (s : Nat) :
    (s * combos) ||| f = s * combos + f := by
  rcases hc with rfl | rfl
  · obtain rfl : f = 0 := by omega
    exact Nat.or_zero _
  · have h := Nat.two_pow_add_eq_or_of_lt (i := 3) hf s
    rw [Nat.mul_comm] at h
    exact h.symm

theorem CacheInv.push (h : CacheInv states combos cache closures)
    (hlen : closures.length = s * combos + f) (hf : f < combos) (hs : s < states.length)
    (total : Nat) :
    CacheInv states combos
      { flat := cache.flat ++ (computeEpsilonClosure states s (flagsOf f) cache.seen).1
        offsets := cache.offsets.set (s * combos + f) cache.flat.length
        seen := (computeEpsilonClosure states s (flagsOf f) cache.seen).2
        totalEntries := total }
      (closures ++ [(computeEpsilonClosure states s (flagsOf f) cache.seen).1]) := by
  have hslots : s * combos + f < states.length * combos + 1 := by
    have := Nat.mul_le_mul_right combos (Nat.succ_le_of_lt hs)
    rw [Nat.succ_mul] at this
    omega
  obtain ⟨hvalid, hmarks⟩ := computeEpsilonClosure_seen h.valid h.marks states s (flagsOf f)
  refine ⟨?_, fun j closure hj t => ?_, hvalid, hmarks, ?_⟩
  · rw [← hlen]
    exact h.holds.push (by rw [hlen, h.slots]; exact hslots) _ _ _
  · rcases Nat.lt_or_ge j closures.length with hlt | hge
    · rw [List.getElem?_append_left hlt] at hj
      exact h.cached j closure hj t
    · rw [List.getElem?_append_right hge, List.getElem?_singleton] at hj
      obtain ⟨hz, rfl⟩ : j - closures.length = 0 ∧ _ := by simpa using hj
      obtain rfl : j = s * combos + f := by omega
      have hmod : (s * combos + f) % combos = f := by
        rw [Nat.mul_comm, Nat.mul_add_mod, Nat.mod_eq_of_lt hf]
      have hdiv : (s * combos + f) / combos = s := by
        rw [Nat.mul_comm, Nat.mul_add_div (Nat.zero_lt_of_lt hf), Nat.div_eq_of_lt hf, Nat.add_zero]
      rw [hmod, hdiv]
      exact mem_computeEpsilonClosure h.valid h.marks _ s t
  · simpa using h.slots

theorem stateClosures_inv (hc : combos = 1 ∨ combos = closureFlagCombinations)
    (hs : s < states.length) (hn : f + n = combos) (hinv : CacheInv states combos cache closures)
    (hlen : closures.length = s * combos + f)
    (h : stateClosures states combos s (List.range' f n) cache known = some (cache', known')) :
    ∃ closures', CacheInv states combos cache' closures' ∧
      closures'.length = s * combos + combos ∧
      (known' = true → known = true ∧ TrivialFrom states combos f s) := by
  induction n generalizing f cache closures known with
  | zero =>
    simp only [List.range'_zero, stateClosures, Option.some.injEq, Prod.mk.injEq] at h
    obtain ⟨rfl, rfl⟩ := h
    refine ⟨closures, hinv, by omega, fun ht => ⟨ht, fun g hg hg' => ?_⟩⟩
    omega
  | succ n ih =>
    have hf : f < combos := by omega
    rw [List.range'_succ] at h
    simp only [stateClosures, slot_eq hc hf] at h
    split at h
    · cases h
    · obtain ⟨closures', hinv', hlen', htriv⟩ := ih (by omega) (hinv.push hlen hf hs _)
        (by simp [hlen]; omega) h
      refine ⟨closures', hinv', hlen', fun ht => ?_⟩
      obtain ⟨ht, hfrom⟩ := htriv ht
      rw [Bool.and_eq_true, beq_iff_eq] at ht
      refine ⟨ht.1, fun g hg hg' => ?_⟩
      rcases Nat.eq_or_lt_of_le hg with rfl | hg
      · intro t
        rw [← mem_computeEpsilonClosure hinv.valid hinv.marks, ht.2, List.mem_singleton]
      · exact hfrom g hg hg'

theorem allClosures_inv (hc : combos = 1 ∨ combos = closureFlagCombinations)
    (hn : s + n = states.length) (hinv : CacheInv states combos cache closures)
    (hlen : closures.length = s * combos)
    (h : allClosures states combos (List.range' s n) cache = some (cache', trivials)) :
    ∃ closures', CacheInv states combos cache' closures' ∧
      closures'.length = states.length * combos ∧ trivials.length = n ∧
      ∀ i, trivials[i]? = some true → TrivialFrom states combos 0 (s + i) := by
  induction n generalizing s cache closures trivials with
  | zero =>
    simp only [List.range'_zero, allClosures, Option.some.injEq, Prod.mk.injEq] at h
    obtain ⟨rfl, rfl⟩ := h
    refine ⟨closures, hinv, ?_, rfl, fun i hi => ?_⟩
    · rw [hlen, ← hn, Nat.add_zero]
    · cases hi
  | succ n ih =>
    rw [List.range'_succ] at h
    simp only [allClosures, Option.bind_eq_bind, Option.bind_eq_some_iff, Option.pure_def,
      Option.some.injEq, Prod.mk.injEq, Prod.exists] at h
    obtain ⟨cache₁, known, hstate, cache₂, trivials₂, hall, rfl, rfl⟩ := h
    rw [List.range_eq_range'] at hstate
    have hs : s < states.length := by omega
    obtain ⟨closures₁, hinv₁, hlen₁, htriv₁⟩ :=
      stateClosures_inv hc hs (Nat.zero_add combos) hinv (by omega) hstate
    obtain ⟨closures', hinv', hlen', hn', htriv'⟩ := ih (by omega) hinv₁
      (by rw [hlen₁, Nat.succ_mul]) hall
    refine ⟨closures', hinv', hlen', by simp [hn'], fun i hi => ?_⟩
    cases i with
    | zero =>
      simp only [List.getElem?_cons_zero, Option.some.injEq] at hi
      exact (htriv₁ hi).2
    | succ i =>
      have := htriv' i (by simpa using hi)
      rwa [Nat.add_assoc, Nat.add_comm 1] at this

theorem CacheInv.init (hn : states.length = n) (combos : Nat) :
    CacheInv states combos
      { offsets := List.replicate (n * combos + 1) 0, seen := ⟨List.replicate n 0, 0⟩ } [] := by
  refine ⟨⟨rfl, fun j hj => absurd hj (Nat.not_lt_zero j)⟩, fun j closure hj => ?_,
    .fresh n, ?_, ?_⟩
  · cases hj
  · simp [hn]
  · simp [hn]

theorem CacheInv.offsets_le (h : CacheInv states combos cache closures)
    (hlen : closures.length = states.length * combos) :
    ∀ j, j ≤ closures.length → (cache.offsets.set closures.length cache.flat.length)[j]? =
      some (closures.take j).flatten.length := by
  intro j hj
  rcases Nat.lt_or_eq_of_le hj with hj | rfl
  · rw [List.getElem?_set_ne hj.ne', h.holds.offsets j hj]
  · rw [List.getElem?_set_self (by rw [h.slots]; omega), List.take_length, h.holds.flat]

theorem InClosure.lt (h : InClosure states flags s t) : s < states.length := by
  obtain ⟨hreach, d, hd, -⟩ := h
  rcases hreach.cases_head with heq | ⟨o, hedge, -⟩
  · cases heq
    exact (List.getElem?_eq_some_iff.1 hd).1
  · obtain ⟨d', _, hd', -⟩ := hedge
    exact (List.getElem?_eq_some_iff.1 hd').1

/-- The segment of a slot holds the closure of its state, and no states where there is none. -/
theorem CacheInv.mem_segment (h : CacheInv states combos cache closures)
    (hlen : closures.length = states.length * combos) (hf : f < combos) (s t : State) :
    t ∈ segment cache.flat (cache.offsets.set closures.length cache.flat.length)
        (s * combos + f) ↔ InClosure states (flagsOf f) s t := by
  have hoff := h.offsets_le hlen
  rcases Nat.lt_or_ge s states.length with hs | hs
  · have hlt : s * combos + f < closures.length := by
      have := Nat.mul_le_mul_right combos (Nat.succ_le_of_lt hs)
      rw [Nat.succ_mul, ← hlen] at this
      exact Nat.lt_of_lt_of_le (Nat.add_lt_add_left hf _) this
    have hmod : (s * combos + f) % combos = f := by
      rw [Nat.mul_comm, Nat.mul_add_mod, Nat.mod_eq_of_lt hf]
    have hdiv : (s * combos + f) / combos = s := by
      rw [Nat.mul_comm, Nat.mul_add_div (Nat.zero_lt_of_lt hf), Nat.div_eq_of_lt hf, Nat.add_zero]
    have hget := List.getElem?_eq_getElem hlt
    have hmem := h.cached _ _ hget t
    rw [hmod, hdiv] at hmem
    rw [h.holds.flat] at hoff ⊢
    rw [segment_eq hoff hget, hmem]
  · have hge : (cache.offsets.set closures.length cache.flat.length).length ≤
        s * combos + f + 1 := by
      have := Nat.mul_le_mul_right combos hs
      rw [List.length_set, h.slots]
      omega
    have hzero : (cache.offsets.set closures.length cache.flat.length).getD
        (s * combos + f + 1) 0 = 0 := by
      rw [List.getD_eq_getElem?_getD, List.getElem?_eq_none hge, Option.getD_none]
    rw [segment, hzero, Nat.zero_sub, List.take_zero]
    exact ⟨fun hm => absurd hm List.not_mem_nil, fun hm => absurd hm.lt (Nat.not_lt.2 hs)⟩

end Trieste.Regex
