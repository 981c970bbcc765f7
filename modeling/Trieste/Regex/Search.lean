import Trieste.Regex.Pattern

namespace Trieste.Regex
set_option autoImplicit true
open Library Relation

namespace RegexEngine

/-- An offset of a capture in the whole text. An offset that is not set is the largest number, to
which the addition is modulo its size. -/
def addOffset (probe : Nat) : Option Nat → Option Nat
  | some pos => some (pos + probe)
  | none => if probe = 0 then none else some (probe - 1)

def shiftCapture (probe : Nat) (capture : Capture) : Capture :=
  if capture.start.isSome then
    { start := addOffset probe capture.start, «end» := addOffset probe capture.end }
  else capture

/-- Whether the byte before the probe is a word character. -/
def prevWord (s : List UInt8) (probe : Nat) : Bool :=
  decide (0 < probe) && (s[probe - 1]?).any fun byte => isWordChar byte.toNat

/-- The loop of `search`. Every round but the last consumes a byte. -/
def searchLoop (e : RegexEngine) (self : Nat) (s : List UInt8) (probe : Nat)
    (captures : List Capture) (ctx : MatchContext) :
    Option (Nat × Nat) × List Capture × MatchContext :=
  if s.length < probe then (none, captures, ctx)
  else
    match e.findPrefixWithContext self (s.drop probe) ctx (probe == 0) (prevWord s probe) with
    | (some len, captures, ctx) => (some (probe, len), captures.map (shiftCapture probe), ctx)
    | (none, captures, ctx) =>
      if probe < s.length then
        searchLoop e self s (probe + (decodeRune s probe).2) captures ctx
      else (none, captures, ctx)
termination_by s.length - probe
decreasing_by
  have := decodeRune_pos s probe
  omega

/-- The position and the length of the match, if there is one. -/
def search (e : RegexEngine) (self : Nat) (s : List UInt8) (captures : List Capture)
    (ctx : MatchContext) (startPos : Nat) : Option (Nat × Nat) × List Capture × MatchContext :=
  if !e.ok then (none, captures, ctx) else searchLoop e self s startPos captures ctx

/-- What the loop finds is what one of its probes found. -/
theorem searchLoop_found {e : RegexEngine} {captures : List Capture}
    (h : (e.searchLoop self s probe captures ctx).1 = some (p, len)) :
    probe ≤ p ∧ p ≤ s.length ∧ ∃ ctx' : MatchContext, (ctx.visited.Valid → ctx'.visited.Valid) ∧
      (e.findPrefixWithContext self (s.drop p) ctx' (p == 0) (prevWord s p)).1 = some len ∧
      (e.searchLoop self s probe captures ctx).2.1 =
        (e.findPrefixWithContext self (s.drop p) ctx' (p == 0) (prevWord s p)).2.1.map
          (shiftCapture p) := by
  induction hrest : s.length - probe using Nat.strong_induction_on generalizing probe captures ctx with
  | _ rest ih =>
    have hvalid : ctx.visited.Valid → _ := fun hctx =>
      e.findPrefixWithContext_valid self (s.drop probe) hctx (probe == 0) (prevWord s probe)
    rw [searchLoop] at h ⊢
    split at h
    · cases h
    next hle =>
    rw [if_neg hle]
    split at h
    · next l captures' ctx' heq =>
      obtain ⟨rfl, rfl⟩ := Prod.mk.inj (Option.some.inj h)
      exact ⟨Nat.le_refl _, Nat.le_of_not_lt hle, ctx, id, by rw [heq], by rw [heq]⟩
    · next captures' ctx' heq =>
      rw [heq] at hvalid
      split at h
      · next hlt =>
        have hpos := decodeRune_pos s probe
        rw [if_pos hlt]
        obtain ⟨hprobe, hp, ctx'', hvalid', hlen, hcaptures⟩ := ih _ (by omega) h rfl
        exact ⟨by omega, hp, ctx'', fun hctx => hvalid' (hvalid hctx), hlen, hcaptures⟩
      · cases h

theorem searchLoop_valid (e : RegexEngine) (self : Nat) (s : List UInt8) (probe : Nat)
    (captures : List Capture) (hctx : ctx.visited.Valid) :
    (e.searchLoop self s probe captures ctx).2.2.visited.Valid := by
  induction hrest : s.length - probe using Nat.strong_induction_on generalizing probe captures ctx with
  | _ rest ih =>
    have hvalid := e.findPrefixWithContext_valid self (s.drop probe) hctx (probe == 0)
      (prevWord s probe)
    rw [searchLoop]
    split
    · exact hctx
    split
    · next heq =>
      rw [heq] at hvalid
      exact hvalid
    · next heq =>
      rw [heq] at hvalid
      split
      · next hlt =>
        have hpos := decodeRune_pos s probe
        exact ih _ (by omega) _ _ hvalid rfl
      · exact hvalid

end RegexEngine

/-- The number of runes that the input shows before a position of the text. -/
def before (p : Nat) : Nat := if p = 0 then 0 else 1

/-- The text from a position on, after the byte before it. -/
def Input.after (classes : List RuneClass) (s : List UInt8) (p : Nat) : Input :=
  if p = 0 then Input.ofText classes s true
  else { classes, runes := ((s[p - 1]?).map UInt8.toNat).toList ++ Regex.runes (s.drop p), atStart := false }

/-- The lengths of the matches of a pattern at a position of the text. -/
def MatchLengths (pattern : Pattern) (classes : List RuneClass) (s : List UInt8) (p : Nat) :
    Set Nat :=
  Ends (fun k => pattern.Matches (.after classes s p) (before p) (before p + k)) (s.drop p)
    (runes (s.drop p)).length

/-- The positions that whole runes lead to from the start. -/
def Probe (s : List UInt8) (start p : Nat) : Prop :=
  ∃ k, k ≤ (runes (s.drop start)).length ∧ p = start + offset (s.drop start) k

theorem Input.classes_after (classes : List RuneClass) (s : List UInt8) (p : Nat) :
    (Input.after classes s p).classes = classes := by
  unfold Input.after
  split <;> rfl

theorem Input.shows_after (classes : List RuneClass) (h : p ≤ s.length) :
    (Input.after classes s p).Shows (before p) (s.drop p) (p == 0) (RegexEngine.prevWord s p) := by
  cases p with
  | zero => exact Input.shows_ofText classes s true
  | succ p =>
    have hget : s[p]? = some s[p] := List.getElem?_eq_getElem h
    have hafter : Input.after classes s (p + 1) =
        ⟨classes, s[p].toNat :: Regex.runes (s.drop (p + 1)), false⟩ := by
      simp [Input.after, hget]
    rw [hafter]
    refine ⟨fun k => ?_, ?_, ?_, fun k => rfl⟩
    · rw [before, if_neg (Nat.succ_ne_zero p), Nat.add_comm 1 k]
      rfl
    · rw [before, if_neg (Nat.succ_ne_zero p), List.length_cons, Nat.add_comm]
    · simp [RegexEngine.prevWord, before, Input.wordBefore, Input.wordAt, hget]

theorem Probe.le {s : List UInt8} (h : Probe s start p) (hstart : start ≤ s.length) :
    p ≤ s.length := by
  obtain ⟨k, -, rfl⟩ := h
  have hle := offset_le (s.drop start) k
  rw [List.length_drop] at hle
  omega

theorem probe_next {s : List UInt8} (hp : start + offset (s.drop start) k < s.length) :
    k + 1 ≤ (runes (s.drop start)).length ∧
      start + offset (s.drop start) (k + 1) =
        start + offset (s.drop start) k + (decodeRune s (start + offset (s.drop start) k)).2 := by
  generalize hdec : decodeRune s (start + offset (s.drop start) k) = decoded
  obtain ⟨rune, bytes⟩ := decoded
  have hnext : nextRune (s.drop start) (offset (s.drop start) k) = some (rune, bytes) := by
    rw [nextRune_drop, nextRune, if_pos hp, hdec]
  have hrune : (runes (s.drop start))[k]? = some rune := by
    rw [getElem?_runes, hnext]
    rfl
  have hbound := (List.getElem?_eq_some_iff.1 hrune).1
  rw [offset_succ hnext]
  exact ⟨hbound, (Nat.add_assoc _ _ _).symm⟩

theorem probe_last {s : List UInt8} (hp : s.length ≤ start + offset (s.drop start) k) :
    (runes (s.drop start)).length ≤ k := by
  rw [← length_le_offset_iff, List.length_drop]
  omega

def Finds (pattern : Pattern) (classes : List RuneClass) (s : List UInt8) (start : Nat) :
    Option (Nat × Nat) → Prop
  | none => ∀ p, Probe s start p → MatchLengths pattern classes s p = ∅
  | some (p, len) =>
    IsLeast { q | Probe s start q ∧ (MatchLengths pattern classes s q).Nonempty } p ∧
      IsGreatest (MatchLengths pattern classes s p) len

theorem Finds.eq_some_iff (h : Finds pattern classes s start result) (p len : Nat) :
    result = some (p, len) ↔
      IsLeast { q | Probe s start q ∧ (MatchLengths pattern classes s q).Nonempty } p ∧
        IsGreatest (MatchLengths pattern classes s p) len := by
  cases result with
  | none =>
    constructor
    · intro hsome
      cases hsome
    · intro hmatch
      obtain ⟨⟨⟨hprobe, hne⟩, -⟩, -⟩ := hmatch
      rw [h p hprobe] at hne
      exact absurd hne Set.not_nonempty_empty
  | some found =>
    obtain ⟨q, m⟩ := found
    obtain ⟨hleast, hgreatest⟩ := h
    constructor
    · intro hsome
      obtain ⟨rfl, rfl⟩ := Prod.mk.inj (Option.some.inj hsome)
      exact ⟨hleast, hgreatest⟩
    · intro hmatch
      obtain ⟨hleast', hgreatest'⟩ := hmatch
      obtain rfl := hleast.unique hleast'
      obtain rfl := hgreatest.unique hgreatest'
      rfl

theorem Finds.eq_none_iff (h : Finds pattern classes s start result) :
    result = none ↔ ∀ p, Probe s start p → MatchLengths pattern classes s p = ∅ := by
  cases result with
  | none => exact ⟨fun _ => h, fun _ => rfl⟩
  | some found =>
    obtain ⟨p, m⟩ := found
    obtain ⟨⟨⟨hprobe, hne⟩, -⟩, -⟩ := h
    constructor
    · intro hsome
      cases hsome
    · intro hempty
      rw [hempty p hprobe] at hne
      exact absurd hne Set.not_nonempty_empty

def SpansWithin (p len : Nat) (captures : List Capture) : Prop :=
  ∀ c ∈ captures, ∀ a, c.start = some a → ∃ z, c.end = some z ∧ p ≤ a ∧ a ≤ z ∧ z ≤ p + len

section Search
variable {pattern : Pattern} {classes : List RuneClass} {n : Nat} {s : List UInt8}

theorem readCaptures_within (e : RegexEngine)
    (h : Recorded (fun j => offset s (j - b)) (b, List.replicate (2 * e.numCaptures) none)
      (b + k, spans)) :
    ∀ c ∈ e.readCaptures spans, ∀ a, c.start = some a → ∃ z, c.end = some z ∧ a ≤ z ∧
      z ≤ offset s k := by
  have hnone : ∀ v, some v ∉ List.replicate (2 * e.numCaptures) (none : Option Nat) := by
    intro v hv
    cases List.eq_of_mem_replicate hv
  have hwithin : Within (List.replicate (2 * e.numCaptures) none) (offset s (b - b)) :=
    fun v hv => absurd hv (hnone v)
  intro c hc a ha
  obtain ⟨i, -, rfl⟩ := List.mem_map.1 hc
  have hget : spans[i * 2]? = some (some a) := Option.join_eq_some_iff.1 ha
  have hclosed : ClosedGroup (List.replicate (2 * e.numCaptures) none) i := by
    intro v hv
    exact absurd (List.mem_of_getElem? hv) (hnone v)
  obtain ⟨z, hz, haz⟩ := h.closed hwithin i hclosed a hget
  have hle := h.within hwithin z (List.mem_of_getElem? hz)
  dsimp only at hle
  rw [Nat.add_sub_cancel_left] at hle
  exact ⟨z, Option.join_eq_some_iff.2 hz, haz, hle⟩

theorem shiftCapture_within {captures : List Capture} (p : Nat)
    (h : ∀ c ∈ captures, ∀ a, c.start = some a → ∃ z, c.end = some z ∧ a ≤ z ∧ z ≤ len) :
    SpansWithin p len (captures.map (RegexEngine.shiftCapture p)) := by
  intro shifted hshifted a ha
  obtain ⟨c, hc, rfl⟩ := List.mem_map.1 hshifted
  cases hstart : c.start with
  | none =>
    have hshift : RegexEngine.shiftCapture p c = c := by
      simp [RegexEngine.shiftCapture, hstart]
    rw [hshift, hstart] at ha
    cases ha
  | some v =>
    obtain ⟨z, hz, hvz, hle⟩ := h c hc v hstart
    have hshift : RegexEngine.shiftCapture p c = { start := some (v + p), «end» := some (z + p) } := by
      simp [RegexEngine.shiftCapture, hstart, hz, RegexEngine.addOffset]
    rw [hshift] at ha ⊢
    obtain rfl := Option.some.inj ha
    exact ⟨z + p, rfl, by omega, by omega, by omega⟩

theorem probe_spec (hp : pattern.WellFormed classes)
    (hok : (RegexEngine.compile pattern.toPostfix classes n).ok = true)
    (hctx : ctx.visited.Valid) (self : Nat) (hle : p ≤ s.length)
    (hfits : ArenaFits (.compile pattern.toPostfix classes n) (.after classes s p) (before p)) :
    (((RegexEngine.compile pattern.toPostfix classes n).findPrefixWithContext self (s.drop p) ctx
        (p == 0) (RegexEngine.prevWord s p)).1 = none ↔ MatchLengths pattern classes s p = ∅) ∧
    ∀ len, ((RegexEngine.compile pattern.toPostfix classes n).findPrefixWithContext self
        (s.drop p) ctx (p == 0) (RegexEngine.prevWord s p)).1 = some len →
      IsGreatest (MatchLengths pattern classes s p) len := by
  have hready := RegexEngine.compile_ready hok
  have hclasses := Input.classes_after classes s p
  have hbest := (findPrefixWithContext_best hready hclasses (Input.shows_after classes hle) hctx hfits
    self).congr fun k => Pattern.active_accept_iff hp hok hclasses (before p) k
  exact ⟨hbest.eq_none_iff, fun len => (hbest.eq_some_iff len).1⟩

theorem probe_captures (hp : pattern.WellFormed classes)
    (hok : (RegexEngine.compile pattern.toPostfix classes n).ok = true)
    (hctx : ctx.visited.Valid) (self : Nat) (hle : p ≤ s.length) (len : Nat)
    (hfound : ((RegexEngine.compile pattern.toPostfix classes n).findPrefixWithContext self
      (s.drop p) ctx (p == 0) (RegexEngine.prevWord s p)).1 = some len) :
    ∀ c ∈ ((RegexEngine.compile pattern.toPostfix classes n).findPrefixWithContext self (s.drop p)
        ctx (p == 0) (RegexEngine.prevWord s p)).2.1,
      ∀ a, c.start = some a → ∃ z, c.end = some z ∧ a ≤ z ∧ z ≤ len := by
  have hready := RegexEngine.compile_ready hok
  have hclasses := Input.classes_after classes s p
  rcases Nat.eq_zero_or_pos (RegexEngine.compile pattern.toPostfix classes n).numCaptures
    with hn | hn
  · have hcond : (!(RegexEngine.compile pattern.toPostfix classes n).ok ||
        (RegexEngine.compile pattern.toPostfix classes n).numCaptures == 0) = true := by
      rw [hn, beq_self_eq_true, Bool.or_true]
    intro c hc
    unfold RegexEngine.findPrefixWithContext at hc
    dsimp only at hc
    rw [if_pos hcond] at hc
    exact absurd hc List.not_mem_nil
  · obtain ⟨k, spans, passed, -, rfl, hpath, -, hcaptures⟩ := (findPrefixWithContext_spec hready
      hclasses hn (Input.shows_after classes hle) hctx self).1 len hfound
    have hplace : Monotone fun j => offset (s.drop p) (j - before p) := by
      intro i j hij
      exact offset_mono _ (Nat.sub_le_sub_right hij _)
    have hrecords := (Pattern.records_iff hp hok _ hclasses _ _ _).1 (CaptureStep.records hpath)
    rw [hcaptures]
    apply readCaptures_within
    refine Pattern.Records.recorded hplace hrecords ?_
    rw [List.length_replicate, Nat.mul_mod_right]

/-- From a probe on, with no match before it, the loop finds the leftmost match. -/
theorem searchLoop_finds (hp : pattern.WellFormed classes)
    (hok : (RegexEngine.compile pattern.toPostfix classes n).ok = true) (self : Nat)
    (hstart : start ≤ s.length)
    (hfits : ∀ q, Probe s start q →
      (∀ q', Probe s start q' → q' < q → MatchLengths pattern classes s q' = ∅) →
      ArenaFits (.compile pattern.toPostfix classes n) (.after classes s q) (before q))
    (captures : List Capture) (ctx : MatchContext) (hctx : ctx.visited.Valid)
    (hk : k ≤ (runes (s.drop start)).length)
    (hbefore : ∀ j, j < k → MatchLengths pattern classes s (start + offset (s.drop start) j) = ∅) :
    Finds pattern classes s start ((RegexEngine.compile pattern.toPostfix classes n).searchLoop
      self s (start + offset (s.drop start) k) captures ctx).1 := by
  obtain ⟨rest, hrest⟩ := Nat.exists_eq_add_of_le hk
  induction rest using Nat.strong_induction_on generalizing k captures ctx with
  | _ rest ih =>
    have hprobe : Probe s start (start + offset (s.drop start) k) := ⟨k, hk, rfl⟩
    have hle := hprobe.le hstart
    have hearlier : ∀ q, Probe s start q → q < start + offset (s.drop start) k →
        MatchLengths pattern classes s q = ∅ := by
      intro q hq hlt
      obtain ⟨j, -, rfl⟩ := hq
      refine hbefore j (Nat.lt_of_not_le fun hkj => ?_)
      exact absurd (offset_mono (s.drop start) hkj) (by omega)
    have hspec := probe_spec hp hok hctx self hle (hfits _ hprobe hearlier)
    have hvalid := (RegexEngine.compile pattern.toPostfix classes n).findPrefixWithContext_valid self
      (s.drop (start + offset (s.drop start) k)) hctx (start + offset (s.drop start) k == 0)
      (RegexEngine.prevWord s (start + offset (s.drop start) k))
    rw [RegexEngine.searchLoop, if_neg (Nat.not_lt_of_le hle)]
    split
    · next len captures ctx heq =>
      rw [heq] at hspec
      have hgreatest := hspec.2 len rfl
      refine ⟨⟨⟨hprobe, len, hgreatest.1⟩, fun q hq => ?_⟩, hgreatest⟩
      obtain ⟨hq, hne⟩ := hq
      by_contra hlt
      rw [hearlier q hq (Nat.lt_of_not_le hlt)] at hne
      exact Set.not_nonempty_empty hne
    · next captures ctx heq =>
      rw [heq] at hspec hvalid
      have hnone := hspec.1.1 rfl
      split
      · next hlt =>
        obtain ⟨hk', hnext⟩ := probe_next hlt
        rw [← hnext]
        obtain ⟨rest', hrest'⟩ := Nat.exists_eq_add_of_le hk'
        refine ih rest' (by omega) captures ctx hvalid hk' (fun j hj => ?_) hrest'
        rcases Nat.lt_succ_iff_lt_or_eq.1 hj with hj | rfl
        · exact hbefore j hj
        · exact hnone
      · next hlast =>
        have hend := probe_last (Nat.le_of_not_lt hlast)
        intro q hq
        obtain ⟨j, hj, rfl⟩ := hq
        rcases Nat.lt_or_ge j k with hlt | hge
        · exact hbefore j hlt
        · obtain rfl : j = k := Nat.le_antisymm (hj.trans hend) hge
          exact hnone

theorem searchLoop_captures (hp : pattern.WellFormed classes)
    (hok : (RegexEngine.compile pattern.toPostfix classes n).ok = true) (self : Nat) (probe : Nat)
    (captures : List Capture) (ctx : MatchContext) (hctx : ctx.visited.Valid)
    (hfound : ((RegexEngine.compile pattern.toPostfix classes n).searchLoop self s probe captures
      ctx).1 = some (p, len)) :
    SpansWithin p len ((RegexEngine.compile pattern.toPostfix classes n).searchLoop self s probe
      captures ctx).2.1 := by
  obtain ⟨-, hle, ctx', hvalid, hlen, hcaptures⟩ := RegexEngine.searchLoop_found hfound
  rw [hcaptures]
  exact shiftCapture_within p (probe_captures hp hok (hvalid hctx) self hle len hlen)

/-- `search` finds the first probe with a match, the longest match there, and captures within it. -/
theorem search_leftmost_longest (hp : pattern.WellFormed classes)
    (hok : (RegexEngine.compile pattern.toPostfix classes n).ok = true)
    (hctx : MatchContext.LeftOver ctx) (self : Nat) (captures : List Capture)
    (hstart : start ≤ s.length)
    (hfits : ∀ q, Probe s start q →
      (∀ q', Probe s start q' → q' < q → MatchLengths pattern classes s q' = ∅) →
      ArenaFits (.compile pattern.toPostfix classes n) (.after classes s q) (before q)) :
    (∀ p len, ((RegexEngine.compile pattern.toPostfix classes n).search self s captures ctx
        start).1 = some (p, len) ↔
      IsLeast { q | Probe s start q ∧ (MatchLengths pattern classes s q).Nonempty } p ∧
        IsGreatest (MatchLengths pattern classes s p) len) ∧
    (((RegexEngine.compile pattern.toPostfix classes n).search self s captures ctx start).1 = none ↔
      ∀ p, Probe s start p → MatchLengths pattern classes s p = ∅) ∧
    ∀ p len, ((RegexEngine.compile pattern.toPostfix classes n).search self s captures ctx
        start).1 = some (p, len) →
      SpansWithin p len ((RegexEngine.compile pattern.toPostfix classes n).search self s captures
        ctx start).2.1 := by
  have hsearch : (RegexEngine.compile pattern.toPostfix classes n).search self s captures ctx start =
      (RegexEngine.compile pattern.toPostfix classes n).searchLoop self s start captures ctx := by
    rw [RegexEngine.search, hok]
    rfl
  have hzero : start + offset (s.drop start) 0 = start := rfl
  have hfinds := searchLoop_finds hp hok self hstart hfits captures ctx hctx.valid
    (Nat.zero_le (runes (s.drop start)).length) (fun j hj => absurd hj (Nat.not_lt_zero j))
  rw [hzero] at hfinds
  rw [hsearch]
  exact ⟨hfinds.eq_some_iff, hfinds.eq_none_iff,
    fun p len => searchLoop_captures hp hok self start captures ctx hctx.valid⟩

end Search

theorem search_leftmost_longest_capture :
    let p : Pattern := some (.capture 0 (.literal 0x62))
    let e := RegexEngine.compile p.toPostfix [] 1
    (e.search 1 [0x61, 0x62] [] {} 0).1 = some (1, 1) ∧
      IsLeast { q | Probe [0x61, 0x62] 0 q ∧ (MatchLengths p [] [0x61, 0x62] q).Nonempty } 1 ∧
      IsGreatest (MatchLengths p [] [0x61, 0x62] 1) 1 := by
  intro p e
  have hp : p.WellFormed [] := ⟨by decide, (by decide : 0x62 < captureGroup)⟩
  have hok : e.ok = true := by decide +kernel
  have hfound : (e.search 1 [0x61, 0x62] [] {} 0).1 = some (1, 1) := by decide +kernel
  have hbound : ∀ q, q ≤ 2 → 2 * e.numCaptures * (1 + e.ownedStates.length *
      ((Input.after [] [0x61, 0x62] q).runes.length + 1)) ≤ maxCaptureFrameEntries := by
    decide +kernel
  have hfits : ∀ q, Probe [0x61, 0x62] 0 q →
      (∀ q', Probe [0x61, 0x62] 0 q' → q' < q → MatchLengths p [] [0x61, 0x62] q' = ∅) →
      ArenaFits e (.after [] [0x61, 0x62] q) (before q) := by
    intro q hq _
    exact arenaFits_of_bound (hbound q (hq.le (Nat.zero_le _))) _
  exact ⟨hfound, ((search_leftmost_longest hp hok .fresh 1 [] (Nat.zero_le _) hfits).1 1 1).1 hfound⟩

end Trieste.Regex
