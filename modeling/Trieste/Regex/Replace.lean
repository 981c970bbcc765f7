import Trieste.Library.Substitution
import Trieste.Regex.Counts
import Trieste.Regex.FullMatch
import Trieste.Regex.Search
import Trieste.Regex.Spans

namespace Trieste.Regex
set_option autoImplicit true
open Library Relation

/-- The number of a capture reference, with what follows it. The digits end where the number exceeds
all captures. -/
def referenceIndex (idx : Nat) : Bytes → Nat × Bytes
  | [] => (idx, [])
  | ch :: rest =>
    if isAsciiDigit ch then
      let next := idx * 10 + (ch - '0'.toUInt8).toNat
      if maxCaptures < next then (next, rest) else referenceIndex next rest
    else (idx, ch :: rest)

/-- What a capture reference stands for; nothing for a capture that is not set. -/
def referenced (src : Bytes) (matchStart matchLen : Nat) (captures : List Capture) (idx : Nat) :
    Bytes :=
  if idx = 0 then (src.drop matchStart).take matchLen
  else match captures[idx - 1]? with
    | none => []
    | some cap =>
      match cap.start with
      | none => []
      | some start => if start ≤ cap.end.getD npos then Capture.bytes src start cap.end else []

theorem referenceIndex_length (idx : Nat) (s : Bytes) : (referenceIndex idx s).2.length ≤ s.length := by
  induction s generalizing idx with
  | nil => exact Nat.le_refl _
  | cons ch rest ih =>
    unfold referenceIndex
    dsimp only
    split
    · split
      · exact Nat.le_succ _
      · exact (ih _).trans (Nat.le_succ _)
    · exact Nat.le_refl _

/-- What `append_rewrite` appends for a match. -/
def appendRewrite (src : Bytes) (matchStart matchLen : Nat) (captures : List Capture) :
    Bytes → Bytes
  | [] => []
  | [ch] => [ch]
  | ch :: next :: rest =>
    if ch = '\\'.toUInt8 then
      if isAsciiDigit next then
        referenced src matchStart matchLen captures (referenceIndex 0 (next :: rest)).1 ++
          appendRewrite src matchStart matchLen captures (referenceIndex 0 (next :: rest)).2
      else next :: appendRewrite src matchStart matchLen captures rest
    else ch :: appendRewrite src matchStart matchLen captures (next :: rest)
termination_by rewrite => rewrite.length
decreasing_by
  · have hlen := referenceIndex_length 0 (next :: rest)
    simp only [List.length_cons] at hlen ⊢
    omega
  · simp only [List.length_cons]
    omega
  · simp only [List.length_cons]
    omega

namespace RegexEngine

theorem search_le {e : RegexEngine} (h : e.search self s captures ctx pos = (some (p, len), rest)) :
    pos ≤ p ∧ p ≤ s.length := by
  unfold search at h
  split at h
  · cases h
  · obtain ⟨hle, hle', -⟩ := searchLoop_found (congrArg Prod.fst h)
    exact ⟨hle, hle'⟩

/-- The loop of `GlobalReplace`: the output, the number of replacements and the context. -/
def replaceLoop (e : RegexEngine) (self : Nat) (input rewrite : Bytes) (pos : Nat) (output : Bytes)
    (replacements : Nat) (captures : List Capture) (ctx : MatchContext) :
    Bytes × Nat × MatchContext :=
  if input.length < pos then (output, replacements, ctx)
  else
    match hfound : e.search self input captures ctx pos with
    | (none, _, ctx) => (output ++ input.drop pos, replacements, ctx)
    | (some (matchStart, matchLen), captures, ctx) =>
      let output := output ++ (input.drop pos).take (matchStart - pos) ++
        appendRewrite input matchStart matchLen captures rewrite
      if matchLen = 0 then
        if input.length ≤ matchStart then (output, replacements + 1, ctx)
        else
          let n := (decodeRune input matchStart).2
          replaceLoop e self input rewrite (matchStart + n)
            (output ++ (input.drop matchStart).take n) (replacements + 1) captures ctx
      else
        replaceLoop e self input rewrite (matchStart + matchLen) output (replacements + 1) captures
          ctx
termination_by input.length + 1 - pos
decreasing_by
  · have hle := search_le hfound
    have hrune := decodeRune_pos input matchStart
    omega
  · have hle := search_le hfound
    omega

end RegexEngine

/-- The largest `int`. -/
def intMax : Nat := 2 ^ 31 - 1

/-- `GlobalReplace`: the text that is left, the result and the context of the calling thread. -/
def globalReplace (findCategory : Bytes → Option RuneClass) (self : Nat) (ctx : MatchContext)
    (text : Option Bytes) (pattern rewrite : Bytes) : Option Bytes × Nat × MatchContext :=
  match text with
  | none => (none, 0, ctx)
  | some input =>
    let e := RegexEngine.ofPattern findCategory pattern
    if !e.ok then (some input, 0, ctx)
    else
      let (output, replacements, ctx) := e.replaceLoop self input rewrite 0 [] 0 [] ctx
      (some output, min replacements intMax, ctx)

/-- The captures that a match of the pattern records, in a text from a position on. -/
def CapturesOf (pattern : Pattern) (classes : List RuneClass) (n : Nat) (s : Bytes) (p len : Nat)
    (captures : List Capture) : Prop :=
  ∃ k spans, k ≤ (runes (s.drop p)).length ∧ len = offset (s.drop p) k ∧
    pattern.Records (.after classes s p) (fun j => p + offset (s.drop p) (j - before p))
      (before p, List.replicate (2 * n) none) (before p + k, spans) ∧
    captures = (List.range n).map fun i =>
      { start := (spans[i * 2]?).join, «end» := (spans[i * 2 + 1]?).join }

/-- The matches of a global search from a position on: leftmost and longest, each from the end of the
one before it, or one rune further if that was empty. -/
inductive Successive (pattern : Pattern) (classes : List RuneClass) (n : Nat) (s : Bytes) :
    Nat → List (Span (List Capture)) → Prop
  | none (h : Finds pattern classes s pos none) : Successive pattern classes n s pos []
  | last (h : Finds pattern classes s pos (some (s.length, 0)))
      (hcaptures : CapturesOf pattern classes n s s.length 0 captures) :
      Successive pattern classes n s pos [⟨s.length, 0, captures⟩]
  | empty (h : Finds pattern classes s pos (some (p, 0))) (hp : p < s.length)
      (hcaptures : CapturesOf pattern classes n s p 0 captures)
      (rest : Successive pattern classes n s (p + (decodeRune s p).2) found) :
      Successive pattern classes n s pos (⟨p, 0, captures⟩ :: found)
  | next (h : Finds pattern classes s pos (some (p, len))) (hlen : 0 < len)
      (hcaptures : CapturesOf pattern classes n s p len captures)
      (rest : Successive pattern classes n s (p + len) found) :
      Successive pattern classes n s pos (⟨p, len, captures⟩ :: found)

/-- The positions from which a global search goes on. -/
inductive SearchStart (pattern : Pattern) (classes : List RuneClass) (s : Bytes) : Nat → Prop
  | start : SearchStart pattern classes s 0
  | empty (h : SearchStart pattern classes s pos) (hfinds : Finds pattern classes s pos (some (p, 0)))
      (hp : p < s.length) : SearchStart pattern classes s (p + (decodeRune s p).2)
  | next (h : SearchStart pattern classes s pos)
      (hfinds : Finds pattern classes s pos (some (p, len))) (hlen : 0 < len) :
      SearchStart pattern classes s (p + len)

/-- No search of the global search uses up the capture frames before it finds its match. -/
def SearchesFit (e : RegexEngine) (pattern : Pattern) (classes : List RuneClass) (s : Bytes) : Prop :=
  ∀ pos, SearchStart pattern classes s pos → ∀ q, Probe s pos q →
    (∀ q', Probe s pos q' → q' < q → MatchLengths pattern classes s q' = ∅) →
    ArenaFits e (.after classes s q) (before q)

theorem shiftCapture_eq (p : Nat) {c : Capture} (hclosed : ∀ a, c.start = some a → ∃ z, c.end = some z)
    (hfirst : c.start = none → c.end = none) : RegexEngine.shiftCapture p c =
      { start := c.start.map (p + ·), «end» := c.end.map (p + ·) } := by
  obtain ⟨start, stop⟩ := c
  cases start with
  | none =>
    obtain rfl : stop = none := hfirst rfl
    rfl
  | some a =>
    obtain ⟨z, hz⟩ := hclosed a rfl
    obtain rfl : stop = some z := hz
    simp [RegexEngine.shiftCapture, RegexEngine.addOffset, Nat.add_comm]

section Matches
variable {pattern : Pattern} {classes : List RuneClass} {n : Nat} {s : Bytes}

theorem monotone_place (s : Bytes) (b : Nat) : Monotone fun j => offset s (j - b) := by
  intro i j hij
  exact offset_mono _ (Nat.sub_le_sub_right hij _)

theorem capturesOf_of_records (hk : k ≤ (runes (s.drop p)).length)
    (h : pattern.Records (.after classes s p) (fun j => offset (s.drop p) (j - before p))
      (before p, List.replicate (2 * n) none) (before p + k, spans)) :
    CapturesOf pattern classes n s p (offset (s.drop p) k) (((List.range n).map fun i =>
      { start := (spans[i * 2]?).join, «end» := (spans[i * 2 + 1]?).join }).map
        (RegexEngine.shiftCapture p)) := by
  have hshift := h.map (p + ·)
  have hreplicate : (List.replicate (2 * n) (none : Option Nat)).map (Option.map (p + ·)) =
      List.replicate (2 * n) none := List.map_replicate
  rw [Cursor.map, Cursor.map, hreplicate] at hshift
  refine ⟨k, spans.map (Option.map (p + ·)), hk, rfl, hshift, ?_⟩
  rw [List.map_map]
  apply List.map_congr_left
  intro i hi
  have hblank : ∀ slot : Nat, ((List.replicate (2 * n) (none : Option Nat))[slot]?).join = none := by
    intro slot
    rw [List.getElem?_replicate]
    split <;> rfl
  have heven : (List.replicate (2 * n) (none : Option Nat)).length % 2 = 0 := by
    rw [List.length_replicate, Nat.mul_mod_right]
  have hmap : ∀ slot : Nat, ((spans.map (Option.map (p + ·)))[slot]?).join =
      ((spans[slot]?).join).map (p + ·) := by
    intro slot
    rw [List.getElem?_map]
    rcases spans[slot]? with _ | _ | _ <;> rfl
  rw [Function.comp_apply, shiftCapture_eq, hmap, hmap]
  · intro a ha
    have hwithin : Within (List.replicate (2 * n) (none : Option Nat))
        (offset (s.drop p) (before p - before p)) := by
      intro v hv
      cases List.eq_of_mem_replicate hv
    have hclosed : ClosedGroup (List.replicate (2 * n) none) i := by
      intro v hv
      cases List.eq_of_mem_replicate (List.mem_of_getElem? hv)
    obtain ⟨z, hz, -⟩ := (h.recorded (monotone_place _ _) heven).closed hwithin i hclosed a
      (Option.join_eq_some_iff.1 ha)
    exact ⟨z, Option.join_eq_some_iff.2 hz⟩
  · cases pattern with
    | none =>
      obtain rfl : spans = List.replicate (2 * n) none := congrArg Prod.snd h
      exact fun _ => hblank _
    | some r =>
      exact Regexp.Records.startsFirst h (monotone_place _ _) heven fun _ => hblank _

/-- The captures of a probe are those of a match at its position. -/
theorem probe_capturesOf (hp : pattern.WellFormed classes)
    (hok : (RegexEngine.compile pattern.toPostfix classes n).ok = true)
    (hctx : ctx.visited.Valid) (self : Nat) (hle : p ≤ s.length)
    (hfound : ((RegexEngine.compile pattern.toPostfix classes n).findPrefixWithContext self
      (s.drop p) ctx (p == 0) (RegexEngine.prevWord s p)).1 = some len) :
    CapturesOf pattern classes n s p len
      (((RegexEngine.compile pattern.toPostfix classes n).findPrefixWithContext self (s.drop p) ctx
        (p == 0) (RegexEngine.prevWord s p)).2.1.map (RegexEngine.shiftCapture p)) := by
  have hgroups : (RegexEngine.compile pattern.toPostfix classes n).numCaptures = n :=
    RegexEngine.compile_numCaptures hok
  rcases Nat.eq_zero_or_pos n with rfl | hn
  · have hfits : ArenaFits (.compile pattern.toPostfix classes 0) (.after classes s p) (before p) := by
      rw [ArenaFits, hgroups, Nat.mul_zero, Nat.zero_mul]
      exact Nat.zero_le _
    obtain ⟨⟨k, hk, hlen, hmatch⟩, -⟩ := (probe_spec hp hok hctx self hle hfits).2 len hfound
    obtain ⟨spans, hrecords⟩ := (Pattern.matches_iff_records pattern (.after classes s p)
      (fun j => p + offset (s.drop p) (j - before p)) _ _ (List.replicate (2 * 0) none)).1 hmatch
    have hcond : (!(RegexEngine.compile pattern.toPostfix classes 0).ok ||
        (RegexEngine.compile pattern.toPostfix classes 0).numCaptures == 0) = true := by
      rw [hgroups, beq_self_eq_true, Bool.or_true]
    refine ⟨k, spans, hk, hlen.symm, hrecords, ?_⟩
    unfold RegexEngine.findPrefixWithContext
    dsimp only
    rw [if_pos hcond]
    rfl
  · have hready := RegexEngine.compile_ready hok
    have hclasses := Input.classes_after classes s p
    obtain ⟨k, spans, passed, hk, rfl, hpath, -, hcaptures⟩ := (findPrefixWithContext_spec hready
      hclasses (hgroups.symm ▸ hn) (Input.shows_after classes hle) hctx self).1 len hfound
    have hrecords := (Pattern.records_iff hp hok _ hclasses _ _ _).1 (CaptureStep.records hpath)
    rw [hgroups] at hrecords
    have hread : (RegexEngine.compile pattern.toPostfix classes n).readCaptures spans =
        (List.range n).map fun i =>
          { start := (spans[i * 2]?).join, «end» := (spans[i * 2 + 1]?).join } := by
      rw [RegexEngine.readCaptures, hgroups]
    rw [hcaptures, hread]
    exact capturesOf_of_records hk hrecords

theorem searchLoop_of_search (hok : (RegexEngine.compile pattern.toPostfix classes n).ok = true)
    (hsearch : (RegexEngine.compile pattern.toPostfix classes n).search self s captures ctx pos =
      (result, captures', ctx')) :
    (RegexEngine.compile pattern.toPostfix classes n).searchLoop self s pos captures ctx =
      (result, captures', ctx') := by
  rw [RegexEngine.search, hok] at hsearch
  exact hsearch

theorem search_valid (hok : (RegexEngine.compile pattern.toPostfix classes n).ok = true)
    (hctx : ctx.visited.Valid)
    (hsearch : (RegexEngine.compile pattern.toPostfix classes n).search self s captures ctx pos =
      (result, captures', ctx')) : ctx'.visited.Valid := by
  have hvalid := RegexEngine.searchLoop_valid (.compile pattern.toPostfix classes n) self s pos
    captures hctx
  rwa [searchLoop_of_search hok hsearch] at hvalid

theorem search_capturesOf (hp : pattern.WellFormed classes)
    (hok : (RegexEngine.compile pattern.toPostfix classes n).ok = true) (hctx : ctx.visited.Valid)
    (hsearch : (RegexEngine.compile pattern.toPostfix classes n).search self s captures ctx pos =
      (some (p, len), captures', ctx')) : CapturesOf pattern classes n s p len captures' := by
  have hloop := searchLoop_of_search hok hsearch
  obtain ⟨-, hle, ctx₁, hctx₁, hlen, heq⟩ := RegexEngine.searchLoop_found (congrArg Prod.fst hloop)
  rw [hloop] at heq
  rw [show captures' = _ from heq]
  exact probe_capturesOf hp hok (hctx₁ hctx) self hle hlen

theorem search_finds (hp : pattern.WellFormed classes)
    (hok : (RegexEngine.compile pattern.toPostfix classes n).ok = true)
    (hctx : ctx.visited.Valid) (hpos : pos ≤ s.length)
    (hfits : ∀ q, Probe s pos q →
      (∀ q', Probe s pos q' → q' < q → MatchLengths pattern classes s q' = ∅) →
      ArenaFits (.compile pattern.toPostfix classes n) (.after classes s q) (before q))
    (hsearch : (RegexEngine.compile pattern.toPostfix classes n).search self s captures ctx pos =
      (result, captures', ctx')) : Finds pattern classes s pos result := by
  have hfinds := searchLoop_finds hp hok self hpos hfits captures ctx hctx
    (Nat.zero_le (runes (s.drop pos)).length) (fun j hj => absurd hj (Nat.not_lt_zero j))
  have hzero : pos + offset (s.drop pos) 0 = pos := rfl
  rwa [hzero, searchLoop_of_search hok hsearch] at hfinds

theorem decodeRune_le (h : p < s.length) : p + (decodeRune s p).2 ≤ s.length := by
  have hget : s[p]? = some s[p] := List.getElem?_eq_getElem h
  unfold decodeRune
  rw [hget]
  dsimp only
  split
  · exact h
  · have hne : s.drop p ≠ [] := by
      rw [ne_eq, List.drop_eq_nil_iff]
      exact Nat.not_le_of_lt h
    have hle := Utf8.utf8ToRune_le hne
    rw [List.length_drop] at hle
    omega

/-- A match that a search finds lies in the text, behind the start of the search. -/
theorem Finds.bounds (h : Finds pattern classes s pos (some (p, len))) (hpos : pos ≤ s.length) :
    pos ≤ p ∧ p + len ≤ s.length := by
  obtain ⟨⟨⟨hprobe, -⟩, -⟩, ⟨k, -, rfl, -⟩, -⟩ := h
  have hle := hprobe.le hpos
  obtain ⟨j, -, rfl⟩ := hprobe
  have hoffset := offset_le (s.drop (pos + offset (s.drop pos) j)) k
  rw [List.length_drop] at hoffset
  omega

theorem CapturesOf.stop_le (h : CapturesOf pattern classes n s p len captures)
    (hp : p ≤ s.length) : p + len ≤ s.length := by
  obtain ⟨k, -, -, rfl, -⟩ := h
  have hle := offset_le (s.drop p) k
  rw [List.length_drop] at hle
  omega

/-- What the global search finds from a position on, also where it misses longer matches. -/
structure FoundFrom (pattern : Pattern) (classes : List RuneClass) (n : Nat) (s : Bytes) (pos : Nat)
    (found : List (Span (List Capture))) : Prop where
  inOrder : InOrder s.length pos found
  length_le : found.length ≤ s.length + 1 - pos
  captures : ∀ m ∈ found, CapturesOf pattern classes n s m.start m.len m.label

theorem FoundFrom.nil (hpos : pos ≤ s.length) : FoundFrom pattern classes n s pos [] :=
  ⟨.nil hpos, Nat.zero_le _, fun _ h => absurd h List.not_mem_nil⟩

theorem FoundFrom.cons (h : FoundFrom pattern classes n s next found) (hstart : pos ≤ p)
    (hstop : p + len ≤ next) (hnext : next ≤ s.length) (hpos : pos < next)
    (hcaptures : CapturesOf pattern classes n s p len spans) :
    FoundFrom pattern classes n s pos (⟨p, len, spans⟩ :: found) := by
  refine ⟨.cons hstart (h.inOrder.mono hstop), ?_, List.forall_mem_cons.2 ⟨hcaptures, h.captures⟩⟩
  have hlength := h.length_le
  rw [List.length_cons]
  omega

theorem replaceLoop_spec (hp : pattern.WellFormed classes)
    (hok : (RegexEngine.compile pattern.toPostfix classes n).ok = true) (self : Nat) (rewrite : Bytes)
    (hle : pos ≤ s.length) (output : Bytes) (replacements : Nat) (captures : List Capture)
    (hctx : ctx.visited.Valid) :
    ∃ found ctx', FoundFrom pattern classes n s pos found ∧
      (SearchesFit (.compile pattern.toPostfix classes n) pattern classes s →
        SearchStart pattern classes s pos → Successive pattern classes n s pos found) ∧
      (RegexEngine.compile pattern.toPostfix classes n).replaceLoop self s rewrite pos output
        replacements captures ctx =
        (output ++ substitute s (fun m => appendRewrite s m.start m.len m.label rewrite) pos found,
          replacements + found.length, ctx') := by
  induction hrest : s.length + 1 - pos using Nat.strong_induction_on
    generalizing pos output replacements captures ctx with
  | _ rest ih =>
    rw [RegexEngine.replaceLoop, if_neg (Nat.not_lt_of_le hle)]
    split
    · next captures' ctx' hsearch =>
      exact ⟨[], ctx', .nil hle, fun hfits hstart =>
        .none (search_finds hp hok hctx hle (hfits pos hstart) hsearch), rfl⟩
    · next p len captures' ctx' hsearch =>
      have hcaptures := search_capturesOf hp hok hctx hsearch
      have hvalid := search_valid hok hctx hsearch
      obtain ⟨hpos, hplen⟩ := RegexEngine.search_le hsearch
      have hstop := hcaptures.stop_le hplen
      have hfinds (hfits : SearchesFit (.compile pattern.toPostfix classes n) pattern classes s)
          (hstart : SearchStart pattern classes s pos) :=
        search_finds hp hok hctx hle (hfits pos hstart) hsearch
      dsimp only
      split
      · next hlen =>
        subst hlen
        split
        · next hend =>
          obtain rfl : p = s.length := Nat.le_antisymm hplen hend
          refine ⟨[⟨s.length, 0, captures'⟩], ctx', ⟨.cons hpos (.nil hstop), ?_, ?_⟩,
            fun hfits hstart => .last (hfinds hfits hstart) hcaptures, ?_⟩
          · rw [List.length_singleton]
            omega
          · exact List.forall_mem_singleton.2 hcaptures
          · rw [substitute, substitute]
            dsimp only
            rw [Nat.add_zero s.length, List.drop_length, List.append_nil, List.append_assoc]
            rfl
        · next hlt =>
          have hlt := Nat.lt_of_not_le hlt
          have hrune := decodeRune_pos s p
          have hnext := decodeRune_le hlt
          obtain ⟨found, ctx'', hfound, hsuccessive, hloop⟩ := ih _ (by omega) hnext
            (output ++ (s.drop pos).take (p - pos) ++ appendRewrite s p 0 captures' rewrite ++
              (s.drop p).take (decodeRune s p).2) (replacements + 1) captures' hvalid rfl
          refine ⟨_, ctx'', hfound.cons hpos (Nat.le_add_right ..) hnext (by omega) hcaptures,
            fun hfits hstart => .empty (hfinds hfits hstart) hlt hcaptures
              (hsuccessive hfits (hstart.empty (hfinds hfits hstart) hlt)), ?_⟩
          have hcopy := substitute_copy s (fun m => appendRewrite s m.start m.len m.label rewrite)
            (Nat.le_add_right p _) hfound.inOrder.start_le
          rw [Nat.add_sub_cancel_left] at hcopy
          rw [hloop, substitute]
          dsimp only
          rw [Nat.add_zero p, hcopy]
          simp only [List.append_assoc, List.length_cons, Nat.add_assoc, Nat.add_comm 1]
      · next hlen =>
        have hlen := Nat.pos_of_ne_zero hlen
        obtain ⟨found, ctx'', hfound, hsuccessive, hloop⟩ := ih _ (by omega) hstop
          (output ++ (s.drop pos).take (p - pos) ++ appendRewrite s p len captures' rewrite)
          (replacements + 1) captures' hvalid rfl
        refine ⟨_, ctx'', hfound.cons hpos (Nat.le_refl _) hstop (by omega) hcaptures,
          fun hfits hstart => .next (hfinds hfits hstart) hlen hcaptures
            (hsuccessive hfits (hstart.next (hfinds hfits hstart) hlen)), ?_⟩
        rw [hloop, substitute]
        simp only [List.append_assoc, List.length_cons, Nat.add_assoc, Nat.add_comm 1]

theorem appendRewrite_zero (src : Bytes) (matchStart matchLen : Nat) (captures : List Capture) :
    appendRewrite src matchStart matchLen captures ['\\'.toUInt8, '0'.toUInt8] =
      (src.drop matchStart).take matchLen := by
  have hindex : referenceIndex 0 ['0'.toUInt8] = (0, []) := rfl
  rw [appendRewrite, if_pos rfl, if_pos (by decide), hindex, appendRewrite, List.append_nil]
  exact if_pos rfl

theorem searchesFit_zero (hok : (RegexEngine.compile pattern.toPostfix classes 0).ok = true) :
    SearchesFit (.compile pattern.toPostfix classes 0) pattern classes s := by
  intro pos _ q _ _
  rw [ArenaFits, RegexEngine.compile_numCaptures hok, Nat.mul_zero, Nat.zero_mul]
  exact Nat.zero_le _

end Matches

theorem globalReplace_of_compile (text : Bytes) (hp : Pattern.WellFormed classes p)
    (hcompile : RegexEngine.ofPattern findCategory pattern = .compile p.toPostfix classes n)
    (hok : (RegexEngine.compile p.toPostfix classes n).ok = true)
    (hctx : MatchContext.LeftOver ctx) (self : Nat) (rewrite : Bytes) :
    ∃ found ctx', FoundFrom p classes n text 0 found ∧
      (SearchesFit (.compile p.toPostfix classes n) p classes text →
        Successive p classes n text 0 found) ∧
      globalReplace findCategory self ctx (some text) pattern rewrite =
        (some (substitute text (fun m => appendRewrite text m.start m.len m.label rewrite) 0 found),
          min found.length intMax, ctx') := by
  obtain ⟨found, ctx', hfound, hsuccessive, hloop⟩ :=
    replaceLoop_spec hp hok self rewrite (Nat.zero_le text.length) [] 0 [] hctx.valid
  refine ⟨found, ctx', hfound, fun hfits => hsuccessive hfits .start, ?_⟩
  simp only [globalReplace, hcompile, hok, Bool.not_true, Bool.false_eq_true, if_false]
  rw [hloop, List.nil_append, Nat.zero_add]

/-- `GlobalReplace` rewrites matches of a valid pattern, which are fewer than its rounds, and copies
the rest of the text; it counts them up to the largest `int`. Where the frames suffice they are the
successive leftmost longest ones. An invalid pattern changes nothing, and so does the rewrite `\0`. -/
theorem globalReplace_spec (findCategory : Bytes → Option RuneClass) (self : Nat)
    (hctx : MatchContext.LeftOver ctx) (text pattern rewrite : Bytes) :
    ((RegexEngine.ofPattern findCategory pattern).ok = false →
      globalReplace findCategory self ctx (some text) pattern rewrite = (some text, 0, ctx)) ∧
    ((RegexEngine.ofPattern findCategory pattern).ok = true →
      ∃ (p : Pattern) (classes : List RuneClass) (n : Nat) (found : List (Span (List Capture)))
        (ctx' : MatchContext),
        RegexEngine.ofPattern findCategory pattern = .compile p.toPostfix classes n ∧
        globalReplace findCategory self ctx (some text) pattern rewrite =
          (some (substitute text (fun m => appendRewrite text m.start m.len m.label rewrite) 0
            found), min found.length intMax, ctx') ∧
        FoundFrom p classes n text 0 found ∧
        (SearchesFit (.compile p.toPostfix classes n) p classes text →
          Successive p classes n text 0 found)) ∧
    (rewrite = ['\\'.toUInt8, '0'.toUInt8] →
      (globalReplace findCategory self ctx (some text) pattern rewrite).1 = some text) := by
  have hinvalid : (RegexEngine.ofPattern findCategory pattern).ok = false →
      globalReplace findCategory self ctx (some text) pattern rewrite = (some text, 0, ctx) := by
    intro hok
    simp only [globalReplace, hok, Bool.not_false, if_true]
  refine ⟨hinvalid, ?_⟩
  cases hok : (RegexEngine.ofPattern findCategory pattern).ok with
  | false => exact ⟨nofun, fun _ => by rw [hinvalid hok]⟩
  | true =>
    obtain ⟨p, classes, n, hcompile, hover⟩ := RegexEngine.ofSyntax_pattern hok
    rw [← RegexEngine.ofPattern_eq_ofSyntax] at hcompile
    have hp : p.WellFormed classes := by
      cases p with
      | none => trivial
      | some r => exact (hover r rfl).wellFormed
    rw [hcompile] at hok
    obtain ⟨found, ctx', hfound, hsuccessive, hresult⟩ :=
      globalReplace_of_compile text hp hcompile hok hctx self rewrite
    refine ⟨fun _ => ⟨p, classes, n, found, ctx', hcompile, hresult, hfound, hsuccessive⟩, ?_⟩
    rintro rfl
    rw [hresult]
    have hself := substitute_self hfound.inOrder fun m _ =>
      appendRewrite_zero text m.start m.len m.label
    exact congrArg some (hself.trans List.drop_zero)

/-- The pattern `(b*)` on the text `abé`. -/
theorem globalReplace_starred :
    (RegexEngine.ofPattern (fun _ => none) [0x28, 0x62, 0x2A, 0x29]).ok = true ∧
      (globalReplace (fun _ => none) 0 {} (some [0x61, 0x62, 0xC3, 0xA9]) [0x28, 0x62, 0x2A, 0x29]
        ['\\'.toUInt8, '0'.toUInt8]).1 = some [0x61, 0x62, 0xC3, 0xA9] :=
  ⟨by decide +kernel, (globalReplace_spec (fun _ => none) 0 .fresh _ _ _).2.2 rfl⟩

section Letters
variable {c : UInt8} {N : Nat}

theorem mem_matchLengths_letters (hc : c.toNat < 128) (hq : q ≤ N) : len ∈
    MatchLengths (some (.literal c.toNat)) [] (List.replicate N c) q ↔ q < N ∧ len = 1 := by
  have hshows := Input.shows_after [] (hq.trans (List.length_replicate (n := N) (a := c)).ge)
  have hrune := hshows.runes 0
  have hdrop : (List.replicate N c).drop q = List.replicate (N - q) c := List.drop_replicate
  rw [hdrop, Nat.add_zero, runes_replicate hc, List.getElem?_replicate] at hrune
  unfold MatchLengths Ends
  rw [hdrop, runes_replicate hc, List.length_replicate, Set.mem_ofPred_eq]
  constructor
  · intro h
    obtain ⟨k, hk, rfl, hmatch⟩ := h
    obtain ⟨hget, hnext⟩ : (Input.after [] (List.replicate N c) q).runes[before q]? = some c.toNat ∧
      before q + k = before q + 1 := hmatch
    obtain rfl : k = 1 := Nat.add_left_cancel hnext
    exact ⟨by omega, offset_replicate hc hk⟩
  · intro h
    obtain ⟨hlt, rfl⟩ := h
    have hpos : 1 ≤ N - q := by omega
    refine ⟨1, hpos, offset_replicate hc hpos, ?_⟩
    rw [if_pos (by omega)] at hrune
    exact ⟨hrune, rfl⟩

theorem Successive.length_letters (hc : c.toNat < 128)
    (h : Successive (some (.literal c.toNat)) [] 0 (List.replicate N c) pos found) (hpos : pos ≤ N) :
    found.length = N - pos := by
  have hlength : (List.replicate N c).length = N := List.length_replicate
  have hprobe : ∀ pos, Probe (List.replicate N c) pos pos := fun pos => ⟨0, Nat.zero_le _, rfl⟩
  have hempty : ∀ {pos p}, pos ≤ N →
      ¬ Finds (some (.literal c.toNat)) [] (List.replicate N c) pos (some (p, 0)) := by
    intro pos p hpos hfinds
    have hle := (hfinds.bounds (hlength.ge.trans' hpos)).2
    have hone := (mem_matchLengths_letters hc (hlength ▸ hle)).1 hfinds.2.1
    exact absurd hone.2 Nat.zero_ne_one
  induction h with
  | @none pos hfinds =>
    have hnone := hfinds pos (hprobe pos)
    have hend : ¬ pos < N := by
      intro hlt
      have hone := (mem_matchLengths_letters hc hpos).2 ⟨hlt, rfl⟩
      rw [hnone] at hone
      exact hone
    rw [List.length_nil]
    omega
  | last hfinds _ => exact absurd hfinds (hempty hpos)
  | empty hfinds _ _ _ _ => exact absurd hfinds (hempty hpos)
  | @next pos p len captures found hfinds hlen _ rest ih =>
    obtain ⟨hstart, hstop⟩ := hfinds.bounds (hlength.ge.trans' hpos)
    rw [hlength] at hstop
    obtain ⟨hlt, rfl⟩ := (mem_matchLengths_letters hc (by omega)).1 hfinds.2.1
    have hleast := hfinds.1.2 ⟨hprobe pos, 1, (mem_matchLengths_letters hc hpos).2 ⟨by omega, rfl⟩⟩
    rw [List.length_cons, ih (by omega)]
    omega

end Letters

/-- The result is not the number of matches where that is no `int`. -/
theorem globalReplace_clamped :
    (∃ found, Successive (some (.literal 0x61)) [] 0 (List.replicate (2 ^ 31) 0x61) 0 found) ∧
      ∀ found, Successive (some (.literal 0x61)) [] 0 (List.replicate (2 ^ 31) 0x61) 0 found →
        (globalReplace (fun _ => none) 0 {} (some (List.replicate (2 ^ 31) 0x61)) [0x61] []).2.1 ≠
          found.length := by
  have hc : (0x61 : UInt8).toNat < 128 := by decide
  have hp : Pattern.WellFormed [] (some (.literal 0x61)) := (by decide : 0x61 < captureGroup)
  have hcompile : RegexEngine.ofPattern (fun _ => none) [0x61] =
      .compile (Pattern.toPostfix (some (.literal 0x61))) [] 0 := rfl
  have hok : (RegexEngine.compile (Pattern.toPostfix (some (.literal 0x61))) [] 0).ok = true := by
    decide +kernel
  generalize hN : 2 ^ 31 = N
  obtain ⟨found, ctx', -, hsuccessive, hresult⟩ := globalReplace_of_compile (List.replicate N 0x61)
    hp hcompile hok .fresh 0 []
  have hfound := hsuccessive (searchesFit_zero hok)
  refine ⟨⟨found, hfound⟩, fun others hothers => ?_⟩
  have hlen : others.length = N := hothers.length_letters hc (Nat.zero_le N)
  rw [hresult, hlen, ← hN]
  have hle : min found.length intMax ≤ intMax := Nat.min_le_right ..
  unfold intMax at hle ⊢
  dsimp only
  omega

end Trieste.Regex
