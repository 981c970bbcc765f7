import Trieste.Regex.FirstChars
import Trieste.Regex.FullMatch
import Trieste.Source
import Trieste.Utf8.Encode

namespace Trieste.Regex
set_option autoImplicit true
open Library Relation

namespace TRegex

def firstCharInfo (re : TRegex) : FirstCharInfo :=
  match re.engine with
  | none => .maximal
  | some e => if !e.ok then .maximal else e.firstCharInfo

def findPrefix (re : TRegex) (self : Nat) (text : List UInt8) (captures : List Capture)
    (ctx : MatchContext) : Option Nat × List Capture × MatchContext :=
  match re.engine with
  | none => (none, captures, ctx)
  | some e =>
    if !e.ok then (none, captures, ctx) else e.findPrefixWithContext self text ctx true false

end TRegex

/-- A regex with the address of its engine, which copies of the regex share. -/
structure SharedRegex extends TRegex where
  address : Nat

/-- The state of a matcher, which it keeps between matches. -/
structure TRegexMatch where
  locations : List Location := [{}]
  groups : Nat := 0
  ctx : MatchContext := {}
  captures : List Capture := []

namespace TRegexMatch

def captureLocation (source : SourceDef) (offset len : Nat) (capture : Capture) : Location :=
  match capture.start with
  | none => { source := some source, pos := offset + len, len := 0 }
  | some start =>
    if capture.end.getD npos < start then { source := some source, pos := offset + len, len := 0 }
    else { source := some source, pos := offset + start, len := capture.end.getD npos - start }

def matchLocations (source : SourceDef) (offset len groups : Nat) (captures : List Capture) :
    List Location :=
  let captureCount := min captures.length (groups - 1)
  { source := some source, pos := offset, len } ::
    ((captures.take captureCount).map (captureLocation source offset len) ++
      List.replicate (groups - (captureCount + 1))
        { source := some source, pos := offset, len := 0 })

/-- `try_match`, which writes over the first locations. -/
def tryMatch (m : TRegexMatch) (re : SharedRegex) (view : List UInt8) (source : SourceDef)
    (offset : Nat) : Bool × TRegexMatch :=
  let groups := re.numCaptures + 1
  let locations := m.locations ++ List.replicate (groups - m.locations.length) {}
  match re.findPrefix re.address view m.captures m.ctx with
  | (none, captures, ctx) => (false, { locations, groups, captures, ctx })
  | (some len, captures, ctx) =>
    (true, { locations := matchLocations source offset len groups captures ++ locations.drop groups
             groups, captures, ctx })

/-- `at`; a matcher always has a first location. -/
def location (m : TRegexMatch) (index : Nat) : Option Location :=
  if m.groups ≤ index then m.locations[0]? else m.locations[index]?

def tryInOrder (regexes : List SharedRegex) (view : List UInt8) (source : SourceDef)
    (offset : Nat) : List Nat → TRegexMatch → Option Nat × TRegexMatch
  | [], m => (none, m)
  | index :: rest, m =>
    match regexes[index]? with
    | none => tryInOrder regexes view source offset rest m
    | some re =>
      match m.tryMatch re view source offset with
      | (true, m) => (some index, m)
      | (false, m) => tryInOrder regexes view source offset rest m

end TRegexMatch

/-- The lists of candidates hold indices as 16-bit numbers. -/
structure TRegexSet where
  regexes : List SharedRegex
  asciiCandidates : Fin 128 → List Nat := fun _ => []
  nonasciiCandidates : List Nat := []
  emptyMatchIndex : Option Nat := none

namespace TRegexSet

/-- One round of `build_dispatch_table`. -/
def addRegex (set : TRegexSet) (re : SharedRegex) (i : Nat) : TRegexSet :=
  let info := re.firstCharInfo
  let idx := i % 2 ^ 16
  if info.canMatchEmpty then
    { set with
      emptyMatchIndex := set.emptyMatchIndex.or (some i)
      asciiCandidates := fun b => set.asciiCandidates b ++ [idx]
      nonasciiCandidates := set.nonasciiCandidates ++ [idx] }
  else
    { set with
      asciiCandidates := fun b =>
        if info.bitmap.test b then set.asciiCandidates b ++ [idx] else set.asciiCandidates b
      nonasciiCandidates :=
        if info.canMatchNonascii then set.nonasciiCandidates ++ [idx] else set.nonasciiCandidates }

/-- The constructor. Its assertion on the number of regexes is not compiled in. -/
def init (regexes : List SharedRegex) : TRegexSet :=
  regexes.zipIdx.foldl (fun set entry => set.addRegex entry.1 entry.2) { regexes }

def candidates (set : TRegexSet) (first : UInt8) : List Nat :=
  if h : first.toNat < 128 then set.asciiCandidates ⟨first.toNat, h⟩ else set.nonasciiCandidates

def matchFirst (set : TRegexSet) (m : TRegexMatch) (view : List UInt8) (source : SourceDef)
    (offset : Nat) : Option Nat × TRegexMatch :=
  match view with
  | [] =>
    match set.emptyMatchIndex with
    | none => (none, m)
    | some index =>
      match set.regexes[index]? with
      | none => (some index, m)
      | some re => (some index, (m.tryMatch re view source offset).2)
  | first :: _ => m.tryInOrder set.regexes view source offset (set.candidates first)

end TRegexSet

/-- The engine of a regex, if there is one without an error, is a compiled one. -/
def TRegex.Compiled (re : TRegex) : Prop :=
  ∀ e, re.engine = some e → e.ok = true → ∃ tokens classes n, e = .compile tokens classes n

section Reuse
variable {ctx ctx' : MatchContext} {m m' : TRegexMatch}

theorem TRegex.findPrefix_valid (re : TRegex) (self : Nat) (text : List UInt8)
    (captures : List Capture) (h : ctx.visited.Valid) :
    (re.findPrefix self text captures ctx).2.2.visited.Valid := by
  unfold TRegex.findPrefix
  split
  · exact h
  · next e _ =>
    split
    · exact h
    · exact e.findPrefixWithContext_valid self text h true false

theorem TRegex.findPrefix_reuse {re : TRegex} (hre : re.Compiled) (h : ctx.visited.Valid)
    (h' : ctx'.visited.Valid) (self : Nat) (text : List UInt8) (captures captures' : List Capture) :
    (re.findPrefix self text captures ctx).1 = (re.findPrefix self text captures' ctx').1 ∧
      ((re.findPrefix self text captures ctx).1.isSome = true →
        (re.findPrefix self text captures ctx).2.1 = (re.findPrefix self text captures' ctx').2.1) := by
  unfold TRegex.findPrefix
  cases hengine : re.engine with
  | none => exact ⟨rfl, fun hsome => (nomatch hsome)⟩
  | some e =>
    cases hok : e.ok with
    | false =>
      dsimp only
      rw [hok]
      exact ⟨rfl, fun hsome => (nomatch hsome)⟩
    | true =>
      obtain ⟨tokens, classes, n, rfl⟩ := hre e hengine hok
      obtain ⟨hlen, hcaptures⟩ :=
        findPrefixWithContext_reuse (RegexEngine.compile_ready hok) h h' self text true
      dsimp only
      rw [hok]
      exact ⟨hlen, fun _ => hcaptures⟩

namespace TRegexMatch

theorem tryMatch_valid (m : TRegexMatch) (re : SharedRegex) (view : List UInt8)
    (source : SourceDef) (offset : Nat) (h : m.ctx.visited.Valid) :
    (m.tryMatch re view source offset).2.ctx.visited.Valid := by
  have hv := re.findPrefix_valid re.address view m.captures h
  unfold tryMatch
  dsimp only
  split
  · next heq =>
    rw [heq] at hv
    exact hv
  · next heq =>
    rw [heq] at hv
    exact hv

theorem tryMatch_fst (m : TRegexMatch) (re : SharedRegex) (view : List UInt8)
    (source : SourceDef) (offset : Nat) : (m.tryMatch re view source offset).1 =
      (re.findPrefix re.address view m.captures m.ctx).1.isSome := by
  unfold tryMatch
  dsimp only
  split
  · next heq =>
    rw [heq]
    rfl
  · next heq =>
    rw [heq]
    rfl

theorem length_matchLocations (source : SourceDef) (offset len groups : Nat)
    (captures : List Capture) :
    (matchLocations source offset len (groups + 1) captures).length = groups + 1 := by
  have hmin : min captures.length groups ≤ groups := Nat.min_le_right _ _
  simp only [matchLocations, List.length_cons, List.length_append, List.length_map,
    List.length_take, List.length_replicate]
  omega

/-- The locations of a match are those that it has written. -/
theorem location_eq (locations : List Location) (source : SourceDef) (offset len groups : Nat)
    (captures : List Capture) (ctx : MatchContext) (index : Nat) :
    (TRegexMatch.mk (matchLocations source offset len (groups + 1) captures ++ locations)
      (groups + 1) ctx captures).location index =
        (matchLocations source offset len (groups + 1) captures)[if groups + 1 ≤ index then 0
          else index]? := by
  have hlength := length_matchLocations source offset len groups captures
  unfold location
  dsimp only
  by_cases hindex : groups + 1 ≤ index
  · rw [if_pos hindex, if_pos hindex]
    exact List.getElem?_append_left (hlength.symm ▸ Nat.succ_pos groups)
  · rw [if_neg hindex, if_neg hindex]
    exact List.getElem?_append_left (hlength.symm ▸ Nat.lt_of_not_le hindex)

/-- Whether a regex matches, and the locations of the match, do not depend on the matcher. -/
theorem tryMatch_reuse {re : SharedRegex} (hre : re.Compiled) (h : m.ctx.visited.Valid)
    (h' : m'.ctx.visited.Valid) (view : List UInt8) (source : SourceDef) (offset : Nat) :
    (m.tryMatch re view source offset).1 = (m'.tryMatch re view source offset).1 ∧
      ((m.tryMatch re view source offset).1 = true → ∀ index,
        (m.tryMatch re view source offset).2.location index =
          (m'.tryMatch re view source offset).2.location index) := by
  obtain ⟨hlen, hcaptures⟩ :=
    TRegex.findPrefix_reuse hre h h' re.address view m.captures m'.captures
  rw [tryMatch_fst, tryMatch_fst, hlen]
  refine ⟨rfl, fun hsome index => ?_⟩
  rw [hlen] at hcaptures
  have hcaptures := hcaptures hsome
  unfold tryMatch
  dsimp only
  generalize re.findPrefix re.address view m.captures m.ctx = r at hlen hcaptures ⊢
  generalize re.findPrefix re.address view m'.captures m'.ctx = r' at hlen hcaptures hsome ⊢
  obtain ⟨len, captures, ctx⟩ := r
  obtain ⟨len', captures', ctx'⟩ := r'
  cases hlen
  cases hcaptures
  cases len with
  | none => cases hsome
  | some len =>
    dsimp only
    rw [location_eq, location_eq]

/-- Whether a regex matches, as a fresh matcher finds. -/
def accepts (regexes : List SharedRegex) (view : List UInt8) (source : SourceDef) (offset : Nat)
    (index : Nat) : Bool :=
  (regexes[index]?).any fun re => (({} : TRegexMatch).tryMatch re view source offset).1

/-- The first of the given indices whose regex matches is found, with the locations of its match. -/
theorem tryInOrder_eq {regexes : List SharedRegex} (hcompiled : ∀ re ∈ regexes, re.Compiled)
    (view : List UInt8) (source : SourceDef) (offset : Nat) (indices : List Nat)
    (h : m.ctx.visited.Valid) :
    (m.tryInOrder regexes view source offset indices).1 =
        indices.find? (accepts regexes view source offset) ∧
      ∀ index, (m.tryInOrder regexes view source offset indices).1 = some index →
        ∃ re, regexes[index]? = some re ∧ ∀ i,
          (m.tryInOrder regexes view source offset indices).2.location i =
            (({} : TRegexMatch).tryMatch re view source offset).2.location i := by
  induction indices generalizing m with
  | nil => exact ⟨rfl, fun index hindex => (nomatch hindex)⟩
  | cons index rest ih =>
    unfold tryInOrder
    cases hre : regexes[index]? with
    | none =>
      rw [List.find?_cons_of_neg (by simp [accepts, hre])]
      exact ih h
    | some re =>
      have hfresh : ({} : TRegexMatch).ctx.visited.Valid := .fresh 0
      obtain ⟨hfound, hlocation⟩ := tryMatch_reuse (hcompiled re (List.mem_of_getElem? hre)) h
        hfresh view source offset
      have hvalid := m.tryMatch_valid re view source offset h
      have haccepts : accepts regexes view source offset index =
          (m.tryMatch re view source offset).1 := by
        rw [accepts, hre, hfound]
        rfl
      dsimp only
      generalize m.tryMatch re view source offset = result at hlocation hvalid haccepts ⊢
      obtain ⟨found, m⟩ := result
      cases found with
      | true =>
        rw [List.find?_cons_of_pos haccepts]
        refine ⟨rfl, fun i hi => ?_⟩
        obtain rfl := Option.some.inj hi
        exact ⟨re, hre, hlocation rfl⟩
      | false =>
        rw [List.find?_cons_of_neg (by rw [haccepts]; exact Bool.false_ne_true)]
        exact ih hvalid

end TRegexMatch

end Reuse

namespace TRegexSet

def isCandidate (re : SharedRegex) (first : UInt8) : Bool :=
  re.firstCharInfo.canMatchEmpty || re.firstCharInfo.test first

theorem candidates_addRegex (set : TRegexSet) (re : SharedRegex) (i : Nat) (first : UInt8) :
    (set.addRegex re i).candidates first =
      set.candidates first ++ if isCandidate re first then [i % 2 ^ 16] else [] := by
  unfold addRegex candidates isCandidate FirstCharInfo.test isAscii
  dsimp only
  generalize re.firstCharInfo = info
  by_cases hascii : first.toNat < 128
  · rw [dif_pos hascii, dif_pos hascii, decide_eq_true hascii, Bool.not_true,
      if_neg Bool.false_ne_true]
    cases info.canMatchEmpty with
    | true => rfl
    | false =>
      rw [if_neg Bool.false_ne_true, Bool.false_or]
      dsimp only
      split
      · rfl
      · exact (List.append_nil _).symm
  · rw [dif_neg hascii, dif_neg hascii, decide_eq_false hascii, Bool.not_false, if_pos rfl]
    cases info.canMatchEmpty with
    | true => rfl
    | false =>
      rw [if_neg Bool.false_ne_true, Bool.false_or]
      dsimp only
      split
      · rfl
      · exact (List.append_nil _).symm

theorem candidates_foldl (entries : List (SharedRegex × Nat)) (set : TRegexSet) (first : UInt8) :
    (entries.foldl (fun set entry => set.addRegex entry.1 entry.2) set).candidates first =
      set.candidates first ++ (entries.filter fun entry => isCandidate entry.1 first).map fun entry =>
        entry.2 % 2 ^ 16 := by
  induction entries generalizing set with
  | nil => exact (List.append_nil _).symm
  | cons entry entries ih =>
    rw [List.foldl_cons, ih, candidates_addRegex, List.filter_cons, List.append_assoc]
    split
    · rfl
    · rfl

theorem regexes_foldl (entries : List (SharedRegex × Nat)) (set : TRegexSet) :
    (entries.foldl (fun set entry => set.addRegex entry.1 entry.2) set).regexes = set.regexes := by
  induction entries generalizing set with
  | nil => rfl
  | cons entry entries ih =>
    rw [List.foldl_cons, ih, addRegex]
    split
    · rfl
    · rfl

theorem candidates_init (regexes : List SharedRegex) (first : UInt8) :
    (init regexes).candidates first =
      (regexes.zipIdx.filter fun entry => isCandidate entry.1 first).map fun entry =>
        entry.2 % 2 ^ 16 := by
  have hempty : (TRegexSet.mk regexes (fun _ => []) [] none).candidates first = [] := by
    unfold candidates
    split
    · rfl
    · rfl
  rw [init, candidates_foldl, hempty, List.nil_append]

theorem find?_filter_map {entries : List (SharedRegex × Nat)} {accepts : Nat → Bool}
    {candidate : SharedRegex × Nat → Bool}
    (h : ∀ entry ∈ entries, entry.2 < 2 ^ 16 ∧ (accepts entry.2 = true → candidate entry = true)) :
    ((entries.filter candidate).map fun entry => entry.2 % 2 ^ 16).find? accepts =
      (entries.map Prod.snd).find? accepts := by
  induction entries with
  | nil => rfl
  | cons entry entries ih =>
    obtain ⟨hlt, himp⟩ := h entry List.mem_cons_self
    have ih := ih fun entry hentry => h entry (List.mem_cons_of_mem _ hentry)
    rw [List.map_cons, List.filter_cons]
    cases haccepts : accepts entry.2 with
    | true =>
      rw [if_pos (himp haccepts), List.map_cons, Nat.mod_eq_of_lt hlt,
        List.find?_cons_of_pos haccepts, List.find?_cons_of_pos haccepts]
    | false =>
      have hneg : ¬ accepts entry.2 = true := by
        rw [haccepts]
        exact Bool.false_ne_true
      rw [List.find?_cons_of_neg hneg, ← ih]
      split
      · rw [List.map_cons, Nat.mod_eq_of_lt hlt, List.find?_cons_of_neg hneg]
      · rfl

theorem find?_candidates {regexes : List SharedRegex} (hlength : regexes.length ≤ 2 ^ 16)
    {accepts : Nat → Bool}
    (h : ∀ index re, regexes[index]? = some re → accepts index = true →
      isCandidate re first = true) :
    ((init regexes).candidates first).find? accepts =
      (List.range regexes.length).find? accepts := by
  have hrange : List.range regexes.length = regexes.zipIdx.map Prod.snd := by
    rw [List.zipIdx_map_snd, List.range_eq_range']
  rw [candidates_init, hrange]
  apply find?_filter_map
  intro entry hentry
  have hget := List.mem_zipIdx_iff_getElem?.1 hentry
  have hlt := (List.getElem?_eq_some_iff.1 hget).1
  exact ⟨hlt.trans_le hlength, h entry.2 entry.1 hget⟩

theorem mem_candidates {regexes : List SharedRegex} (hlength : regexes.length ≤ 2 ^ 16)
    (hre : regexes[index]? = some re) (h : isCandidate re first = true) :
    index ∈ (init regexes).candidates first := by
  have hlt := (List.getElem?_eq_some_iff.1 hre).1
  rw [candidates_init]
  refine List.mem_map.2 ⟨(re, index), List.mem_filter.2 ⟨?_, h⟩, ?_⟩
  · exact List.mem_zipIdx_iff_getElem?.2 hre
  · exact Nat.mod_eq_of_lt (hlt.trans_le hlength)

theorem emptyMatchIndex_foldl (entries : List (SharedRegex × Nat)) (set : TRegexSet) :
    (entries.foldl (fun set entry => set.addRegex entry.1 entry.2) set).emptyMatchIndex =
      set.emptyMatchIndex.or
        ((entries.find? fun entry => entry.1.firstCharInfo.canMatchEmpty).map Prod.snd) := by
  induction entries generalizing set with
  | nil => exact (Option.or_none).symm
  | cons entry entries ih =>
    rw [List.foldl_cons, ih, addRegex, List.find?_cons]
    cases entry.1.firstCharInfo.canMatchEmpty with
    | true =>
      rw [if_pos rfl, Option.or_assoc]
      rfl
    | false =>
      rw [if_neg Bool.false_ne_true]

theorem emptyMatchIndex_le {regexes : List SharedRegex} (hre : regexes[index]? = some re)
    (h : re.firstCharInfo.canMatchEmpty = true) :
    ∃ i, i ≤ index ∧ (init regexes).emptyMatchIndex = some i := by
  rw [init, emptyMatchIndex_foldl, Option.none_or]
  have hmem : (re, index) ∈ regexes.zipIdx := List.mem_zipIdx_iff_getElem?.2 hre
  cases hfound : regexes.zipIdx.find? fun entry => entry.1.firstCharInfo.canMatchEmpty with
  | none => exact absurd h (List.find?_eq_none.1 hfound _ hmem)
  | some entry =>
    obtain ⟨-, i, hi, hentry, hbefore⟩ := List.find?_eq_some_iff_getElem.1 hfound
    have hget : entry.2 = i := by rw [← hentry, List.getElem_zipIdx, Nat.zero_add]
    refine ⟨i, Nat.le_of_not_lt fun hlt => ?_, congrArg some hget⟩
    obtain ⟨hindex, rfl⟩ := List.getElem?_eq_some_iff.1 hre
    have hnot := hbefore index hlt
    rw [List.getElem_zipIdx, h] at hnot
    cases hnot

end TRegexSet

theorem decodeRune_encode (c : Char) (text : List Char) :
    (decodeRune (Utf8.encode (c :: text)) 0).1 = c.toNat := by
  have hdecode := Utf8.utf8ToRune_encode c (Utf8.encode text)
  have hencode : Utf8.encode (c :: text) = String.utf8EncodeChar c ++ Utf8.encode text :=
    List.flatMap_cons
  rw [← hencode] at hdecode
  obtain ⟨first, rest, hcons, hascii, hhigh⟩ := Utf8.encode_cons c text
  rw [hcons] at hdecode ⊢
  rw [decodeRune, List.getElem?_cons_zero]
  dsimp only
  split
  · next hlt =>
    have hlt : first.toNat < 128 := of_decide_eq_true hlt
    exact hascii (Nat.lt_of_not_le fun hge => absurd (hhigh hge) (Nat.not_le.2 hlt))
  · rw [List.drop_zero, hdecode]

theorem firstCharInfo_of_findPrefix {re : TRegex} (hre : re.Compiled) {ctx : MatchContext}
    (hctx : ctx.visited.Valid) (self : Nat) (view : List UInt8) (captures : List Capture)
    (h : (re.findPrefix self view captures ctx).1.isSome = true) :
    re.firstCharInfo.canMatchEmpty = true ∨ ∃ r, (runes view)[0]? = some r ∧
      (r ≠ matchLabel → re.firstCharInfo.allows r = true) := by
  unfold TRegex.findPrefix at h
  unfold TRegex.firstCharInfo
  cases hengine : re.engine with
  | none =>
    rw [hengine] at h
    cases h
  | some e =>
    rw [hengine] at h
    dsimp only at h ⊢
    cases hok : e.ok with
    | false => exact .inl rfl
    | true =>
      obtain ⟨tokens, classes, n, rfl⟩ := hre e hengine hok
      rw [hok] at h
      obtain ⟨len, hlen⟩ := Option.isSome_iff_exists.1 h
      obtain ⟨k, -, -, hactive⟩ := findPrefixWithContext_active hok rfl
        (Input.shows_ofText classes view true) hctx self hlen
      exact firstCharInfo_active (RegexEngine.compile_ready hok) rfl hactive

namespace TRegexSet
variable {re : SharedRegex}

theorem isCandidate_of_tryMatch (hre : re.Compiled) (c : Char) (text : List Char)
    (source : SourceDef) (offset : Nat)
    (h : (({} : TRegexMatch).tryMatch re (Utf8.encode (c :: text)) source offset).1 = true)
    (hfirst : Utf8.encode (c :: text) = first :: rest) : isCandidate re first = true := by
  rw [TRegexMatch.tryMatch_fst] at h
  rw [isCandidate, Bool.or_eq_true]
  rcases firstCharInfo_of_findPrefix hre (.fresh 0) re.address _ [] h with hempty | ⟨r, hr, hallows⟩
  · exact .inl hempty
  · obtain ⟨byte, bytes, hcons, hascii, hhigh⟩ := Utf8.encode_cons c text
    have hrune : r = c.toNat := by
      have hpos : 0 < (Utf8.encode (c :: text)).length := hcons ▸ Nat.succ_pos _
      have hzero : Regex.offset (Utf8.encode (c :: text)) 0 = 0 := rfl
      rw [getElem?_runes, hzero, nextRune, if_pos hpos] at hr
      exact (Option.some.inj hr).symm.trans (decodeRune_encode c text)
    have hlabel : c.toNat < matchLabel := (Utf8.toNat_lt c).trans (by decide)
    have hallows := hallows (hrune ▸ hlabel.ne)
    obtain ⟨rfl, rfl⟩ := List.cons.inj (hfirst.symm.trans hcons)
    right
    unfold FirstCharInfo.allows at hallows
    unfold FirstCharInfo.test isAscii
    rw [hrune] at hallows
    split at hallows
    · next hlt =>
      rw [hascii hlt, decide_eq_true hlt, Bool.not_true, if_neg Bool.false_ne_true]
      exact hallows
    · next hlt =>
      rw [decide_eq_false (Nat.not_lt.2 (hhigh (Nat.le_of_not_lt hlt))), Bool.not_false, if_pos rfl]
      exact hallows

theorem canMatchEmpty_of_tryMatch (hre : re.Compiled) (source : SourceDef) (offset : Nat)
    (h : (({} : TRegexMatch).tryMatch re [] source offset).1 = true) :
    re.firstCharInfo.canMatchEmpty = true := by
  rw [TRegexMatch.tryMatch_fst] at h
  rcases firstCharInfo_of_findPrefix hre (.fresh 0) re.address _ [] h with hempty | ⟨r, hr, -⟩
  · exact hempty
  · cases hr

/-- A set finds the first regex with a match of the text, with the locations of its match, as by
trying all of its regexes in turn. -/
theorem matchFirst_inOrder {regexes : List SharedRegex} {m m' : TRegexMatch} {text : List Char}
    (hcompiled : ∀ re ∈ regexes, re.Compiled) (hlength : regexes.length ≤ 65535)
    (hm : MatchContext.LeftOver m.ctx) (hm' : MatchContext.LeftOver m'.ctx) (htext : text ≠ [])
    (source : SourceDef) (offset : Nat) :
    let view := Utf8.encode text
    let result := (init regexes).matchFirst m view source offset
    let inOrder := m'.tryInOrder regexes view source offset (List.range regexes.length)
    let found := { i | ∃ re, regexes[i]? = some re ∧
      (({} : TRegexMatch).tryMatch re view source offset).1 = true }
    result.1 = inOrder.1 ∧
      (result.1.isSome = true → ∀ i, result.2.location i = inOrder.2.location i) ∧
      (∀ i, result.1 = some i ↔ IsLeast found i) ∧ (result.1 = none ↔ found = ∅) ∧
      (∀ i ∈ found, ∀ first rest, view = first :: rest → i ∈ (init regexes).candidates first) ∧
      ∀ (i : Nat) re, regexes[i]? = some re →
        (({} : TRegexMatch).tryMatch re [] source offset).1 = true →
          ∃ j, j ≤ i ∧ (init regexes).emptyMatchIndex = some j := by
  intro view result inOrder found
  obtain ⟨c, text, rfl⟩ := List.exists_cons_of_ne_nil htext
  obtain ⟨first, rest, hcons, -⟩ := Utf8.encode_cons c text
  have hview : view = first :: rest := hcons
  have hregexes : (init regexes).regexes = regexes := regexes_foldl _ _
  have hresult : result =
      m.tryInOrder regexes view source offset ((init regexes).candidates first) := by
    have hmatch : result = m.tryInOrder (init regexes).regexes view source offset
        ((init regexes).candidates first) := by
      unfold result
      rw [hview]
      rfl
    rw [hmatch, hregexes]
  have hcandidate : ∀ (i : Nat) re, regexes[i]? = some re →
      (({} : TRegexMatch).tryMatch re view source offset).1 = true → isCandidate re first = true := by
    intro i re hre haccepts
    exact isCandidate_of_tryMatch (hcompiled re (List.mem_of_getElem? hre)) c text source offset
      haccepts hcons
  have hlength' : regexes.length ≤ 2 ^ 16 := hlength.trans (by decide)
  have hfound : ∀ i, i ∈ found ↔ TRegexMatch.accepts regexes view source offset i = true :=
    fun i => (Option.any_eq_true _ _).symm
  have hbound : ∀ i ∈ found, i < regexes.length := by
    intro i hi
    obtain ⟨re, hre, -⟩ := hi
    exact (List.getElem?_eq_some_iff.1 hre).1
  have hmatch := TRegexMatch.tryInOrder_eq hcompiled view source offset
    ((init regexes).candidates first) hm.valid
  have horder := TRegexMatch.tryInOrder_eq hcompiled view source offset
    (List.range regexes.length) hm'.valid
  have heq : result.1 = inOrder.1 := by
    rw [hresult, hmatch.1, horder.1]
    apply find?_candidates hlength'
    intro i re hre haccepts
    refine hcandidate i re hre ?_
    rw [TRegexMatch.accepts, hre] at haccepts
    exact haccepts
  refine ⟨heq, fun hsome i => ?_, fun i => ?_, ?_, fun i hi byte bytes hbytes => ?_,
    fun i re hre hempty => ?_⟩
  · obtain ⟨index, hindex⟩ := Option.isSome_iff_exists.1 hsome
    obtain ⟨re, hre, hlocation⟩ := horder.2 index (heq ▸ hindex)
    rw [hresult] at hindex ⊢
    obtain ⟨re', hre', hlocation'⟩ := hmatch.2 index hindex
    obtain rfl : re = re' := Option.some.inj (hre.symm.trans hre')
    exact (hlocation' i).trans (hlocation i).symm
  · rw [heq, horder.1, List.find?_range_eq_some]
    constructor
    · intro hfirst
      obtain ⟨haccepts, -, hbefore⟩ := hfirst
      refine ⟨(hfound i).2 haccepts, fun j hj => Nat.le_of_not_lt fun hlt => ?_⟩
      have hnot := hbefore j hlt
      rw [(hfound j).1 hj] at hnot
      cases hnot
    · intro hleast
      refine ⟨(hfound i).1 hleast.1, List.mem_range.2 (hbound i hleast.1), fun j hlt => ?_⟩
      rw [Bool.not_eq_true', Bool.eq_false_iff]
      intro haccepts
      exact absurd (hleast.2 ((hfound j).2 haccepts)) (Nat.not_le.2 hlt)
  · rw [heq, horder.1, List.find?_range_eq_none, Set.eq_empty_iff_forall_notMem]
    constructor
    · intro hnone i hi
      have hnot := hnone i (hbound i hi)
      rw [(hfound i).1 hi] at hnot
      cases hnot
    · intro hempty i _
      rw [Bool.not_eq_true', Bool.eq_false_iff]
      intro haccepts
      exact hempty i ((hfound i).2 haccepts)
  · obtain ⟨re, hre, haccepts⟩ := hi
    obtain ⟨rfl, rfl⟩ := List.cons.inj (hbytes.symm.trans hview)
    exact mem_candidates hlength' hre (hcandidate i re hre haccepts)
  · exact emptyMatchIndex_le hre
      (canMatchEmpty_of_tryMatch (hcompiled re (List.mem_of_getElem? hre)) source offset hempty)

def single (rune : Nat) : SharedRegex := { TRegex.init (.compile [rune] [] 0) with address := rune }

theorem single_compiled (rune : Nat) : (single rune).Compiled := by
  intro e he _
  exact ⟨[rune], [], 0, (Option.some.inj he).symm⟩

theorem matchFirst_two :
    let source : SourceDef := { address := 1, contents := "b" }
    ((init [single 0x61, single 0x62]).matchFirst {} (Utf8.encode ['b']) source 0).1 = some 1 := by
  intro source
  have hcompiled : ∀ re ∈ [single 0x61, single 0x62], re.Compiled := by
    intro re hre
    rcases List.mem_pair.1 hre with rfl | rfl
    · exact single_compiled 0x61
    · exact single_compiled 0x62
  have horder : (({} : TRegexMatch).tryInOrder [single 0x61, single 0x62] (Utf8.encode ['b']) source 0
      (List.range 2)).1 = some 1 := by decide +kernel
  have hm : MatchContext.LeftOver ({} : TRegexMatch).ctx := .fresh
  exact (matchFirst_inOrder hcompiled (by decide) hm hm (List.cons_ne_nil 'b' []) source 0).1.trans
    horder

section Truncated
variable {N : Nat}

theorem candidates_truncated (hN : N % 2 ^ 16 = 0) :
    (init (List.replicate N (single 0x61) ++ [single 0x62])).candidates 0x62 = [0] := by
  have ha : isCandidate (single 0x61) 0x62 = false := by decide +kernel
  have hb : isCandidate (single 0x62) 0x62 = true := by decide +kernel
  have hnone : ((List.replicate N (single 0x61)).zipIdx.filter fun entry =>
      isCandidate entry.1 0x62) = [] := by
    rw [List.filter_eq_nil_iff]
    intro entry hentry
    have hmem := List.mem_of_getElem? (List.mem_zipIdx_iff_getElem?.1 hentry)
    rw [List.eq_of_mem_replicate hmem, ha]
    exact Bool.false_ne_true
  rw [candidates_init, List.zipIdx_append, List.filter_append, hnone, List.nil_append,
    List.length_replicate, Nat.zero_add, List.zipIdx_singleton, List.filter_singleton, hb]
  exact congrArg (fun i => [i]) hN

theorem truncated_compiled (N : Nat) :
    ∀ re ∈ List.replicate N (single 0x61) ++ [single 0x62], re.Compiled := by
  intro re hre
  rcases List.mem_append.1 hre with hre | hre
  · exact List.eq_of_mem_replicate hre ▸ single_compiled 0x61
  · exact List.mem_singleton.1 hre ▸ single_compiled 0x62

theorem tryInOrder_truncated (source : SourceDef)
    (ha : (({} : TRegexMatch).tryMatch (single 0x61) [0x62] source 0).1 = false)
    (hb : (({} : TRegexMatch).tryMatch (single 0x62) [0x62] source 0).1 = true) :
    (({} : TRegexMatch).tryInOrder (List.replicate N (single 0x61) ++ [single 0x62]) [0x62] source 0
      (List.range (N + 1))).1 = some N := by
  have hlength : (List.replicate N (single 0x61)).length = N := List.length_replicate ..
  have horder := TRegexMatch.tryInOrder_eq (truncated_compiled N) [0x62] source 0
    (List.range (N + 1)) (m := {}) (.fresh 0)
  rw [horder.1, List.find?_range_eq_some]
  refine ⟨?_, List.mem_range.2 (Nat.lt_succ_self N), fun j hj => ?_⟩
  · rw [TRegexMatch.accepts, List.getElem?_append_right hlength.le, hlength, Nat.sub_self]
    exact hb
  · rw [TRegexMatch.accepts, List.getElem?_append_left (hlength.symm ▸ hj),
      List.getElem?_replicate_of_lt hj, Option.any_some, ha]
    rfl

theorem matchFirst_cut (hN : N % 2 ^ 16 = 0) (hpos : 0 < N) (source : SourceDef)
    (ha : (({} : TRegexMatch).tryMatch (single 0x61) [0x62] source 0).1 = false) :
    ((init (List.replicate N (single 0x61) ++ [single 0x62])).matchFirst {} [0x62] source 0).1 =
      none := by
  have hregexes : (init (List.replicate N (single 0x61) ++ [single 0x62])).regexes =
      List.replicate N (single 0x61) ++ [single 0x62] := regexes_foldl _ _
  have hfirst : (List.replicate N (single 0x61) ++ [single 0x62])[0]? = some (single 0x61) := by
    rw [List.getElem?_append_left (by rw [List.length_replicate]; exact hpos),
      List.getElem?_replicate_of_lt hpos]
  rw [matchFirst, hregexes, candidates_truncated hN, TRegexMatch.tryInOrder, hfirst]
  dsimp only
  generalize TRegexMatch.tryMatch _ _ _ _ _ = result at ha ⊢
  obtain ⟨found, m⟩ := result
  cases ha
  rfl

end Truncated

/-- With 65,537 regexes the index of the last one is cut off. -/
theorem matchFirst_truncated :
    let source : SourceDef := { address := 1, contents := "b" }
    let regexes := List.replicate 65536 (single 0x61) ++ [single 0x62]
    ((init regexes).matchFirst {} (Utf8.encode ['b']) source 0).1 = none ∧
      (({} : TRegexMatch).tryInOrder regexes (Utf8.encode ['b']) source 0 (List.range 65537)).1 =
        some 65536 := by
  intro source regexes
  have ha : (({} : TRegexMatch).tryMatch (single 0x61) [0x62] source 0).1 = false := by
    decide +kernel
  have hb : (({} : TRegexMatch).tryMatch (single 0x62) [0x62] source 0).1 = true := by
    decide +kernel
  have hview : Utf8.encode ['b'] = [0x62] := rfl
  rw [hview]
  exact ⟨matchFirst_cut (by decide) (by decide) source ha, tryInOrder_truncated source ha hb⟩

end TRegexSet

end Trieste.Regex
