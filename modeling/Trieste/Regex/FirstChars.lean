import Trieste.Regex.Capturing
import Trieste.Regex.Reuse

namespace Trieste.Regex
set_option autoImplicit true
open Library Relation

namespace Bitmap

def full : Bitmap := ⟨~~~0, ~~~0⟩

def or (b b' : Bitmap) : Bitmap := ⟨b.word0 ||| b'.word0, b.word1 ||| b'.word1⟩

theorem test_or (b b' : Bitmap) (i : Nat) : (b.or b').test i = (b.test i || b'.test i) := by
  have hword : (b.or b').word i = b.word i ||| b'.word i := by
    unfold word
    split <;> rfl
  rw [test_eq, test_eq, test_eq, hword, BitVec.getLsbD_or]

end Bitmap

/-- What a match can start with. -/
structure FirstCharInfo where
  bitmap : Bitmap := {}
  canMatchEmpty : Bool := false
  canMatchNonascii : Bool := false

namespace FirstCharInfo

def maximal : FirstCharInfo where
  bitmap := .full
  canMatchEmpty := true
  canMatchNonascii := true

def test (info : FirstCharInfo) (byte : UInt8) : Bool :=
  if !isAscii byte.toNat then info.canMatchNonascii else info.bitmap.test byte.toNat

end FirstCharInfo

namespace RegexEngine

/-- One state of a closure in `compute_first_char_info`. -/
def addFirstChars (e : RegexEngine) (info : FirstCharInfo) (s : State) : FirstCharInfo :=
  if s = acceptState then { info with canMatchEmpty := true }
  else
    match e.ownedStates[s]? with
    | none => info
    | some d =>
      let nonascii :=
        if isClassRef d.label then
          (e.runeClasses.getD (classRefIndex d.label) {}).ranges.any fun range => 128 ≤ range.2
        else 128 ≤ d.label && d.label != matchLabel
      { info with
        bitmap := info.bitmap.or d.asciiAccept
        canMatchNonascii := info.canMatchNonascii || nonascii }

/-- The flags of a combination; without conditional states there is one. -/
def firstCharFlags (e : RegexEngine) (combo : Nat) : Flags where
  boundary := e.hasConditionals && (flagsOf combo).boundary
  atStart := if e.hasConditionals then (flagsOf combo).atStart else true
  atEnd := e.hasConditionals && (flagsOf combo).atEnd

/-- `compute_first_char_info`, the last step of the constructor. -/
def firstCharInfo (e : RegexEngine) : FirstCharInfo :=
  if !e.ok then .maximal
  else
    (List.range e.numFlagCombos).foldl
      (fun info combo =>
        (e.epsilonClosureCached e.startState (e.firstCharFlags combo)).foldl e.addFirstChars info) {}

end RegexEngine

namespace FirstCharInfo

/-- The second holds whatever the first does. -/
structure Le (info info' : FirstCharInfo) : Prop where
  bitmap : ∀ i, info.bitmap.test i = true → info'.bitmap.test i = true
  empty : info.canMatchEmpty = true → info'.canMatchEmpty = true
  nonascii : info.canMatchNonascii = true → info'.canMatchNonascii = true

theorem Le.refl (info : FirstCharInfo) : info.Le info := ⟨fun _ => id, id, id⟩

theorem Le.trans {a b c : FirstCharInfo} (h : a.Le b) (h' : b.Le c) : a.Le c :=
  ⟨fun i hi => h'.bitmap i (h.bitmap i hi), fun he => h'.empty (h.empty he),
    fun hn => h'.nonascii (h.nonascii hn)⟩

theorem Le.foldl {f : FirstCharInfo → α → FirstCharInfo} (hf : ∀ info a, Le info (f info a))
    (l : List α) (info : FirstCharInfo) : info.Le (l.foldl f info) := by
  induction l generalizing info with
  | nil => exact .refl info
  | cons a l ih => exact (hf info a).trans (ih (f info a))

theorem Le.foldl_mem {f : FirstCharInfo → α → FirstCharInfo} (hf : ∀ info a, Le info (f info a))
    {l : List α} (ha : a ∈ l) (info : FirstCharInfo) : ∃ info', (f info' a).Le (l.foldl f info) := by
  induction l generalizing info with
  | nil => cases ha
  | cons b l ih =>
    rcases List.mem_cons.1 ha with rfl | ha
    · exact ⟨info, .foldl hf l _⟩
    · exact ih ha (f info b)

def allows (info : FirstCharInfo) (rune : Nat) : Bool :=
  if rune < 128 then info.bitmap.test rune else info.canMatchNonascii

/-- The state matches the empty text or only runes that are allowed. -/
structure Covers (info : FirstCharInfo) (e : RegexEngine) (s : State) : Prop where
  empty : s = acceptState → info.canMatchEmpty = true
  allows : s ≠ acceptState → ∀ d rune, e.ownedStates[s]? = some d → e.consumes d rune = true →
    rune ≠ matchLabel → info.allows rune = true

theorem Covers.mono (h : Covers info e s) (hle : info.Le info') : Covers info' e s := by
  refine ⟨fun hs => hle.empty (h.empty hs), fun hs d rune hd hc hr => ?_⟩
  have hallows := h.allows hs d rune hd hc hr
  unfold FirstCharInfo.allows at *
  split at hallows
  · next hlt =>
    rw [if_pos hlt]
    exact hle.bitmap rune hallows
  · next hlt =>
    rw [if_neg hlt]
    exact hle.nonascii hallows

end FirstCharInfo

theorem RuneClass.exists_range {c : RuneClass} (h : c.contains rune = true) (hrune : 128 ≤ rune) :
    (c.ranges.any fun range => 128 ≤ range.2) = true := by
  have hascii : isAscii rune = false := decide_eq_false (Nat.not_lt.2 hrune)
  rw [RuneClass.contains, hascii, if_neg Bool.false_ne_true] at h
  split at h
  · cases h
  · next range hlast =>
    have hmem := (List.takeWhile_prefix _).subset (List.mem_of_getLast? hlast)
    rw [Bool.and_eq_true, decide_eq_true_eq, decide_eq_true_eq] at h
    exact List.any_eq_true.2 ⟨range, hmem, decide_eq_true (hrune.trans h.2)⟩

namespace RegexEngine

theorem addFirstChars_le (e : RegexEngine) (info : FirstCharInfo) (s : State) :
    info.Le (e.addFirstChars info s) := by
  unfold addFirstChars
  split
  · exact ⟨fun _ => id, fun _ => rfl, id⟩
  · split
    · exact .refl info
    · refine ⟨fun i hi => ?_, id, fun hn => ?_⟩
      · rw [Bitmap.test_or, hi, Bool.true_or]
      · dsimp only
        rw [hn, Bool.true_or]

theorem addFirstChars_covers (e : RegexEngine) (info : FirstCharInfo) (s : State) :
    (e.addFirstChars info s).Covers e s := by
  unfold addFirstChars
  refine ⟨fun hs => ?_, fun hs d rune hd hc hr => ?_⟩
  · rw [if_pos hs]
  · rw [if_neg hs, hd]
    unfold FirstCharInfo.allows
    unfold consumes at hc
    split at hc
    · next hlt =>
      rw [if_pos hlt, Bitmap.test_or, hc, Bool.or_true]
    · next hlt =>
      rw [if_neg hlt]
      have hge := Nat.le_of_not_lt hlt
      split at hc
      · next hclass =>
        dsimp only
        rw [if_pos hclass, RuneClass.exists_range hc hge, Bool.or_true]
      · next hclass =>
        obtain rfl : d.label = rune := eq_of_beq hc
        dsimp only
        rw [if_neg hclass, decide_eq_true hge, bne_iff_ne.2 hr, Bool.and_true, Bool.or_true]

theorem exists_combo (e : RegexEngine) (s : State) (flags : Flags) :
    ∃ combo, combo < e.numFlagCombos ∧ e.epsilonClosureCached s (e.firstCharFlags combo) =
      e.epsilonClosureCached s (e.mask flags) := by
  rcases e.mask_eq flags with ⟨hc, hm⟩ | ⟨hc, hm⟩
  · refine ⟨closureFlags flags, ?_, ?_⟩
    · rw [numFlagCombos, if_pos hc]
      exact closureFlags_lt flags
    · rw [hm, firstCharFlags, hc, flagsOf_closureFlags]
      rfl
  · refine ⟨0, ?_, ?_⟩
    · rw [numFlagCombos, hc, if_neg Bool.false_ne_true]
      exact Nat.zero_lt_one
    · simp only [epsilonClosureCached, hc, Bool.false_eq_true, if_false]

/-- What is computed covers the closure of the start state under any flags. -/
theorem firstCharInfo_covers {e : RegexEngine} (hready : e.Ready classes)
    (h : InClosure e.ownedStates flags e.startState s) : e.firstCharInfo.Covers e s := by
  obtain ⟨combo, hcombo, heq⟩ := e.exists_combo e.startState flags
  have hmem : s ∈ e.epsilonClosureCached e.startState (e.firstCharFlags combo) := by
    rw [heq]
    exact (hready.cached e.startState flags s).2 h
  rw [firstCharInfo, hready.ok, Bool.not_true, if_neg Bool.false_ne_true]
  have hclosure : ∀ info combo, FirstCharInfo.Le info
      ((e.epsilonClosureCached e.startState (e.firstCharFlags combo)).foldl e.addFirstChars info) :=
    fun info combo => .foldl e.addFirstChars_le _ info
  obtain ⟨info, hle⟩ := FirstCharInfo.Le.foldl_mem hclosure (List.mem_range.2 hcombo) {}
  obtain ⟨info', hle'⟩ := FirstCharInfo.Le.foldl_mem e.addFirstChars_le hmem info
  exact (e.addFirstChars_covers info' s).mono (hle'.trans hle)

end RegexEngine

/-- The first rune of a path is one that a state in the closure of the start state consumes. -/
theorem Entry.first (h : Entry e x b (k + 1) t) :
    ∃ s d r, InClosure e.ownedStates (x.flagsAt b) e.startState s ∧
      e.ownedStates[s]? = some d ∧ x.runes[b]? = some r ∧ accepts x.classes d.label r = true := by
  induction k generalizing t with
  | zero =>
    obtain ⟨s, d, r, ⟨u, rfl, hclosure⟩, hd, hr, haccepts, -⟩ := h
    exact ⟨s, d, r, hclosure, hd, hr, haccepts⟩
  | succ k ih =>
    obtain ⟨s, d, r, ⟨u, hu, -⟩, -⟩ := h
    exact ih hu

/-- A match of the empty text is announced, and so is the first rune of any other. -/
theorem firstCharInfo_active {e : RegexEngine} (hready : e.Ready classes)
    (hclasses : x.classes = classes) (hactive : Active e x b k acceptState) :
    e.firstCharInfo.canMatchEmpty = true ∨ ∃ r, x.runes[b]? = some r ∧
      (r ≠ matchLabel → e.firstCharInfo.allows r = true) := by
  obtain ⟨t, hentry, hclosure⟩ := hactive
  cases k with
  | zero =>
    obtain rfl : t = e.startState := hentry
    exact .inl ((RegexEngine.firstCharInfo_covers hready hclosure).empty rfl)
  | succ k =>
    obtain ⟨s, d, r, hclosure, hd, hr, haccepts⟩ := hentry.first
    have hcovers := RegexEngine.firstCharInfo_covers hready hclosure
    by_cases hs : s = acceptState
    · exact .inl (hcovers.empty hs)
    · refine .inr ⟨r, hr, fun hne => hcovers.allows hs d r hd ?_ hne⟩
      rw [hready.consumes d r (List.mem_of_getElem? hd), ← hclasses]
      exact haccepts

/-- A call that finds a match has come to the accept state. -/
theorem findPrefixWithContext_active (hok : (RegexEngine.compile tokens classes n).ok = true)
    (hclasses : x.classes = classes) (hx : x.Shows b s atStart prevIsWord)
    (hctx : ctx.visited.Valid) (self : Nat)
    (h : ((RegexEngine.compile tokens classes n).findPrefixWithContext self s ctx atStart
      prevIsWord).1 = some len) :
    ∃ k, k ≤ (runes s).length ∧ len = offset s k ∧
      Active (.compile tokens classes n) x b k acceptState := by
  have hready := RegexEngine.compile_ready hok
  rcases Nat.eq_zero_or_pos (RegexEngine.compile tokens classes n).numCaptures with hn | hn
  · have hfits : ArenaFits (.compile tokens classes n) x b := by
      rw [ArenaFits, hn, Nat.mul_zero, Nat.zero_mul]
      exact Nat.zero_le _
    have hbest := findPrefixWithContext_best hready hclasses hx hctx hfits self
    rw [h] at hbest
    obtain ⟨k, hk, hlen, hactive, -⟩ := hbest
    exact ⟨k, hk, hlen, hactive⟩
  · obtain ⟨k, spans, passed, hk, hlen, hpath, -⟩ :=
      (findPrefixWithContext_spec hready hclasses hn hx hctx self).1 len h
    refine ⟨k, hk, hlen, (active_iff _ x b k acceptState).2 ⟨?_, ?_⟩⟩
    · exact RecordStep.reaches (CaptureStep.records hpath)
    · exact RegexEngine.compile_terminal hok _

end Trieste.Regex
