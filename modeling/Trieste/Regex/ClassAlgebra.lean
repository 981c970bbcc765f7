import Mathlib.Data.List.TakeWhile
import Trieste.Regex.Syntax

namespace Trieste.Regex
set_option autoImplicit true

def Range.Has (range : Range) (r : Nat) : Prop := range.1 ≤ r ∧ r ≤ range.2

def InRanges (ranges : List Range) (r : Nat) : Prop := ∃ range ∈ ranges, range.Has r

theorem inRanges_cons : InRanges (range :: ranges) r ↔ range.Has r ∨ InRanges ranges r := by
  simp only [InRanges, List.mem_cons, or_and_right, exists_or, exists_eq_left]

theorem inRanges_append : InRanges (ranges ++ ranges') r ↔ InRanges ranges r ∨ InRanges ranges' r := by
  simp only [InRanges, List.mem_append, or_and_right, exists_or]

theorem not_inRanges_nil : ¬ InRanges [] r := nofun

def maxRune : Nat := 0x1FFFFF

def scalarFrom (bound : Nat) : Nat := if 0xD800 ≤ bound ∧ bound < 0xE000 then 0xE000 else bound

/-- Bounds that do not wrap, in order but for surrogates: the ends of a range that has lost all its
runes, which were surrogates, may be the wrong way round. -/
structure Tight (range : Range) : Prop where
  lo : range.1 ≤ maxRune
  hi : range.2 ≤ maxRune
  order : range.1 ≤ scalarFrom (range.2 + 1)

def Separated (ranges : List Range) : Prop := ranges.Pairwise fun a b => a.1 ≤ b.1 ∧ a.2 < b.1

theorem scalarFrom_mono (h : n ≤ m) : scalarFrom n ≤ scalarFrom m := by
  rw [scalarFrom, scalarFrom]
  split <;> split <;> omega

theorem test_foldl_set (runes : List Nat) (bitmap : Bitmap) (hrunes : ∀ i ∈ runes, i < 128)
    (hr : r < 128) :
    (runes.foldl Bitmap.set bitmap).test r = (decide (r ∈ runes) || bitmap.test r) := by
  induction runes generalizing bitmap with
  | nil => rfl
  | cons i runes ih =>
    rw [List.foldl_cons, ih _ fun j hj => hrunes j (List.mem_cons_of_mem _ hj),
      Bitmap.test_set bitmap (hrunes i List.mem_cons_self) hr]
    by_cases hi : i = r
    · simp [hi]
    · have hne : r ≠ i := fun heq => hi heq.symm
      simp [hi, hne]

theorem mem_asciiRunes (range : Range) (hr : r < 128) : r ∈ asciiRunes range ↔ range.Has r := by
  rw [asciiRunes, Range.Has]
  split
  · exact iff_of_false List.not_mem_nil (by omega)
  · rw [List.mem_range'_1]
    split <;> omega

theorem lt_of_mem_asciiRunes (h : r ∈ asciiRunes range) : r < 128 := by
  rw [asciiRunes] at h
  split at h
  · cases h
  · rw [List.mem_range'_1] at h
    split at h <;> omega

theorem test_asciiBitmapOf (ranges : List Range) (hr : r < 128) :
    (asciiBitmapOf ranges).test r = true ↔ InRanges ranges r := by
  have hfold : ∀ bitmap : Bitmap,
      (ranges.foldl (fun bitmap range => (asciiRunes range).foldl Bitmap.set bitmap) bitmap).test r =
        true ↔ InRanges ranges r ∨ bitmap.test r = true := by
    induction ranges with
    | nil => exact fun bitmap => (or_iff_right not_inRanges_nil).symm
    | cons range ranges ih =>
      intro bitmap
      rw [List.foldl_cons, ih, test_foldl_set _ _ (fun i hi => lt_of_mem_asciiRunes hi) hr,
        Bool.or_eq_true, decide_eq_true_eq, mem_asciiRunes range hr, inRanges_cons]
      tauto
  rw [asciiBitmapOf, hfold, Bitmap.test_empty]
  exact or_iff_left Bool.false_ne_true

def rangeBefore (ranges : List Range) (r : Nat) : Option Range :=
  (ranges.takeWhile fun range => !decide (r < range.1)).getLast?

theorem rangeBefore_cons (range : Range) (ranges : List Range) (h : range.1 ≤ r) :
    rangeBefore (range :: ranges) r = some ((rangeBefore ranges r).getD range) := by
  rw [rangeBefore, List.takeWhile_cons, if_pos (by simp [h]), List.getLast?_cons]
  rfl

theorem Separated.tail (h : Separated (range :: ranges)) : Separated ranges :=
  (List.pairwise_cons.1 h).2

theorem rangeBefore_eq_none (h : Separated (range :: ranges))
    (hnone : rangeBefore ranges r = none) : ∀ range ∈ ranges, r < range.1 := by
  cases ranges with
  | nil => exact nofun
  | cons next rest =>
    by_cases hr : next.1 ≤ r
    · rw [rangeBefore_cons next rest hr] at hnone
      cases hnone
    · intro range' hrange
      rcases List.mem_cons.1 hrange with rfl | hrange
      · omega
      · have hle := ((List.pairwise_cons.1 h.tail).1 range' hrange).1
        omega

theorem rangeBefore_iff (h : Separated ranges) (r : Nat) :
    (rangeBefore ranges r).any (fun range => decide (range.1 ≤ r) && decide (r ≤ range.2)) = true ↔
      InRanges ranges r := by
  induction ranges with
  | nil => exact iff_of_false Bool.false_ne_true not_inRanges_nil
  | cons range ranges ih =>
    obtain ⟨hfirst, htail⟩ := List.pairwise_cons.1 h
    rw [inRanges_cons]
    by_cases hr : range.1 ≤ r
    · rw [rangeBefore_cons range ranges hr]
      cases hbefore : rangeBefore ranges r with
      | none =>
        have hnone := rangeBefore_eq_none h hbefore
        have hrest : ¬ InRanges ranges r := by
          intro hin
          obtain ⟨range', hrange, hle, -⟩ := hin
          exact absurd (hnone range' hrange) (by omega)
        rw [or_iff_left hrest, Range.Has]
        simp [hr]
      | some next =>
        have hmem : next ∈ ranges.takeWhile fun range => !decide (r < range.1) :=
          List.mem_of_getLast? hbefore
        have hle : next.1 ≤ r := by
          have hnot := List.mem_takeWhile_imp hmem
          simpa using hnot
        have hlt := (hfirst next ((List.takeWhile_prefix _).subset hmem)).2
        have hhas : ¬ range.Has r := fun hhas => absurd hhas.2 (by omega)
        rw [or_iff_right hhas, ← ih htail, hbefore]
        rfl
    · have hnone : rangeBefore (range :: ranges) r = none := by
        rw [rangeBefore, List.takeWhile_cons, if_neg (by simpa using hr)]
        rfl
      rw [hnone]
      refine iff_of_false Bool.false_ne_true fun hin => ?_
      rcases hin with hhas | ⟨range', hrange, hle, -⟩
      · exact hr hhas.1
      · have hfirst' := (hfirst range' hrange).1
        omega

theorem contains_iff {c : RuneClass} (hbitmap : c.asciiBitmap = asciiBitmapOf c.ranges)
    (h : Separated c.ranges) (r : Nat) : c.contains r = true ↔ InRanges c.ranges r := by
  rw [RuneClass.contains]
  by_cases hr : r < 128
  · rw [isAscii, if_pos (decide_eq_true hr), hbitmap]
    exact test_asciiBitmapOf c.ranges hr
  · rw [if_neg (by simpa [isAscii] using hr), ← rangeBefore_iff h, rangeBefore]
    cases (c.ranges.takeWhile fun range => !decide (r < range.1)).getLast? <;> rfl

def StartsSorted (ranges : List Range) : Prop := ranges.Pairwise fun a b => a.1 ≤ b.1

theorem inRanges_mergeRanges (back : Range) (ranges : List Range)
    (h : StartsSorted (back :: ranges)) (r : Nat) :
    InRanges (RuneClass.mergeRanges back ranges) r ↔ InRanges (back :: ranges) r := by
  induction ranges generalizing back with
  | nil => exact Iff.rfl
  | cons range ranges ih =>
    obtain ⟨hback, htail⟩ := List.pairwise_cons.1 h
    have hle := hback range List.mem_cons_self
    rw [RuneClass.mergeRanges]
    split
    · -- a range that starts right behind the one before is joined to it
      have hsorted : StartsSorted ((back.1, max back.2 range.2) :: ranges) :=
        List.pairwise_cons.2 ⟨fun next hnext => hback next (List.mem_cons_of_mem _ hnext),
          (List.pairwise_cons.1 htail).2⟩
      have hjoin : Range.Has (back.1, max back.2 range.2) r ↔ back.Has r ∨ range.Has r := by
        simp only [Range.Has]
        omega
      rw [ih _ hsorted, inRanges_cons, inRanges_cons, inRanges_cons, hjoin, or_assoc]
    · rw [inRanges_cons, ih _ htail]
      exact inRanges_cons.symm

theorem mem_mergeRanges {back : Range} {ranges : List Range} (h : StartsSorted (back :: ranges))
    (hrange : range ∈ RuneClass.mergeRanges back ranges) : back.1 ≤ range.1 := by
  induction ranges generalizing back with
  | nil =>
    rw [List.mem_singleton.1 hrange]
  | cons next ranges ih =>
    obtain ⟨hback, htail⟩ := List.pairwise_cons.1 h
    rw [RuneClass.mergeRanges] at hrange
    split at hrange
    · have hsorted : StartsSorted ((back.1, max back.2 next.2) :: ranges) :=
        List.pairwise_cons.2 ⟨fun next' hnext => hback next' (List.mem_cons_of_mem _ hnext),
          (List.pairwise_cons.1 htail).2⟩
      have hle := ih hsorted hrange
      exact hle
    · rcases List.mem_cons.1 hrange with rfl | hrange
      · exact Nat.le_refl _
      · exact Nat.le_trans (hback next List.mem_cons_self) (ih htail hrange)

theorem separated_mergeRanges (back : Range) (ranges : List Range)
    (h : StartsSorted (back :: ranges)) : Separated (RuneClass.mergeRanges back ranges) := by
  induction ranges generalizing back with
  | nil => exact List.pairwise_singleton _ _
  | cons range ranges ih =>
    obtain ⟨hback, htail⟩ := List.pairwise_cons.1 h
    rw [RuneClass.mergeRanges]
    split
    · apply ih
      exact List.pairwise_cons.2 ⟨fun next hnext => hback next (List.mem_cons_of_mem _ hnext),
        (List.pairwise_cons.1 htail).2⟩
    · refine List.pairwise_cons.2 ⟨fun next hnext => ?_, ih _ htail⟩
      have hle := hback range List.mem_cons_self
      have hle' := mem_mergeRanges htail hnext
      omega

theorem tight_mergeRanges {back : Range} {ranges : List Range}
    (h : ∀ range ∈ back :: ranges, Tight range) :
    ∀ range ∈ RuneClass.mergeRanges back ranges, Tight range := by
  induction ranges generalizing back with
  | nil => exact h
  | cons range ranges ih =>
    obtain ⟨hback, hrest⟩ := List.forall_mem_cons.1 h
    obtain ⟨hrange, hranges⟩ := List.forall_mem_cons.1 hrest
    rw [RuneClass.mergeRanges]
    split
    · refine ih (List.forall_mem_cons.2 ⟨⟨hback.lo, max_le hback.hi hrange.hi, ?_⟩, hranges⟩)
      have horder := hback.order
      exact Nat.le_trans horder (scalarFrom_mono (Nat.succ_le_succ (Nat.le_max_left _ _)))
    · exact List.forall_mem_cons.2 ⟨hback, ih hrest⟩

/-- What `finalize` and `complement` leave. -/
structure Finished (c : RuneClass) : Prop where
  bitmap : c.asciiBitmap = asciiBitmapOf c.ranges
  separated : Separated c.ranges
  tight : ∀ range ∈ c.ranges, Tight range

theorem Finished.contains (h : Finished c) (r : Nat) : c.contains r = true ↔ InRanges c.ranges r :=
  contains_iff h.bitmap h.separated r

theorem startsSorted_insertionSort (ranges : List Range) :
    StartsSorted (ranges.insertionSort (Range.le · ·)) := by
  have htotal : Std.Total fun a b : Range => Range.le a b = true := ⟨fun a b => by
    simp only [Range.le, Bool.or_eq_true, Bool.and_eq_true, decide_eq_true_eq, beq_iff_eq]
    omega⟩
  have htrans : IsTrans Range fun a b => Range.le a b = true := ⟨fun a b c hab hbc => by
    simp only [Range.le, Bool.or_eq_true, Bool.and_eq_true, decide_eq_true_eq, beq_iff_eq] at *
    omega⟩
  apply (List.pairwise_insertionSort (Range.le · ·) ranges).imp
  intro a b hab
  simp only [Range.le, Bool.or_eq_true, Bool.and_eq_true, decide_eq_true_eq, beq_iff_eq] at hab
  omega

theorem separated_short (h : ranges.length ≤ 1) : Separated ranges := by
  cases ranges with
  | nil => exact .nil
  | cons range rest =>
    obtain rfl : rest = [] := List.eq_nil_of_length_eq_zero (Nat.le_zero.1 (Nat.le_of_succ_le_succ h))
    exact List.pairwise_singleton _ _

theorem finished_finalize (c : RuneClass) (h : ∀ range ∈ c.ranges, Tight range) :
    Finished c.finalize ∧ ∀ r, InRanges c.finalize.ranges r ↔ InRanges c.ranges r := by
  rw [RuneClass.finalize]
  split
  · next hlen => exact ⟨⟨rfl, separated_short hlen, h⟩, fun r => Iff.rfl⟩
  · next hlen =>
    have hperm := List.perm_insertionSort (Range.le · ·) c.ranges
    have hsorted := startsSorted_insertionSort c.ranges
    cases hsort : c.ranges.insertionSort (Range.le · ·) with
    | nil =>
      rw [hsort] at hperm
      have hnil : c.ranges = [] := List.nil_perm.1 hperm
      rw [hnil] at hlen
      exact absurd (Nat.zero_le 1) hlen
    | cons first rest =>
      rw [hsort] at hperm hsorted
      refine ⟨⟨rfl, separated_mergeRanges first rest hsorted,
        tight_mergeRanges fun range hrange => h range (hperm.mem_iff.1 hrange)⟩, fun r => ?_⟩
      refine (inRanges_mergeRanges first rest hsorted r).trans ?_
      simp only [InRanges, hperm.mem_iff]

theorem inRanges_gap (lo hi : Nat) (hr : r.isValidChar) :
    InRanges (RuneClass.addGapExcludingSurrogates lo hi) r ↔ lo ≤ r ∧ r ≤ hi := by
  rw [RuneClass.addGapExcludingSurrogates]
  rcases hr with hr | hr
  all_goals
    split
    · split
      · simp [InRanges, Range.Has]
      · split <;> simp [InRanges, Range.Has] <;> omega
    · split
      · simp [InRanges, Range.Has]
        omega
      · simp [InRanges, Range.Has]

theorem mem_gap (h : lo ≤ hi) (hrange : range ∈ RuneClass.addGapExcludingSurrogates lo hi) :
    scalarFrom lo ≤ range.1 ∧ (range.1 = scalarFrom lo ∨ range.1 = 0xE000 ∧ 0xE000 ≤ hi) ∧
      range.2 ≤ hi ∧ range.1 ≤ scalarFrom (range.2 + 1) := by
  have hcases : range = (lo, hi) ∧ (hi < 0xD800 ∨ 0xE000 ≤ lo) ∨
      range = (lo, 0xD7FF) ∧ lo < 0xD800 ∧ 0xD800 ≤ hi ∨
      range = (0xE000, hi) ∧ lo < 0xE000 ∧ 0xD800 ≤ hi ∧ (0xD800 ≤ lo ∨ 0xE000 ≤ hi) := by
    rw [RuneClass.addGapExcludingSurrogates] at hrange
    split at hrange
    · split at hrange
      · exact .inl ⟨List.mem_singleton.1 hrange, .inl ‹_›⟩
      · rcases List.mem_cons.1 hrange with rfl | hrange
        · exact .inr (.inl ⟨rfl, ‹_›, Nat.not_lt.1 ‹_›⟩)
        · split at hrange
          · exact .inr (.inr ⟨List.mem_singleton.1 hrange, by omega, by omega, by omega⟩)
          · cases hrange
    · split at hrange
      · exact .inr (.inr ⟨List.mem_singleton.1 hrange, ‹_›, by omega, by omega⟩)
      · exact .inl ⟨List.mem_singleton.1 hrange, by omega⟩
  simp only [scalarFrom]
  rcases hcases with ⟨rfl, hcase⟩ | ⟨rfl, hlo, hhi⟩ | ⟨rfl, hlo, hhi, hcase⟩
  all_goals
    dsimp only
    split_ifs <;> omega

theorem tight_gap (h : lo ≤ hi) (hhi : hi ≤ maxRune) :
    ∀ range ∈ RuneClass.addGapExcludingSurrogates lo hi, Tight range := by
  intro range hrange
  obtain ⟨-, hstart, hstop, horder⟩ := mem_gap h hrange
  refine ⟨?_, Nat.le_trans hstop hhi, horder⟩
  have hmax : (0xE000 : Nat) ≤ maxRune := by decide
  rw [scalarFrom] at hstart
  split at hstart <;> omega

theorem separated_gap (lo hi : Nat) : Separated (RuneClass.addGapExcludingSurrogates lo hi) := by
  rw [RuneClass.addGapExcludingSurrogates]
  split
  · split
    · exact List.pairwise_singleton _ _
    · split
      · have hsurrogates : (0xD7FF : Nat) < 0xE000 := by decide
        exact List.pairwise_pair.2 ⟨by omega, hsurrogates⟩
      · exact List.pairwise_singleton _ _
  · split <;> exact List.pairwise_singleton _ _

/-- What the ranges of a class have to be for `complement`, from a bound on. -/
structure From (prev : Nat) (ranges : List Range) : Prop where
  separated : Separated ranges
  tight : ∀ range ∈ ranges, Tight range
  starts : ∀ range ∈ ranges, prev ≤ range.1

theorem From.tail (h : From prev (range :: ranges)) : From (range.2 + 1) ranges where
  separated := h.separated.tail
  tight := fun next hnext => h.tight next (List.mem_cons_of_mem _ hnext)
  starts := fun next hnext => ((List.pairwise_cons.1 h.separated).1 next hnext).2

theorem inRanges_gaps (h : From prev ranges) (hr : r.isValidChar) :
    InRanges (RuneClass.gaps prev ranges) r ↔ prev ≤ r ∧ ¬ InRanges ranges r := by
  induction ranges generalizing prev with
  | nil =>
    have hmax : r ≤ 0x10FFFF := by
      rcases hr with hr | hr <;> omega
    rw [RuneClass.gaps, and_iff_left not_inRanges_nil]
    split
    · rw [inRanges_gap _ _ hr, and_iff_left hmax]
    · exact iff_of_false not_inRanges_nil (by omega)
  | cons range ranges ih =>
    have hgap : InRanges (if prev < range.1 then
        RuneClass.addGapExcludingSurrogates prev (range.1 - 1) else []) r ↔
          prev ≤ r ∧ r < range.1 := by
      split
      · rw [inRanges_gap _ _ hr]
        omega
      · exact iff_of_false not_inRanges_nil (by omega)
    have horder := (h.tight range List.mem_cons_self).order
    have hstart := h.starts range List.mem_cons_self
    have hrest : r < range.1 → ¬ InRanges ranges r := by
      intro hlt hin
      obtain ⟨next, hnext, hle, -⟩ := hin
      have hsorted := ((List.pairwise_cons.1 h.separated).1 next hnext).1
      omega
    have hstop : range.2 + 1 ≤ r → range.1 ≤ r := by
      intro hle
      rw [scalarFrom] at horder
      rcases hr with hr | hr <;> split at horder <;> omega
    rw [RuneClass.gaps, inRanges_append, hgap, ih h.tail, inRanges_cons, Range.Has, not_or]
    constructor
    · intro hcases
      rcases hcases with ⟨hle, hlt⟩ | ⟨hle, hnot⟩
      · exact ⟨hle, fun hhas => absurd hhas.1 (by omega), hrest hlt⟩
      · exact ⟨Nat.le_trans hstart (hstop hle), fun hhas => absurd hhas.2 (by omega), hnot⟩
    · intro hboth
      obtain ⟨hle, hhas, hnot⟩ := hboth
      by_cases hlt : r < range.1
      · exact .inl ⟨hle, hlt⟩
      · exact .inr ⟨by omega, hnot⟩

theorem mem_gaps (h : From prev ranges) (hrange : range ∈ RuneClass.gaps prev ranges) :
    scalarFrom prev ≤ range.1 ∧ Tight range := by
  induction ranges generalizing prev with
  | nil =>
    rw [RuneClass.gaps] at hrange
    split at hrange
    · exact ⟨(mem_gap ‹_› hrange).1, tight_gap ‹_› (by decide) range hrange⟩
    · cases hrange
  | cons next ranges ih =>
    have htight := h.tight next List.mem_cons_self
    rw [RuneClass.gaps] at hrange
    rcases List.mem_append.1 hrange with hrange | hrange
    · split at hrange
      · have hle : prev ≤ next.1 - 1 := by omega
        have hmax : next.1 - 1 ≤ maxRune := Nat.le_trans (Nat.sub_le _ _) htight.lo
        exact ⟨(mem_gap hle hrange).1, tight_gap hle hmax range hrange⟩
      · cases hrange
    · obtain ⟨hstart, htight'⟩ := ih h.tail hrange
      refine ⟨?_, htight'⟩
      have hprev := h.starts next List.mem_cons_self
      have horder := htight.order
      have hmono := scalarFrom_mono (Nat.le_trans hprev horder)
      have hidem : scalarFrom (scalarFrom (next.2 + 1)) = scalarFrom (next.2 + 1) := by
        simp only [scalarFrom]
        split_ifs <;> omega
      omega

theorem separated_gaps (h : From prev ranges) : Separated (RuneClass.gaps prev ranges) := by
  induction ranges generalizing prev with
  | nil =>
    rw [RuneClass.gaps]
    split
    · exact separated_gap _ _
    · exact .nil
  | cons next ranges ih =>
    rw [RuneClass.gaps]
    refine List.pairwise_append.2 ⟨?_, ih h.tail, fun range hrange range' hrange' => ?_⟩
    · split
      · exact separated_gap _ _
      · exact .nil
    · have horder := (h.tight next List.mem_cons_self).order
      have hstart := (mem_gaps h.tail hrange').1
      split at hrange
      · have hgap := mem_gap (by omega : prev ≤ next.1 - 1) hrange
        simp only [scalarFrom] at hgap horder hstart
        split_ifs at hgap horder hstart <;> omega
      · cases hrange

theorem finished_complement (h : Finished c) : Finished c.complement ∧
    ∀ r, r.isValidChar → (InRanges c.complement.ranges r ↔ ¬ InRanges c.ranges r) := by
  have hfrom : From 0 c.ranges := ⟨h.separated, h.tight, fun range _ => Nat.zero_le _⟩
  refine ⟨⟨rfl, separated_gaps hfrom, fun range hrange => (mem_gaps hfrom hrange).2⟩, fun r hr => ?_⟩
  exact (inRanges_gaps hfrom hr).trans (and_iff_right (Nat.zero_le r))

/-- How a class is built. What is complemented is finished first, and what is merged may be
finished or not. -/
inductive ClassTerm where
  | empty
  | addRange (term : ClassTerm) (lo hi : Nat) (h : lo ≤ hi ∧ hi ≤ maxRune)
  | merge (term other : ClassTerm)
  | finalize (term : ClassTerm)
  | complement (term : ClassTerm)

namespace ClassTerm

def build : ClassTerm → RuneClass
  | empty => {}
  | addRange term lo hi _ => term.build.addRange lo hi
  | merge term other => term.build.merge other.build
  | finalize term => term.build.finalize
  | complement term => term.build.finalize.complement

def Has : ClassTerm → Nat → Prop
  | empty, _ => False
  | addRange term lo hi _, r => term.Has r ∨ lo ≤ r ∧ r ≤ hi
  | merge term other, r => term.Has r ∨ other.Has r
  | finalize term, r => term.Has r
  | complement term, r => ¬ term.Has r

theorem ranges_build (term : ClassTerm) : (∀ range ∈ term.build.ranges, Tight range) ∧
    ∀ r, r.isValidChar → (InRanges term.build.ranges r ↔ term.Has r) := by
  induction term with
  | empty => exact ⟨nofun, fun r _ => iff_of_false not_inRanges_nil id⟩
  | addRange term lo hi h ih =>
    constructor
    · intro range hrange
      rcases List.mem_append.1 hrange with hrange | hrange
      · exact ih.1 range hrange
      · rw [List.mem_singleton.1 hrange]
        refine ⟨Nat.le_trans h.1 h.2, h.2, ?_⟩
        rw [scalarFrom]
        split <;> omega
    · intro r hr
      refine inRanges_append.trans (or_congr (ih.2 r hr) ?_)
      rw [inRanges_cons, or_iff_left not_inRanges_nil]
      exact Iff.rfl
  | merge term other ih ihOther =>
    exact ⟨fun range hrange => (List.mem_append.1 hrange).elim (ih.1 range) (ihOther.1 range),
      fun r hr => inRanges_append.trans (or_congr (ih.2 r hr) (ihOther.2 r hr))⟩
  | finalize term ih =>
    obtain ⟨hfinished, hin⟩ := finished_finalize term.build ih.1
    exact ⟨hfinished.tight, fun r hr => (hin r).trans (ih.2 r hr)⟩
  | complement term ih =>
    obtain ⟨hfinished, hin⟩ := finished_finalize term.build ih.1
    obtain ⟨hcomplement, hnot⟩ := finished_complement hfinished
    exact ⟨hcomplement.tight, fun r hr =>
      (hnot r hr).trans (not_congr ((hin r).trans (ih.2 r hr)))⟩

/-- A finished class has the scalar values that were added, and its complement the others. -/
theorem contains_build (term : ClassTerm) (c : Char) :
    (term.build.finalize.contains c.toNat = true ↔ term.Has c.toNat) ∧
      term.build.finalize.complement.contains c.toNat =
        !term.build.finalize.contains c.toNat := by
  have hr : c.toNat.isValidChar := c.valid
  obtain ⟨htight, hin⟩ := term.ranges_build
  obtain ⟨hfinished, hfinal⟩ := finished_finalize term.build htight
  obtain ⟨hcomplement, hnot⟩ := finished_complement hfinished
  constructor
  · rw [hfinished.contains, hfinal, hin _ hr]
  · rw [Bool.eq_iff_iff, Bool.not_eq_true', ← Bool.not_eq_true, hcomplement.contains,
      hfinished.contains]
    exact hnot _ hr

end ClassTerm

end Trieste.Regex
