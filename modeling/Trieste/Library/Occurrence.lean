import Mathlib.Data.List.Infix

namespace Trieste.Library
set_option autoImplicit true

section
variable [DecidableEq α] (find replace : List α)

def firstOccurrence : List α → Option Nat
  | [] => if find = [] then some 0 else none
  | c :: s => if find <+: c :: s then some 0 else (firstOccurrence s).map (· + 1)

/-- The occurrences from left to right that do not overlap are replaced, after some characters that
belong to an occurrence. -/
def replaceEach : Nat → List α → List α
  | _, [] => []
  | skip + 1, _ :: s => replaceEach skip s
  | 0, c :: s =>
    if find <+: c :: s then replace ++ replaceEach (find.length - 1) s else c :: replaceEach 0 s

/-- The text with its first occurrence replaced. -/
def replaceFirst (s : List α) : Option (List α) :=
  (firstOccurrence find s).map fun pos => s.take pos ++ replace ++ s.drop (pos + find.length)

/-- The first occurrence is replaced until there is none. -/
def replaceLoop : Nat → List α → Option (List α)
  | 0, _ => none
  | fuel + 1, s =>
    match replaceFirst find replace s with
    | none => some s
    | some s' => replaceLoop fuel s'

def ReplacesTo (s out : List α) : Prop := ∃ fuel, replaceLoop find replace fuel s = some out

/-- Whenever the first occurrence is replaced, that gives the text in which the next one of the
original text is, and in the end there is none. The first text is the one before the place that
the original has been read up to, with its occurrences replaced, and the second one is the rest. -/
inductive InStep : List α → List α → Prop
  | done (h : ¬ find <:+: before) : InStep before []
  | keep (h : ¬ find <+: c :: rest) (hrest : InStep (before ++ [c]) rest) :
      InStep before (c :: rest)
  | replaced (h : replaceFirst find replace (before ++ find ++ rest) =
        some (before ++ replace ++ rest))
      (hrest : InStep (before ++ replace) rest) : InStep before (find ++ rest)

end

section
variable [DecidableEq α] {find replace : List α}

theorem firstOccurrence_eq_none (s : List α) : firstOccurrence find s = none ↔ ¬ find <:+: s := by
  induction s with
  | nil =>
    rw [firstOccurrence, List.infix_nil]
    split <;> simp_all
  | cons c s ih =>
    rw [firstOccurrence, List.infix_cons_iff, not_or]
    split
    · simp_all
    · rw [Option.map_eq_none_iff, ih]
      simp_all

theorem firstOccurrence_eq_some {s : List α} (h : firstOccurrence find s = some pos) :
    (∃ after, s = s.take pos ++ find ++ after) ∧ pos ≤ s.length ∧
      ∀ before after, s = before ++ find ++ after → pos ≤ before.length := by
  induction s generalizing pos with
  | nil =>
    rw [firstOccurrence] at h
    split at h
    · cases h
      simp_all
    · cases h
  | cons c s ih =>
    rw [firstOccurrence] at h
    split at h
    · cases h
      rename_i hp
      obtain ⟨after, hp⟩ := hp
      exact ⟨⟨after, by simp [hp]⟩, Nat.zero_le _, fun _ _ _ => Nat.zero_le _⟩
    · rename_i hp
      obtain ⟨pos, hpos, rfl⟩ := Option.map_eq_some_iff.1 h
      obtain ⟨⟨after, heq⟩, hle, hfirst⟩ := ih hpos
      refine ⟨⟨after, ?_⟩, Nat.succ_le_succ hle, ?_⟩
      · rw [List.take_succ_cons, List.cons_append, List.cons_append, ← heq]
      · intro before after hs
        cases before with
        | nil => exact absurd ⟨after, hs.symm⟩ hp
        | cons b before =>
          have hs := (List.cons.inj hs).2
          exact Nat.succ_le_succ (hfirst before after hs)

theorem replaceFirst_eq_some {s s' : List α} (h : replaceFirst find replace s = some s') :
    ∃ before after, s = before ++ find ++ after ∧ s' = before ++ replace ++ after ∧
      ∀ before' after', s = before' ++ find ++ after' → before.length ≤ before'.length := by
  obtain ⟨pos, hpos, rfl⟩ := Option.map_eq_some_iff.1 h
  obtain ⟨⟨after, heq⟩, hle, hfirst⟩ := firstOccurrence_eq_some hpos
  have hlen : (s.take pos).length = pos := List.length_take_of_le hle
  have hafter : s.drop (pos + find.length) = after := by
    conv_lhs => rw [heq]
    apply List.drop_left'
    rw [List.length_append, hlen]
  refine ⟨s.take pos, after, heq, by rw [hafter], ?_⟩
  rw [hlen]
  exact hfirst

theorem replaceFirst_eq_none {s : List α} :
    replaceFirst find replace s = none ↔ ¬ find <:+: s := by
  rw [replaceFirst, Option.map_eq_none_iff, firstOccurrence_eq_none]

theorem replaceFirst_prefix (find replace rest : List α) :
    replaceFirst find replace (find ++ rest) = some (replace ++ rest) := by
  have hpos : firstOccurrence find (find ++ rest) = some 0 := by
    cases h : find ++ rest with
    | nil =>
      rw [firstOccurrence, if_pos (List.append_eq_nil_iff.1 h).1]
    | cons c s => rw [firstOccurrence, if_pos ⟨rest, h⟩]
  rw [replaceFirst, hpos, Option.map_some, List.take_zero, Nat.zero_add, List.drop_left,
    List.nil_append]

theorem replaceFirst_cons {s : List α} (h : ¬ find <+: c :: s) :
    replaceFirst find replace (c :: s) = (replaceFirst find replace s).map (c :: ·) := by
  rw [replaceFirst, replaceFirst, firstOccurrence, if_neg h, Option.map_map, Option.map_map]
  congr 1
  funext pos
  have hdrop : (c :: s).drop (pos + 1 + find.length) = s.drop (pos + find.length) := by
    rw [Nat.add_right_comm, List.drop_succ_cons]
  simp only [Function.comp_apply, List.take_succ_cons, List.cons_append, hdrop]

theorem replaceEach_skip (s rest : List α) :
    replaceEach find replace s.length (s ++ rest) = replaceEach find replace 0 rest := by
  induction s with
  | nil => rfl
  | cons c s ih => exact ih

theorem replaceEach_find (hne : find ≠ []) (rest : List α) : replaceEach find replace 0
    (find ++ rest) = replace ++ replaceEach find replace 0 rest := by
  cases find with
  | nil => exact absurd rfl hne
  | cons c find =>
    have hprefix : c :: find <+: c :: (find ++ rest) := List.prefix_append (c :: find) rest
    rw [List.cons_append, replaceEach, if_pos hprefix, List.length_cons, Nat.add_sub_cancel,
      replaceEach_skip]

theorem replaceEach_keep {rest : List α} (h : ¬ find <+: c :: rest) :
    replaceEach find replace 0 (c :: rest) = c :: replaceEach find replace 0 rest := by
  rw [replaceEach, if_neg h]

namespace ReplacesTo

theorem of_none {s : List α} (h : ¬ find <:+: s) : ReplacesTo find replace s s :=
  ⟨1, by rw [replaceLoop, replaceFirst_eq_none.2 h]⟩

theorem step {s s' out : List α} (h : replaceFirst find replace s = some s') :
    ReplacesTo find replace s out ↔ ReplacesTo find replace s' out := by
  constructor
  · intro hs
    obtain ⟨fuel, hs⟩ := hs
    cases fuel with
    | zero => cases hs
    | succ fuel =>
      rw [replaceLoop, h] at hs
      exact ⟨fuel, hs⟩
  · intro hs
    obtain ⟨fuel, hs⟩ := hs
    exact ⟨fuel + 1, by rw [replaceLoop, h]; exact hs⟩

/-- What every round keeps and the last text has not. -/
theorem kept {p : List α → Prop} {s out : List α} (h : ReplacesTo find replace s out)
    (hs : p s) (hstep : ∀ s s', replaceFirst find replace s = some s' → p s → p s') : p out := by
  obtain ⟨fuel, h⟩ := h
  induction fuel generalizing s with
  | zero => cases h
  | succ fuel ih =>
    rw [replaceLoop] at h
    split at h
    · cases h
      exact hs
    · rename_i s' hs'
      exact ih (hstep s s' hs' hs) h

theorem not_infix {s out : List α} (h : ReplacesTo find replace s out) : ¬ find <:+: out := by
  obtain ⟨fuel, h⟩ := h
  induction fuel generalizing s with
  | zero => cases h
  | succ fuel ih =>
    rw [replaceLoop] at h
    split at h
    · rename_i hnone
      cases h
      exact replaceFirst_eq_none.1 hnone
    · exact ih h

end ReplacesTo

/-- In step with the occurrences of the original text, they are all replaced. -/
theorem InStep.replacesTo {before rest : List α} (hne : find ≠ [])
    (h : InStep find replace before rest) : ReplacesTo find replace (before ++ rest)
      (before ++ replaceEach find replace 0 rest) := by
  induction h with
  | done h =>
    rw [replaceEach, List.append_nil]
    exact .of_none h
  | keep h _ ih =>
    rw [replaceEach_keep h]
    rwa [List.append_assoc, List.append_assoc] at ih
  | replaced h _ ih =>
    rw [replaceEach_find hne, ← List.append_assoc, ReplacesTo.step h, ← List.append_assoc]
    exact ih

def Parted (c e : α) (s out : List α) : Prop :=
  ∃ before after after', s = before ++ c :: after ∧ out = before ++ e :: after'

omit [DecidableEq α] in
theorem Parted.ne {c e : α} {s out : List α} (hne : c ≠ e) (h : Parted c e s out) : s ≠ out := by
  rintro rfl
  obtain ⟨before, after, after', hs, hout⟩ := h
  exact hne (List.cons.inj (List.append_cancel_left (hs.symm.trans hout))).1

omit [DecidableEq α] in
theorem exists_parted {s t : List α} (hs : ¬ s <+: t) (ht : ¬ t <+: s) :
    ∃ common c e after after', s = common ++ c :: after ∧ t = common ++ e :: after' ∧ c ≠ e := by
  induction s generalizing t with
  | nil => exact absurd List.nil_prefix hs
  | cons c s ih =>
    cases t with
    | nil => exact absurd List.nil_prefix ht
    | cons e t =>
      by_cases hce : c = e
      · subst hce
        rw [List.cons_prefix_cons, not_and] at hs ht
        obtain ⟨common, d, d', after, after', rfl, rfl, hne⟩ := ih (hs rfl) (ht rfl)
        exact ⟨c :: common, d, d', after, after', rfl, rfl, hne⟩
      · exact ⟨[], c, e, s, t, rfl, rfl, hce⟩

section
variable {common after after' : List α} {c e : α}

omit [DecidableEq α] in
theorem Parted.of_covered {A D u w w' : List α} (hreplace : replace = common ++ c :: after)
    (hfind : find = common ++ e :: after') (hne : c ≠ e)
    (hout : ¬ find <:+: A ++ u ++ e :: w') (hu : find ++ D = u ++ c :: w) :
    Parted c e (A ++ replace ++ D) (A ++ u ++ e :: w') := by
  rcases List.append_eq_append_iff.1 hu with ⟨v, rfl, _⟩ | ⟨v, hv, hv'⟩
  · exact absurd ⟨A, v ++ e :: w', by simp⟩ hout
  · cases v with
    | nil =>
      rw [List.append_nil] at hv
      exact absurd ⟨A, e :: w', by rw [hv]⟩ hout
    | cons d v =>
      obtain ⟨rfl, -⟩ := List.cons.inj hv'
      rcases List.append_eq_append_iff.1 (hfind.symm.trans hv) with ⟨g, rfl, hg⟩ | ⟨g, rfl, hg⟩
      · cases g with
        | nil => exact absurd (List.cons.inj hg).1.symm hne
        | cons b g =>
          obtain ⟨rfl, -⟩ := List.cons.inj hg
          exact ⟨A ++ common, after ++ D, g ++ e :: w', by simp [hreplace], by simp⟩
      · cases g with
        | nil => exact absurd (List.cons.inj hg).1 hne
        | cons b g =>
          obtain ⟨rfl, -⟩ := List.cons.inj hg
          exact ⟨A ++ u, g ++ c :: after ++ D, w', by simp [hreplace], by simp⟩

/-- No round makes up for a place where the other text has what was to be replaced. -/
theorem Parted.replaceFirst {s s' out : List α} (hreplace : replace = common ++ c :: after)
    (hfind : find = common ++ e :: after') (hne : c ≠ e) (hout : ¬ find <:+: out)
    (hs : replaceFirst find replace s = some s') (h : Parted c e s out) : Parted c e s' out := by
  obtain ⟨A, D, rfl, rfl, _⟩ := replaceFirst_eq_some hs
  obtain ⟨U, w, w', hw, rfl⟩ := h
  rw [List.append_assoc] at hw
  rcases List.append_eq_append_iff.1 hw with ⟨u, rfl, hu⟩ | ⟨u, rfl, hu⟩
  · exact of_covered hreplace hfind hne hout hu
  · cases u with
    | nil =>
      rw [List.append_nil]
      have hcovered := of_covered (A := U) (u := []) hreplace hfind hne (by simpa using hout) hu.symm
      simpa using hcovered
    | cons b u =>
      obtain ⟨rfl, -⟩ := List.cons.inj hu
      exact ⟨U, u ++ replace ++ D, w', by simp, rfl⟩

omit [DecidableEq α] in
/-- Where an earlier occurrence is replaced instead of the one that is next in the original text,
the first one's place has the start of what was to be replaced. -/
theorem Parted.of_earlier {A D x rest R : List α} (hreplace : replace = common ++ c :: after)
    (hfind : find = common ++ e :: after') (hx : x ≠ [])
    (h : A ++ find ++ D = A ++ x ++ find ++ rest) :
    Parted c e (A ++ replace ++ D) (A ++ x ++ replace ++ R) := by
  have hlong : common ++ [e] <+: x ++ common := by
    have hfirst : common ++ [e] <+: find ++ D := ⟨after' ++ D, by simp [hfind]⟩
    have hsecond : x ++ common <+: find ++ D := by
      refine ⟨e :: after' ++ rest, ?_⟩
      apply (List.append_right_inj A).1
      rw [← List.append_assoc A find, h]
      simp [hfind]
    refine List.prefix_of_prefix_length_le hfirst hsecond ?_
    have hpos := List.length_pos_iff.2 hx
    simp only [List.length_append, List.length_singleton]
    omega
  obtain ⟨t, ht⟩ := hlong
  refine ⟨A ++ common, after ++ D, t ++ c :: after ++ R, by simp [hreplace], ?_⟩
  have hsplit : A ++ x ++ replace ++ R = A ++ (x ++ common) ++ c :: after ++ R := by
    simp [hreplace]
  rw [hsplit, ← ht]
  simp

end

/-- The text has no other text both in front and at the end. -/
def Unbordered (s : List α) : Prop := ∀ t, t <+: s → t <:+ s → t = [] ∨ t = s

/-- The loop does not come to the text with all occurrences replaced after a round that replaces an
occurrence before the next one of the original text. -/
theorem not_replacesTo_of_earlier {A D x rest R : List α}
    (hfind : ¬ replace <+: find ∨ Unbordered find) (hx : x ≠ [])
    (h : A ++ find ++ D = A ++ x ++ find ++ rest) :
    ¬ ReplacesTo find replace (A ++ replace ++ D) (A ++ x ++ replace ++ R) := by
  intro hto
  have hout := hto.not_infix
  rcases hfind with hfind | hfind
  · have hinfix : ¬ find <+: replace := by
      rintro ⟨t, rfl⟩
      exact hout ⟨A ++ x, t ++ R, by simp⟩
    obtain ⟨common, c, e, after, after', hr, hf, hce⟩ := exists_parted hfind hinfix
    have hparted := hto.kept (p := fun s => Parted c e s (A ++ x ++ replace ++ R))
      (.of_earlier hr hf hx h) fun s s' hs hp => hp.replaceFirst hr hf hce hout hs
    exact hparted.ne hce rfl
  · have h : find ++ D = x ++ (find ++ rest) := by simpa using h
    rcases List.append_eq_append_iff.1 h with ⟨t, rfl, _⟩ | ⟨t, ht, ht'⟩
    · exact hout ⟨A, t ++ replace ++ R, by simp⟩
    · have hprefix : t <+: find := by
        apply List.prefix_of_prefix_length_le ⟨D, ht'.symm⟩ (List.prefix_append find rest)
        rw [ht, List.length_append]
        exact Nat.le_add_left _ _
      rcases hfind t hprefix ⟨x, ht.symm⟩ with rfl | rfl
      · rw [List.append_nil] at ht
        exact hout ⟨A, replace ++ R, by simp [ht]⟩
      · exact hx (List.append_left_eq_self.1 ht.symm)

/-- The occurrences are all replaced exactly as long as the loop is in step with them. -/
theorem inStep_of_replacesTo (hne : find ≠ []) (hfind : ¬ replace <+: find ∨ Unbordered find)
    {before rest : List α} (h : ReplacesTo find replace (before ++ rest)
      (before ++ replaceEach find replace 0 rest)) : InStep find replace before rest := by
  induction hn : rest.length using Nat.strong_induction_on generalizing before rest with
  | _ n ih =>
    subst hn
    cases rest with
    | nil =>
      rw [replaceEach, List.append_nil] at h
      exact .done h.not_infix
    | cons c rest =>
      by_cases hp : find <+: c :: rest
      · obtain ⟨rest', hrest⟩ := hp
        rw [← hrest] at h ih ⊢
        rw [replaceEach_find hne, ← List.append_assoc, ← List.append_assoc] at h
        have hround : replaceFirst find replace (before ++ find ++ rest') =
            some (before ++ replace ++ rest') := by
          cases hs : replaceFirst find replace (before ++ find ++ rest') with
          | none => exact absurd ⟨before, rest', rfl⟩ (replaceFirst_eq_none.1 hs)
          | some s' =>
            obtain ⟨A, D, heq, rfl, hfirst⟩ := replaceFirst_eq_some hs
            have hle := hfirst before rest' rfl
            have hA : A <+: before := by
              refine List.prefix_of_prefix_length_le ⟨find ++ D, ?_⟩ ⟨find ++ rest', rfl⟩ hle
              simpa using heq.symm
            obtain ⟨x, rfl⟩ := hA
            by_cases hx : x = []
            · subst hx
              simp only [List.append_nil] at heq ⊢
              rw [List.append_cancel_left heq]
            · rw [ReplacesTo.step hs] at h
              exact absurd h (not_replacesTo_of_earlier hfind hx heq.symm)
        refine .replaced hround (ih rest'.length ?_ ?_ rfl)
        · have hpos := List.length_pos_iff.2 hne
          rw [List.length_append]
          omega
        · rwa [ReplacesTo.step hround] at h
      · rw [replaceEach_keep hp] at h
        refine .keep hp (ih rest.length (Nat.lt_succ_self _) ?_ rfl)
        simpa using h

end

/-- The rest is behind the last occurrence of the element. -/
structure BehindLast (b : α) (rest l : List α) : Prop where
  suffix : b :: rest <:+ l
  not_mem : b ∉ rest

namespace BehindLast
variable {b : α} {rest l : List α}

theorem cons (h : BehindLast b rest l) (a : α) : BehindLast b rest (a :: l) :=
  ⟨h.suffix.trans (List.suffix_cons a l), h.not_mem⟩

theorem append_left (h : BehindLast b rest l) (front : List α) :
    BehindLast b rest (front ++ l) :=
  ⟨h.suffix.trans (List.suffix_append front l), h.not_mem⟩

theorem append_right (h : BehindLast b rest l) {back : List α} (hback : b ∉ back) :
    BehindLast b (rest ++ back) (l ++ back) := by
  obtain ⟨front, rfl⟩ := h.suffix
  refine ⟨⟨front, ?_⟩, ?_⟩
  · rw [List.append_assoc, List.cons_append]
  · intro hmem
    rcases List.mem_append.1 hmem with hmem | hmem
    · exact h.not_mem hmem
    · exact hback hmem

theorem self (h : b ∉ l) : BehindLast b l (b :: l) := ⟨List.suffix_rfl, h⟩

theorem exists_of_mem (h : b ∈ l) : ∃ rest, BehindLast b rest l := by
  induction l with
  | nil => cases h
  | cons a l ih =>
    by_cases hmem : b ∈ l
    · obtain ⟨rest, hrest⟩ := ih hmem
      exact ⟨rest, hrest.cons a⟩
    · obtain rfl := (List.mem_cons.1 h).resolve_right hmem
      exact ⟨l, self hmem⟩

theorem unique (h : BehindLast b rest l) (h' : BehindLast b rest' l) : rest = rest' := by
  have hhalf : ∀ {s s' : List α}, BehindLast b s l → BehindLast b s' l → b :: s <:+ b :: s' →
      s = s' := by
    intro s s' hs hs' hsuffix
    rcases List.suffix_cons_iff.1 hsuffix with heq | hsuffix
    · exact (List.cons.inj heq).2
    · exact absurd (hsuffix.subset (.head _)) hs'.not_mem
  rcases List.suffix_or_suffix_of_suffix h.suffix h'.suffix with hsuffix | hsuffix
  · exact hhalf h h' hsuffix
  · exact (hhalf h' h hsuffix).symm

theorem of_append (hfront : b ∉ front) (h : BehindLast b rest (front ++ l)) :
    BehindLast b rest l := by
  induction front with
  | nil => exact h
  | cons a front ih =>
    rw [List.mem_cons, not_or] at hfront
    apply ih hfront.2
    refine ⟨?_, h.not_mem⟩
    rcases List.suffix_cons_iff.1 h.suffix with heq | hsuffix
    · exact absurd (List.cons.inj heq).1 hfront.1
    · exact hsuffix

end BehindLast

end Trieste.Library
