import Trieste.Yaml.Lines

namespace Trieste.Yaml
set_option autoImplicit true
open Relation QuoteLine

/-- A text on lines, given what is written for a line and for a line break. -/
def spell (text : Text → Text) (mark : Text) : Bool → List QuoteLine → Text
  | _, [] => []
  | first, [last] =>
    if last = .empty then mark
    else if last.view = [] ∧ first = false then [0x20]
    else text last.view
  | first, line :: next :: rest =>
    if line = .empty then mark ++ spell text mark false (next :: rest)
    else if line.view = [] then
      (if first then [0x20] else mark) ++ spell text mark false (next :: rest)
    else
      text line.view ++ (if next.view ≠ [] then [0x20] else []) ++
        spell text mark false (next :: rest)

def lineBreaks : Bool → List QuoteLine → Nat
  | _, [] => 0
  | _, [last] => if last = .empty then 1 else 0
  | first, line :: next :: rest =>
    (if line = .empty ∨ line.view = [] ∧ first = false then 1 else 0) +
      lineBreaks false (next :: rest)

def openBreaks : Bool → List QuoteLine → Nat
  | _, [] => 0
  | first, line :: rest =>
    (if line = .empty ∨ line.view = [] ∧ first = false then 1 else 0) + openBreaks false rest

theorem lineBreaks_append (h : after ≠ []) (first : Bool) (before : List QuoteLine) :
    lineBreaks first (before ++ after) =
      openBreaks first before + lineBreaks (first && before.isEmpty) after := by
  induction before generalizing first with
  | nil =>
    rw [List.nil_append, openBreaks, Nat.zero_add, List.isEmpty_nil, Bool.and_true]
  | cons line before ih =>
    obtain ⟨next, rest, heq⟩ : ∃ next rest, before ++ after = next :: rest :=
      List.exists_cons_of_ne_nil (List.append_ne_nil_of_right_ne_nil before h)
    have ih := ih false
    rw [Bool.false_and] at ih
    rw [List.cons_append, heq, lineBreaks, ← heq, ih, openBreaks, List.isEmpty_cons, Bool.and_false,
      Nat.add_assoc]

/-- A step that takes no line break away. -/
inductive Lossless : List QuoteLine → List QuoteLine → Prop where
  | both : Lossless [.block [], .block []] [.block [0x20]]
  | last (before : List QuoteLine) :
    Lossless (before ++ [.empty, .block []]) (before ++ [.empty])

theorem Merge.lineBreaks (h : Merge lines lines') :
    Lossless lines lines' ∨ lineBreaks true lines' < lineBreaks true lines := by
  cases h with
  | block before after =>
    rw [lineBreaks_append (List.cons_ne_nil _ _), lineBreaks_append (List.cons_ne_nil _ _)]
    cases after with
    | nil =>
      cases before with
      | nil => exact .inl .both
      | cons line before =>
        right
        simp [Yaml.lineBreaks, view]
    | cons next rest =>
      right
      cases hfirst : (true && before.isEmpty) with
      | true => simp [Yaml.lineBreaks, view]
      | false =>
        simp only [Yaml.lineBreaks, view]
        simp
        omega
  | empty before after =>
    cases after with
    | nil => exact .inl (.last before)
    | cons next rest =>
      right
      rw [lineBreaks_append (List.cons_ne_nil _ _), lineBreaks_append (List.cons_ne_nil _ _)]
      simp [Yaml.lineBreaks, view]

theorem Lossless.lineBreaks (h : Lossless lines lines') :
    lineBreaks true lines' = lineBreaks true lines := by
  cases h with
  | both => rfl
  | last before =>
    rw [lineBreaks_append (List.cons_ne_nil _ _), lineBreaks_append (List.cons_ne_nil _ _)]
    rfl

theorem merge_lineBreaks_le (h : ReflTransGen Merge lines lines') :
    lineBreaks true lines' ≤ lineBreaks true lines := by
  induction h with
  | refl => exact Nat.le_refl _
  | tail _ hstep ih =>
    refine Nat.le_trans ?_ ih
    rcases hstep.lineBreaks with hloss | hlt
    · exact hloss.lineBreaks.le
    · exact hlt.le

def mergedLines : List QuoteLine → Prop
  | line :: next :: rest =>
    ¬ (next = .block [] ∧ (line = .block [] ∨ line = .empty)) ∧ mergedLines (next :: rest)
  | _ => True

theorem mergedLines_append (h : mergedLines (before ++ line :: .block [] :: after)) :
    line ≠ .block [] ∧ line ≠ .empty := by
  induction before with
  | nil => exact ⟨fun heq => h.1 ⟨rfl, .inl heq⟩, fun heq => h.1 ⟨rfl, .inr heq⟩⟩
  | cons first before ih =>
    apply ih
    cases before with
    | nil => exact h.2
    | cons => exact h.2

theorem merged_of_mergedLines (h : mergedLines lines) : Merged lines := by
  intro lines' hstep
  cases hstep with
  | block before after => exact (mergedLines_append h).1 rfl
  | empty before after => exact (mergedLines_append h).2 rfl

theorem Merge.cons (line : QuoteLine) (h : Merge lines lines') :
    Merge (line :: lines) (line :: lines') := by
  cases h with
  | block before after => exact .block (line :: before) after
  | empty before after => exact .empty (line :: before) after

theorem mergedLines_of_merged (h : Merged lines) : mergedLines lines := by
  induction lines with
  | nil => trivial
  | cons line lines ih =>
    have hrest : mergedLines lines := ih fun lines' hstep => h _ (hstep.cons line)
    cases lines with
    | nil => trivial
    | cons next rest =>
      refine ⟨fun hboth => ?_, hrest⟩
      obtain ⟨rfl, rfl | rfl⟩ := hboth
      · exact h _ (.block [] rest)
      · exact h _ (.empty [] rest)

theorem merged_iff : Merged lines ↔ mergedLines lines :=
  ⟨mergedLines_of_merged, merged_of_mergedLines⟩

theorem exists_merged (lines : List QuoteLine) :
    ∃ lines', ReflTransGen Merge lines lines' ∧ Merged lines' := by
  induction hn : lines.length using Nat.strong_induction_on generalizing lines with
  | _ n ih =>
    by_cases h : Merged lines
    · exact ⟨lines, .refl, h⟩
    · obtain ⟨lines₁, hstep⟩ := not_forall_not.1 h
      have hlen : lines₁.length < n := by
        rw [← hn]
        cases hstep with
        | block | empty => simp
      obtain ⟨lines', hsteps, hmerged⟩ := ih _ hlen lines₁ rfl
      exact ⟨lines', .head hstep hsteps, hmerged⟩

def Accepted (lines : List QuoteLine) : Prop := ∀ line ∈ lines, ∀ msg, line ≠ .error msg

theorem Accepted.tail (h : Accepted (line :: lines)) : Accepted lines :=
  fun l hl => h l (List.mem_cons_of_mem _ hl)

theorem Accepted.view_nil (h : Accepted (line :: lines)) :
    line.view = [] ↔ line = .block [] ∨ line = .empty := by
  cases line with
  | block view =>
    constructor
    · intro heq
      exact .inl (congrArg QuoteLine.block heq)
    · intro heq
      rcases heq with heq | heq
      · exact QuoteLine.block.inj heq
      · cases heq
  | empty => exact ⟨fun _ => .inr rfl, fun _ => rfl⟩
  | error msg => exact absurd rfl (h _ List.mem_cons_self msg)

/-- No empty `BlockLine` is behind a line without text, except the last one, which may be behind
such a line if this is no empty `BlockLine` between others. -/
def Clean (prevBlank prevBare : Bool) : List QuoteLine → Prop
  | [] => True
  | [last] => last = .block [] → prevBare = false
  | line :: next :: rest =>
    (line = .block [] → prevBlank = false) ∧
      Clean (decide (line.view = [])) (decide (line = .block [])) (next :: rest)

/-- `dropFirst` -/
def dropEmptyFirst : List QuoteLine → List QuoteLine
  | first :: next :: rest =>
    if first = .block [] ∧ next = .empty then next :: rest else first :: next :: rest
  | lines => lines

theorem clean_of_mergedLines (h : mergedLines (line :: rest)) (hok : Accepted (line :: rest))
    (hbare : prevBare = true → line = .block []) :
    Clean (decide (line.view = [])) prevBare rest := by
  induction rest generalizing line prevBare with
  | nil => trivial
  | cons next rest ih =>
    obtain ⟨hpair, hrest⟩ := h
    cases rest with
    | nil =>
      intro hlast
      cases hb : prevBare with
      | false => rfl
      | true => exact absurd ⟨hlast, .inl (hbare hb)⟩ hpair
    | cons after rest =>
      refine ⟨fun hnext => decide_eq_false fun hview => ?_, ih hrest hok.tail of_decide_eq_true⟩
      exact hpair ⟨hnext, hok.view_nil.1 hview⟩

theorem clean_of_mergedLines_last (h : mergedLines (line :: (before ++ [.empty])))
    (hok : Accepted (line :: (before ++ [.empty]))) (hbare : prevBare = true → line = .block []) :
    Clean (decide (line.view = [])) prevBare (before ++ [.empty, .block []]) := by
  induction before generalizing line prevBare with
  | nil => exact ⟨fun heq => (nomatch heq), fun _ => rfl⟩
  | cons next before ih =>
    obtain ⟨hpair, hrest⟩ := h
    have hclean := ih hrest hok.tail of_decide_eq_true
    obtain ⟨after, rest, heq⟩ : ∃ after rest, before ++ [.empty, .block []] = after :: rest :=
      List.exists_cons_of_ne_nil (List.append_ne_nil_of_right_ne_nil before (List.cons_ne_nil _ _))
    rw [List.cons_append, heq]
    rw [heq] at hclean
    refine ⟨fun hnext => decide_eq_false fun hview => ?_, hclean⟩
    exact hpair ⟨hnext, hok.view_nil.1 hview⟩

theorem merged_or_last (h : ReflTransGen Merge lines lines') (hmerged : Merged lines')
    (hbreaks : lineBreaks true lines' = lineBreaks true lines) :
    mergedLines lines ∨ lines = [.block [], .block []] ∨
      ∃ before, lines = before ++ [.empty, .block []] ∧ mergedLines (before ++ [.empty]) := by
  rcases ReflTransGen.cases_head h with heq | hsteps
  · subst heq
    exact .inl (merged_iff.1 hmerged)
  · obtain ⟨lines₁, hstep, hrest⟩ := hsteps
    have hle := merge_lineBreaks_le hrest
    rcases hstep.lineBreaks with hloss | hlt
    · cases hloss with
      | both => exact .inr (.inl rfl)
      | last before =>
        refine .inr (.inr ⟨before, rfl, ?_⟩)
        rcases ReflTransGen.cases_head hrest with heq | hsteps
        · rw [heq]
          exact merged_iff.1 hmerged
        · -- the second step loses a line break, as the last line is not empty text any more
          obtain ⟨lines₂, hstep₂, hrest₂⟩ := hsteps
          have hle₂ := merge_lineBreaks_le hrest₂
          have hkept := (Lossless.last before).lineBreaks
          rcases hstep₂.lineBreaks with hloss₂ | hlt₂
          · exfalso
            generalize hlines : before ++ [QuoteLine.empty] = lines at hloss₂
            cases hloss₂ with
            | both =>
              have hlast := congrArg List.getLast? hlines
              rw [List.getLast?_concat] at hlast
              cases hlast
            | last before₂ =>
              have hlast := congrArg List.getLast? hlines
              rw [List.getLast?_concat, List.getLast?_append] at hlast
              cases hlast
          · omega
    · omega

theorem clean_of_lineBreaks {first : Text} (hok : Accepted (.block first :: rest))
    (h : ReflTransGen Merge (dropEmptyFirst (.block first :: rest)) lines') (hmerged : Merged lines')
    (hbreaks : lineBreaks true lines' = lineBreaks true (dropEmptyFirst (.block first :: rest))) :
    Clean (decide (first = [])) false rest := by
  have hkeep : ∀ line rest, Accepted (line :: rest) → (mergedLines (line :: rest) ∨
      line :: rest = [.block [], .block []] ∨ ∃ before, line :: rest = before ++ [.empty, .block []] ∧
        mergedLines (before ++ [.empty])) → Clean (decide (line.view = [])) false rest := by
    intro line rest hok hcases
    rcases hcases with hlines | heq | ⟨before, heq, hlines⟩
    · exact clean_of_mergedLines hlines hok fun hfalse => (nomatch hfalse)
    · obtain ⟨rfl, rfl⟩ := List.cons.inj heq
      exact fun _ => rfl
    · cases before with
      | nil =>
        obtain ⟨rfl, rfl⟩ := List.cons.inj heq
        exact fun _ => rfl
      | cons line' before =>
        obtain ⟨rfl, rfl⟩ := List.cons.inj heq
        refine clean_of_mergedLines_last hlines ?_ fun hfalse => (nomatch hfalse)
        intro l hl
        apply hok
        rcases List.mem_cons.1 hl with rfl | hl
        · exact List.mem_cons_self
        · refine List.mem_cons_of_mem _ ?_
          rcases List.mem_append.1 hl with hl | hl
          · exact List.mem_append_left _ hl
          · rw [List.mem_singleton.1 hl]
            simp
  have hcases := merged_or_last h hmerged hbreaks
  cases rest with
  | nil => trivial
  | cons next rest =>
    rw [dropEmptyFirst] at hcases
    split at hcases
    · next hdrop =>
      obtain ⟨hfirst, rfl⟩ := hdrop
      obtain rfl := QuoteLine.block.inj hfirst
      have hclean := hkeep .empty rest hok.tail hcases
      cases rest with
      | nil => exact fun heq => (nomatch heq)
      | cons after rest => exact ⟨fun heq => (nomatch heq), hclean⟩
    · exact hkeep (.block first) (next :: rest) hok hcases

theorem mergedLines_of_clean (hclean : Clean (decide (line.view = [])) (decide (line = .block [])) rest)
    (hok : Accepted (line :: rest)) : mergedLines (line :: rest) ∨
      ∃ before, line :: rest = before ++ [.empty, .block []] ∧ mergedLines (before ++ [.empty]) := by
  induction rest generalizing line with
  | nil => exact .inl trivial
  | cons next rest ih =>
    cases rest with
    | nil =>
      by_cases hlast : next = .block []
      · subst hlast
        have hline : line ≠ .block [] := of_decide_eq_false (hclean rfl)
        by_cases hempty : line = .empty
        · subst hempty
          exact .inr ⟨[], rfl, trivial⟩
        · exact .inl ⟨fun hpair => hpair.2.elim hline hempty, trivial⟩
      · exact .inl ⟨fun hpair => hlast hpair.1, trivial⟩
    | cons after rest =>
      obtain ⟨hnext, hclean⟩ := hclean
      have hpair : ¬ (next = .block [] ∧ (line = .block [] ∨ line = .empty)) := by
        intro hpair
        exact of_decide_eq_false (hnext hpair.1) (hok.view_nil.2 hpair.2)
      rcases ih hclean hok.tail with hlines | ⟨before, heq, hlines⟩
      · exact .inl ⟨hpair, hlines⟩
      · refine .inr ⟨line :: before, congrArg (line :: ·) heq, ?_⟩
        cases before with
        | nil =>
          obtain ⟨rfl, -⟩ := List.cons.inj heq
          exact ⟨hpair, trivial⟩
        | cons next' before =>
          obtain ⟨rfl, -⟩ := List.cons.inj heq
          exact ⟨hpair, hlines⟩

theorem Merge.append_last (h : Merge (before ++ [.empty, .block []]) lines')
    (hlines : mergedLines (before ++ [.empty])) : lines' = before ++ [.empty] := by
  have hkey : ∀ line before' after, before ++ [QuoteLine.empty, .block []] =
      before' ++ line :: .block [] :: after → (line = .block [] ∨ line = .empty) →
      after = [] ∧ before' = before ∧ line = .empty := by
    intro line before' after heq hline
    rcases List.eq_nil_or_concat after with rfl | ⟨after, last, rfl⟩
    · have heq₁ : (before ++ [QuoteLine.empty]) ++ [.block []] = (before' ++ [line]) ++ [.block []] := by
        simpa using heq
      have heq₂ := List.append_cancel_right heq₁
      obtain ⟨rfl, hlast⟩ := List.append_inj' heq₂ rfl
      exact ⟨rfl, rfl, (List.singleton_inj.1 hlast).symm⟩
    · exfalso
      have heq₁ : (before ++ [QuoteLine.empty]) ++ [.block []] =
          (before' ++ line :: .block [] :: after) ++ [last] := by
        simpa using heq
      have heq₂ := (List.append_inj' heq₁ rfl).1
      rw [heq₂] at hlines
      obtain ⟨hblock, hempty⟩ := mergedLines_append hlines
      exact hline.elim hblock hempty
  generalize hlines' : before ++ [QuoteLine.empty, .block []] = lines at h
  cases h with
  | block before' after =>
    obtain ⟨-, -, hline⟩ := hkey _ _ _ hlines' (.inl rfl)
    cases hline
  | empty before' after =>
    obtain ⟨rfl, rfl, -⟩ := hkey _ _ _ hlines' (.inr rfl)
    rfl

theorem merged_both (h : ReflTransGen Merge [.block [], .block []] lines') (hmerged : Merged lines') :
    lines' = [.block [0x20]] := by
  rcases ReflTransGen.cases_head h with heq | ⟨lines₁, hstep, hsteps⟩
  · subst heq
    exact absurd (.block [] []) (hmerged [.block [0x20]])
  · generalize hlines : [QuoteLine.block [], .block []] = lines at hstep
    have hmerged₁ : mergedLines [.block [0x20]] := trivial
    cases hstep with
    | block before after =>
      obtain ⟨rfl, rfl⟩ : before = [] ∧ after = [] := by
        have hlen := congrArg List.length hlines
        simp only [List.length_append, List.length_cons, List.length_nil] at hlen
        exact ⟨List.length_eq_zero_iff.1 (by omega), List.length_eq_zero_iff.1 (by omega)⟩
      rcases ReflTransGen.cases_head hsteps with heq | ⟨lines₂, hstep₂, -⟩
      · exact heq.symm
      · exact absurd hstep₂ (merged_of_mergedLines hmerged₁ lines₂)
    | empty before after =>
      have hmem : QuoteLine.empty ∈ [QuoteLine.block [], .block []] := by
        rw [hlines]
        simp
      simp at hmem

theorem clean_cases {first : Text} (hok : Accepted (.block first :: rest))
    (hclean : Clean (decide (first = [])) false rest)
    (h : ReflTransGen Merge (dropEmptyFirst (.block first :: rest)) lines') (hmerged : Merged lines') :
    (lines' = dropEmptyFirst (.block first :: rest) ∧ mergedLines lines') ∨
      (first = [] ∧ rest = [.block []] ∧ lines' = [.block [0x20]]) ∨
      ∃ before, dropEmptyFirst (.block first :: rest) = before ++ [.empty, .block []] ∧
        lines' = before ++ [.empty] ∧ mergedLines lines' := by
  have hrest : ∀ lines, ReflTransGen Merge lines lines' → (mergedLines lines ∨
      ∃ before, lines = before ++ [.empty, .block []] ∧ mergedLines (before ++ [.empty])) →
      (lines' = lines ∧ mergedLines lines') ∨ ∃ before, lines = before ++ [.empty, .block []] ∧
        lines' = before ++ [.empty] ∧ mergedLines lines' := by
    intro lines h hcases
    rcases hcases with hlines | ⟨before, rfl, hlines⟩
    · rcases ReflTransGen.cases_head h with heq | ⟨lines₁, hstep, -⟩
      · subst heq
        exact .inl ⟨rfl, hlines⟩
      · exact absurd hstep (merged_of_mergedLines hlines lines₁)
    · rcases ReflTransGen.cases_head h with heq | ⟨lines₁, hstep, hsteps⟩
      · subst heq
        exact absurd (.empty before []) (hmerged (before ++ [.empty]))
      · obtain rfl := hstep.append_last hlines
        rcases ReflTransGen.cases_head hsteps with heq | ⟨lines₂, hstep₂, -⟩
        · subst heq
          exact .inr ⟨before, rfl, rfl, hlines⟩
        · exact absurd hstep₂ (merged_of_mergedLines hlines lines₂)
  cases rest with
  | nil =>
    rcases hrest _ h (.inl trivial) with hsame | hlast
    · exact .inl hsame
    · exact .inr (.inr hlast)
  | cons next rest =>
    rw [dropEmptyFirst] at h ⊢
    split
    · next hdrop =>
      rw [if_pos hdrop] at h
      obtain ⟨-, rfl⟩ := hdrop
      have hclean' : Clean true false rest := by
        cases rest with
        | nil => trivial
        | cons after rest => exact hclean.2
      rcases hrest _ h (mergedLines_of_clean hclean' hok.tail) with hsame | hlast
      · exact .inl hsame
      · exact .inr (.inr hlast)
    · next hdrop =>
      rw [if_neg hdrop] at h
      cases rest with
      | nil =>
        by_cases hpair : next = .block [] ∧ first = []
        · obtain ⟨rfl, rfl⟩ := hpair
          exact .inr (.inl ⟨rfl, rfl, merged_both h hmerged⟩)
        · have hlines : mergedLines [.block first, next] := by
            refine ⟨fun hboth => hpair ⟨hboth.1, ?_⟩, trivial⟩
            rcases hboth.2 with heq | heq
            · exact QuoteLine.block.inj heq
            · cases heq
          rcases hrest _ h (.inl hlines) with hsame | hlast
          · exact .inl hsame
          · exact .inr (.inr hlast)
      | cons after rest =>
        have hnext : next = .block [] → first ≠ [] := fun heq => of_decide_eq_false (hclean.1 heq)
        have hpair : ¬ (next = .block [] ∧ (QuoteLine.block first = .block [] ∨
            QuoteLine.block first = .empty)) := by
          intro hboth
          rcases hboth.2 with heq | heq
          · exact hnext hboth.1 (QuoteLine.block.inj heq)
          · cases heq
        have hcases : mergedLines (.block first :: next :: after :: rest) ∨
            ∃ before, .block first :: next :: after :: rest = before ++ [.empty, .block []] ∧
              mergedLines (before ++ [.empty]) := by
          rcases mergedLines_of_clean hclean.2 hok.tail with hlines | ⟨before, heq, hlines⟩
          · exact .inl ⟨hpair, hlines⟩
          · refine .inr ⟨.block first :: before, congrArg (QuoteLine.block first :: ·) heq, ?_⟩
            cases before with
            | nil =>
              obtain ⟨rfl, -⟩ := List.cons.inj heq
              exact ⟨hpair, trivial⟩
            | cons next' before =>
              obtain ⟨rfl, -⟩ := List.cons.inj heq
              exact ⟨hpair, hlines⟩
        rcases hrest _ h hcases with hsame | hlast
        · exact .inl hsame
        · exact .inr (.inr hlast)

/-- What stands for the line breaks between two lines with the given number of empty lines between
them. -/
def breaks : Nat → Text
  | 0 => [0x20]
  | blanks + 1 => List.replicate (blanks + 1) newline

/-- The lines behind the first one, with the number of empty lines before them. -/
def foldFrom (blanks : Nat) : List Text → Text
  | [] => []
  | [last] => breaks blanks ++ last
  | line :: next :: rest =>
    if line = [] then foldFrom (blanks + 1) (next :: rest)
    else breaks blanks ++ line ++ foldFrom 0 (next :: rest)

/-- The texts of lines, with an empty one behind an `EmptyLine` at the end. -/
def viewsOf (text : Text → Text) : List QuoteLine → List Text
  | [] => []
  | [last] => if last = .empty then [[], []] else [text last.view]
  | line :: next :: rest => text line.view :: viewsOf text (next :: rest)

theorem foldFrom_nil (h : lines ≠ []) (blanks : Nat) :
    foldFrom blanks ([] :: lines) = foldFrom (blanks + 1) lines := by
  cases lines with
  | nil => exact absurd rfl h
  | cons next rest => rw [foldFrom, if_pos rfl]

theorem foldFrom_cons (hline : line ≠ []) (h : lines ≠ []) (blanks : Nat) :
    foldFrom blanks (line :: lines) = breaks blanks ++ line ++ foldFrom 0 lines := by
  cases lines with
  | nil => exact absurd rfl h
  | cons next rest => rw [foldFrom, if_neg hline]

/-- A space where a line with text follows. -/
def lead (lines : List QuoteLine) : Text :=
  match lines with
  | [] => []
  | next :: _ => if next.view ≠ [] then [0x20] else []

theorem spell_text (line : QuoteLine) (h : line.view ≠ []) (first : Bool) (rest : List QuoteLine) :
    spell text mark first (line :: rest) =
      text line.view ++ lead rest ++ spell text mark false rest := by
  have hline : line ≠ .empty := by
    intro heq
    exact h (congrArg view heq)
  cases rest with
  | nil =>
    simp only [spell, if_neg hline, lead, List.append_nil]
    exact if_neg fun hboth => h hboth.1
  | cons next rest => rw [spell, if_neg hline, if_neg h, lead]

theorem spell_blank {line : QuoteLine} (h : line.view = []) (next : QuoteLine)
    (rest : List QuoteLine) : spell text mark false (line :: next :: rest) =
      mark ++ spell text mark false (next :: rest) := by
  rw [spell]
  split
  · rfl
  · rfl

section Spell
variable {text : Text → Text} (htext : ∀ view, text view = [] ↔ view = [])

theorem viewsOf_ne_nil (text : Text → Text) (line : QuoteLine) (lines : List QuoteLine) :
    viewsOf text (line :: lines) ≠ [] := by
  cases lines with
  | nil =>
    rw [viewsOf]
    split <;> exact List.cons_ne_nil _ _
  | cons next rest => exact List.cons_ne_nil _ _

include htext in
theorem viewsOf_append (before : List QuoteLine) : viewsOf text (before ++ [.empty]) =
    (before ++ [QuoteLine.empty, .block []]).map fun line => text line.view := by
  have hnil : text [] = [] := (htext []).2 rfl
  induction before with
  | nil => simp [viewsOf, view, hnil]
  | cons line before ih =>
    obtain ⟨next, rest, heq⟩ : ∃ next rest, before ++ [QuoteLine.empty] = next :: rest :=
      List.exists_cons_of_ne_nil (List.append_ne_nil_of_right_ne_nil before (List.cons_ne_nil _ _))
    rw [List.cons_append, heq, viewsOf, ← heq, ih]
    rfl

theorem viewsOf_eq_map {lines : List QuoteLine} (h : lines.getLast? ≠ some QuoteLine.empty) :
    viewsOf text lines = lines.map fun line => text line.view := by
  induction lines with
  | nil => rfl
  | cons line lines ih =>
    cases lines with
    | nil =>
      have hline : line ≠ .empty := fun heq => h (congrArg some heq)
      rw [viewsOf, if_neg hline]
      rfl
    | cons next rest =>
      rw [List.getLast?_cons_cons] at h
      rw [viewsOf, ih h]
      rfl

include htext in
theorem spell_mergedLines (h : mergedLines (prev :: rest)) (hok : Accepted (prev :: rest))
    (hrest : rest ≠ []) :
    (prev.view ≠ [] → lead rest ++ spell text [newline] false rest =
      foldFrom 0 (viewsOf text rest)) ∧
    (prev.view = [] → ∀ blanks, List.replicate (blanks + 1) newline ++
      spell text [newline] false rest = foldFrom (blanks + 1) (viewsOf text rest)) := by
  have hnil : text [] = [] := (htext []).2 rfl
  induction rest generalizing prev with
  | nil => exact absurd rfl hrest
  | cons line rest ih =>
    obtain ⟨hpair, hlines⟩ := h
    cases rest with
    | nil =>
      rw [spell, viewsOf, lead]
      by_cases hempty : line = .empty
      · subst hempty
        refine ⟨fun _ => rfl, fun _ blanks => ?_⟩
        rw [if_pos rfl, if_pos rfl, foldFrom_nil (List.cons_ne_nil _ _), foldFrom, List.append_nil,
          breaks, ← List.replicate_succ']
      · simp only [if_neg hempty, foldFrom]
        by_cases hview : line.view = []
        · refine ⟨fun _ => ?_, fun hprev => ?_⟩
          · rw [hview, hnil]
            rfl
          · have hblock := (hok.tail.view_nil.1 hview).resolve_right hempty
            exact absurd ⟨hblock, hok.view_nil.1 hprev⟩ hpair
        · rw [if_pos hview, if_neg fun hboth => hview hboth.1]
          exact ⟨fun _ => rfl, fun _ _ => rfl⟩
    | cons next rest =>
      obtain ⟨hafter, hbehind⟩ := ih hlines hok.tail (List.cons_ne_nil _ _)
      have hne := viewsOf_ne_nil text next rest
      rw [viewsOf, lead]
      by_cases hview : line.view = []
      · rw [spell_blank hview, hview, hnil, if_neg (not_not.2 rfl)]
        refine ⟨fun _ => ?_, fun _ blanks => ?_⟩
        · rw [foldFrom_nil hne, ← hbehind hview 0]
          rfl
        · rw [foldFrom_nil hne, ← hbehind hview, ← List.append_assoc, ← List.replicate_succ']
      · have hline : text line.view ≠ [] := fun heq => hview ((htext _).1 heq)
        rw [spell_text line hview, if_pos hview, List.append_assoc, hafter hview]
        refine ⟨fun _ => ?_, fun _ blanks => ?_⟩
        · rw [foldFrom_cons hline hne, List.append_assoc]
          rfl
        · rw [foldFrom_cons hline hne, List.append_assoc]
          rfl

include htext in
theorem spell_dropEmptyFirst {first : Text}
    (h : mergedLines (dropEmptyFirst (.block first :: rest))) (hok : Accepted (.block first :: rest))
    (hrest : rest ≠ []) : spell text [newline] true (dropEmptyFirst (.block first :: rest)) =
      text first ++ foldFrom 0 (viewsOf text rest) := by
  have hnil : text [] = [] := (htext []).2 rfl
  cases rest with
  | nil => exact absurd rfl hrest
  | cons next rest =>
    rw [dropEmptyFirst] at h ⊢
    split
    · next hdrop =>
      rw [if_pos hdrop] at h
      obtain ⟨hfirst, rfl⟩ := hdrop
      obtain rfl := QuoteLine.block.inj hfirst
      rw [hnil, List.nil_append]
      cases rest with
      | nil => rfl
      | cons after rest =>
        have hbehind := (spell_mergedLines htext h hok.tail (List.cons_ne_nil _ _)).2 rfl 0
        have hview : QuoteLine.empty.view = [] := rfl
        rw [viewsOf, hview, hnil, foldFrom_nil (viewsOf_ne_nil text after rest), ← hbehind, spell,
          if_pos rfl]
        rfl
    · next hdrop =>
      rw [if_neg hdrop] at h
      by_cases hfirst : first = []
      · subst hfirst
        have hview : next.view ≠ [] := by
          intro hview
          rcases hok.tail.view_nil.1 hview with heq | heq
          · exact h.1 ⟨heq, .inl rfl⟩
          · exact hdrop ⟨rfl, heq⟩
        have hspace : mergedLines (.block [0x20] :: next :: rest) := by
          refine ⟨fun hpair => hview ?_, h.2⟩
          rw [hpair.1]
          rfl
        have hok' : Accepted (.block [0x20] :: next :: rest) := by
          refine List.forall_mem_cons.2 ⟨fun msg heq => (nomatch heq), hok.tail⟩
        have hafter := (spell_mergedLines htext hspace hok' (List.cons_ne_nil _ _)).1
          (List.cons_ne_nil _ _)
        rw [hnil, List.nil_append, ← hafter, lead, if_pos hview]
        rfl
      · have hafter := (spell_mergedLines htext h hok (List.cons_ne_nil _ _)).1 hfirst
        rw [spell_text (.block first) hfirst, List.append_assoc, hafter]
        rfl

include htext in
theorem spell_clean {first : Text} {lines' : List QuoteLine} (hspace : text [0x20] = [0x20])
    (hok : Accepted (.block first :: rest)) (hrest : rest ≠ [])
    (hlast : rest.getLast? ≠ some .empty) (hclean : Clean (decide (first = [])) false rest)
    (h : ReflTransGen Merge (dropEmptyFirst (.block first :: rest)) lines') (hmerged : Merged lines') :
    spell text [newline] true lines' =
      text first ++ foldFrom 0 (rest.map fun line => text line.view) := by
  have hnil : text [] = [] := (htext []).2 rfl
  rcases clean_cases hok hclean h hmerged with ⟨rfl, hlines⟩ | ⟨rfl, rfl, rfl⟩ | ⟨before, heq, rfl, hlines⟩
  · rw [spell_dropEmptyFirst htext hlines hok hrest, viewsOf_eq_map hlast]
  · rw [hnil]
    exact hspace.trans (congrArg (0x20 :: ·) hnil.symm)
  · obtain ⟨before', hdrop, hrest'⟩ : ∃ before',
        before ++ [.empty] = dropEmptyFirst (.block first :: (before' ++ [.empty])) ∧
          rest = before' ++ [.empty, .block []] := by
      cases rest with
      | nil => exact absurd rfl hrest
      | cons next rest =>
        rw [dropEmptyFirst] at heq
        split at heq
        · next hcond =>
          refine ⟨before, ?_, heq⟩
          obtain ⟨hfirst, rfl⟩ := hcond
          cases before with
          | nil => exact (if_pos ⟨hfirst, rfl⟩).symm
          | cons line before =>
            obtain ⟨rfl, -⟩ := List.cons.inj heq
            exact (if_pos ⟨hfirst, rfl⟩).symm
        · next hcond =>
          cases before with
          | nil => cases heq
          | cons line before =>
            obtain ⟨rfl, hrest'⟩ := List.cons.inj heq
            refine ⟨before, ?_, hrest'⟩
            cases before with
            | nil =>
              obtain ⟨rfl, -⟩ := List.cons.inj hrest'
              exact (if_neg hcond).symm
            | cons line before =>
              obtain ⟨rfl, -⟩ := List.cons.inj hrest'
              exact (if_neg hcond).symm
    have hok' : Accepted (.block first :: (before' ++ [.empty])) := by
      intro l hl
      apply hok
      rw [hrest']
      rcases List.mem_cons.1 hl with rfl | hl
      · exact List.mem_cons_self
      · refine List.mem_cons_of_mem _ ?_
        rcases List.mem_append.1 hl with hl | hl
        · exact List.mem_append_left _ hl
        · rw [List.mem_singleton.1 hl]
          simp
    rw [hdrop] at hlines ⊢
    have hne : before' ++ [QuoteLine.empty] ≠ [] :=
      List.append_ne_nil_of_right_ne_nil before' (List.cons_ne_nil _ _)
    rw [spell_dropEmptyFirst htext hlines hok' hne, viewsOf_append htext, hrest']

end Spell

/-- Besides the spaces and line breaks between lines, only their texts are written. -/
theorem count_spell (text : Text → Text) (hnil : text [] = []) {c : UInt8} (hc : c ≠ 0x20) (first : Bool)
    (lines : List QuoteLine) : (spell text [newline] first lines).count c =
      (if c = newline then lineBreaks first lines else 0) +
        (lines.flatMap fun line => text line.view).count c := by
  have hspace : List.count c [0x20] = 0 := List.count_eq_zero.2 fun h => hc (List.mem_singleton.1 h)
  have hmark : List.count c [newline] = if c = newline then 1 else 0 := by
    rw [List.count_singleton]
    by_cases h : c = newline
    · subst h
      rfl
    · rw [if_neg h, if_neg]
      intro heq
      exact h (beq_iff_eq.1 heq).symm
  induction lines generalizing first with
  | nil =>
    rw [spell, lineBreaks]
    split <;> rfl
  | cons line lines ih =>
    rw [List.flatMap_cons, List.count_append]
    cases lines with
    | nil =>
      rw [spell, lineBreaks]
      by_cases hempty : line = .empty
      · subst hempty
        rw [if_pos rfl, if_pos rfl, hmark, QuoteLine.view, hnil]
        rfl
      · rw [if_neg hempty, if_neg hempty, ite_self, Nat.zero_add, List.flatMap_nil, List.count_nil,
          Nat.add_zero]
        split
        · next hboth => rw [hboth.1, hnil, hspace, List.count_nil]
        · rfl
    | cons next rest =>
      have ih := ih false
      rw [spell, lineBreaks]
      by_cases hempty : line = .empty
      · have hcond : line = .empty ∨ line.view = [] ∧ first = false := .inl hempty
        have hview : line.view = [] := congrArg QuoteLine.view hempty
        rw [if_pos hempty, if_pos hcond, List.count_append, hmark, ih, hview, hnil, List.count_nil]
        split <;> omega
      · rw [if_neg hempty]
        by_cases hview : line.view = []
        · cases first with
          | true =>
            have hcond : ¬ (line = .empty ∨ line.view = [] ∧ true = false) :=
              fun hboth => hboth.elim hempty fun heq => (nomatch heq.2)
            rw [if_pos hview, if_neg hcond, if_pos rfl, List.count_append, hspace, ih, hview, hnil,
              List.count_nil]
            split <;> omega
          | false =>
            have hcond : line = .empty ∨ line.view = [] ∧ false = false := .inr ⟨hview, rfl⟩
            rw [if_pos hview, if_pos hcond, if_neg Bool.false_ne_true, List.count_append, hmark, ih,
              hview, hnil, List.count_nil]
            split <;> omega
        · have hcond : ¬ (line = .empty ∨ line.view = [] ∧ first = false) :=
            fun hboth => hboth.elim hempty fun heq => hview heq.1
          have hlead : List.count c (if next.view ≠ [] then [0x20] else []) = 0 := by
            split
            · exact hspace
            · rfl
          rw [if_neg hview, if_neg hcond, List.count_append, List.count_append, hlead, ih,
            Nat.zero_add]
          omega

theorem count_merge (text : Text → Text) (hnil : text [] = []) (hspace : text [0x20] = [0x20]) {c : UInt8}
    (hc : c ≠ 0x20) (h : ReflTransGen Merge lines lines') :
    (lines'.flatMap fun line => text line.view).count c =
      (lines.flatMap fun line => text line.view).count c := by
  induction h with
  | refl => rfl
  | tail _ hstep ih =>
    rw [← ih]
    cases hstep with
    | block before after =>
      have hzero : List.count c [0x20] = 0 :=
        List.count_eq_zero.2 fun h => hc (List.mem_singleton.1 h)
      simp only [List.flatMap_append, List.flatMap_cons, QuoteLine.view, hnil, hspace,
        List.count_append, hzero, List.nil_append, Nat.zero_add]
    | empty before after =>
      simp only [List.flatMap_append, List.flatMap_cons, QuoteLine.view, hnil, List.nil_append]

theorem flatMap_dropEmptyFirst (text : Text → Text) (hnil : text [] = []) (lines : List QuoteLine) :
    ((dropEmptyFirst lines).flatMap fun line => text line.view) =
      lines.flatMap fun line => text line.view := by
  unfold dropEmptyFirst
  split
  · split
    · next hdrop =>
      rw [hdrop.1, List.flatMap_cons, List.flatMap_cons, QuoteLine.view, hnil, List.nil_append]
      rfl
    · rfl
  · rfl

theorem lineBreaks_cons (line next : QuoteLine) (rest : List QuoteLine) (first : Bool) :
    lineBreaks first (line :: next :: rest) =
      (if line = .empty ∨ line.view = [] ∧ first = false then 1 else 0) +
        lineBreaks false (next :: rest) := rfl

theorem lineBreaks_dropEmptyFirst {first : Text} (hrest : rest ≠ []) (hlast : rest.getLast? ≠ some .empty) :
    lineBreaks true (dropEmptyFirst (.block first :: rest)) = lineBreaks false rest := by
  cases rest with
  | nil => exact absurd rfl hrest
  | cons next rest =>
    rw [dropEmptyFirst]
    split
    · next hdrop =>
      obtain ⟨-, rfl⟩ := hdrop
      cases rest with
      | nil => exact absurd rfl hlast
      | cons after rest => rfl
    · rw [lineBreaks_cons, if_neg, Nat.zero_add]
      intro hboth
      rcases hboth with heq | heq
      · cases heq
      · cases heq.2

end Trieste.Yaml
