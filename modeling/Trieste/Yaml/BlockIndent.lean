import Trieste.Yaml.Lines

namespace Trieste.Yaml
set_option autoImplicit true
open Utf8

/-- The loop of `detect_indent`: the size of the last blank line, and where the text of the first
other line starts. -/
def detectLoop (maxEmptySize : Nat) : List Text → Nat × Option Nat
  | [] => (maxEmptySize, none)
  | view :: lines =>
    match findFirstNotOf [0x20, newline] view 0 with
    | none => detectLoop view.length lines
    | some pos => (maxEmptySize, some pos)

/-- `detect_indent`, with nothing for `npos` -/
def detectIndent (lines : List Text) : Option Nat :=
  let (maxEmptySize, found) := detectLoop 0 lines
  let indent := found.getD maxEmptySize
  if indent < maxEmptySize then none else some indent

/-- The loop of `cleanup_block`, for the lines from a position on: where the lines end. -/
def cleanupLoop (lines : List Text) (indent : Nat) : Nat → Nat → List Text → Except String Nat
  | _, stop, [] => .ok stop
  | it, stop, view :: rest =>
    match findFirstNotOf [0x20, tab, carriageReturn] view 0 with
    | none => cleanupLoop lines indent (it + 1) stop rest
    | some pos =>
      if view[pos]? ≠ some 0x23 then
        if indent ≤ view.length then cleanupLoop lines indent (it + 1) lines.length rest
        else .error "Invalid block scalar"
      else cleanupLoop lines indent (it + 1) (if pos < indent then it else stop) rest

/-- `cleanup_block`: the indentation and the lines, or the message of an error. -/
def cleanupBlock (lines : List Text) (indent : Option Nat) : Except String (Nat × List Text) :=
  match indent with
  | none => .error "Empty line has too many spaces"
  | some indent =>
    (cleanupLoop lines indent 0 lines.length lines).map fun stop => (indent, lines.take stop)

/-- A line of a block scalar, with the kind of its end. -/
structure BlockLine where
  text : Text
  crlf : Bool
  plain : newline ∉ text ∧ carriageReturn ∉ text

namespace BlockLine

/-- The location of an empty line is its end without the last character, and that of another one
its text. -/
def view (l : BlockLine) : Text := if l.text = [] ∧ l.crlf then [carriageReturn] else l.text

def isBlank (l : BlockLine) : Bool := l.text.all (· = 0x20)

def spaces (l : BlockLine) : Nat := (l.text.takeWhile (· = 0x20)).length

end BlockLine

def leadingBlank (lines : List BlockLine) : List BlockLine := lines.takeWhile BlockLine.isBlank

def firstText (lines : List BlockLine) : Option BlockLine :=
  (lines.dropWhile BlockLine.isBlank).head?

/-- The indentation of the first line that is not blank, if no blank line before it has more
spaces, or the length of the longest line. -/
def yamlIndent (lines : List BlockLine) : Option Nat :=
  match firstText lines with
  | some first => if ∃ l ∈ leadingBlank lines, first.spaces < l.spaces then none else some first.spaces
  | none => some ((lines.map BlockLine.spaces).foldr max 0)

namespace BlockLine

/-- The scan goes on after the line: a blank one that is not a lone carriage return. -/
def passes (l : BlockLine) : Bool := l.isBlank && !(l.text.isEmpty && l.crlf)

theorem spaces_of_blank {l : BlockLine} (h : l.isBlank = true) : l.spaces = l.text.length := by
  rw [spaces, List.takeWhile_eq_self_iff.2]
  exact fun c hc => List.all_eq_true.1 h c hc

theorem findIdx_spaces {text : Text} (h : newline ∉ text) (rest : Text) :
    (text ++ rest).findIdx? (· ∉ [0x20, newline]) =
      if text.all (· = 0x20) then (rest.findIdx? (· ∉ [0x20, newline])).map (· + text.length)
      else some (text.takeWhile (· = 0x20)).length := by
  induction text with
  | nil =>
    rw [List.nil_append, List.all_nil, if_pos rfl]
    cases rest.findIdx? (· ∉ [0x20, newline]) <;> rfl
  | cons c text ih =>
    have hc : newline ≠ c := fun heq => h (heq ▸ List.mem_cons_self)
    have ih := ih fun hmem => h (List.mem_cons_of_mem c hmem)
    rw [List.cons_append, List.findIdx?_cons, List.all_cons, List.takeWhile_cons]
    by_cases hspace : c = 0x20
    · have hset : ¬ c ∉ [0x20, newline] := by simp [hspace]
      rw [if_neg (by simpa using hset), ih]
      simp only [hspace, decide_true, Bool.true_and, if_true, List.length_cons]
      split
      · rw [Option.map_map]
        rfl
      · rfl
    · have hset : c ∉ [0x20, newline] := by simp [hspace, hc.symm]
      rw [if_pos (by simpa using hset)]
      simp [hspace]

theorem find_view (l : BlockLine) : findFirstNotOf [0x20, newline] l.view 0 =
    if l.passes then none else some l.spaces := by
  by_cases hcr : l.text = [] ∧ l.crlf
  · have hpasses : l.passes = false := by simp [passes, hcr]
    have hspaces : l.spaces = 0 := by simp [spaces, hcr]
    rw [view, if_pos hcr, hpasses, hspaces]
    decide
  · have hpasses : l.passes = l.isBlank := by
      rw [passes, Bool.and_eq_left_iff_imp]
      intro _
      rw [Bool.not_eq_true', Bool.and_eq_false_iff, List.isEmpty_eq_false_iff]
      simpa [or_iff_not_imp_left] using hcr
    have hfind := findIdx_spaces l.plain.1 []
    rw [List.append_nil] at hfind
    rw [view, if_neg hcr, hpasses, findFirstNotOf, List.drop_zero, hfind, isBlank, spaces]
    split
    · rfl
    · rw [Option.map_some, Nat.zero_add]

theorem length_view {l : BlockLine} (h : l.passes = true) : l.view.length = l.spaces := by
  rw [passes, Bool.and_eq_true, Bool.not_eq_true'] at h
  rw [spaces_of_blank h.1, view, if_neg]
  simpa using h.2

end BlockLine

def passed (lines : List BlockLine) : List BlockLine := lines.takeWhile BlockLine.passes

def stopLine (lines : List BlockLine) : Option BlockLine :=
  (lines.dropWhile BlockLine.passes).head?

def lastPassed (lines : List BlockLine) : Nat :=
  ((passed lines).getLast?.map BlockLine.spaces).getD 0

theorem detectLoop_eq (size : Nat) (lines : List BlockLine) :
    detectLoop size (lines.map BlockLine.view) =
      (((passed lines).getLast?.map BlockLine.spaces).getD size,
        (stopLine lines).map BlockLine.spaces) := by
  induction lines generalizing size with
  | nil => rfl
  | cons l lines ih =>
    rw [List.map_cons, detectLoop, l.find_view, passed, stopLine, List.takeWhile_cons,
      List.dropWhile_cons]
    cases hl : l.passes with
    | true =>
      simp only [if_true]
      rw [ih, BlockLine.length_view hl, List.getLast?_cons, Option.map_some, Option.getD_some]
      refine Prod.ext ?_ rfl
      change _ = BlockLine.spaces ((passed lines).getLast?.getD l)
      cases (passed lines).getLast? <;> rfl
    | false => rfl

theorem detectIndent_eq (lines : List BlockLine) : detectIndent (lines.map BlockLine.view) =
    match stopLine lines with
    | none => some (lastPassed lines)
    | some stop =>
      if stop.spaces < lastPassed lines then none else some stop.spaces := by
  rw [detectIndent, detectLoop_eq]
  cases stopLine lines with
  | none => exact if_neg (Nat.lt_irrefl _)
  | some stop => rfl

/-- Where all lines are blank, the last one that the scan passes, or else the one at which it
stops, is the longest. Otherwise, if some blank line in front has more spaces than the first text,
the last one that the scan passes has more than the line at which it stops, and if none has, this
line has as many spaces as the text. -/
def FindsIndent (lines : List BlockLine) : Prop :=
  match stopLine lines, firstText lines with
  | none, _ => ∀ l ∈ lines, l.spaces ≤ lastPassed lines
  | some stop, none => ∀ l ∈ lines, l.spaces ≤ stop.spaces
  | some stop, some first =>
    if ∃ l ∈ leadingBlank lines, first.spaces < l.spaces then stop.spaces < lastPassed lines
    else stop.spaces = first.spaces

theorem le_foldr_max {xs : List Nat} (h : x ∈ xs) : x ≤ xs.foldr max 0 := by
  induction xs with
  | nil => cases h
  | cons y xs ih =>
    rcases List.mem_cons.1 h with rfl | h
    · exact Nat.le_max_left _ _
    · exact Nat.le_trans (ih h) (Nat.le_max_right _ _)

theorem foldr_max_le {xs : List Nat} (h : ∀ x ∈ xs, x ≤ n) : xs.foldr max 0 ≤ n := by
  induction xs with
  | nil => exact Nat.zero_le n
  | cons y xs ih =>
    rw [List.forall_mem_cons] at h
    exact Nat.max_le.2 ⟨h.1, ih h.2⟩

theorem longest_iff {lines : List BlockLine} (h : n = 0 ∨ ∃ l ∈ lines, l.spaces = n) :
    n = (lines.map BlockLine.spaces).foldr max 0 ↔ ∀ l ∈ lines, l.spaces ≤ n := by
  constructor
  · rintro rfl l hl
    exact le_foldr_max (List.mem_map_of_mem hl)
  · intro hle
    apply Nat.le_antisymm
    · rcases h with rfl | ⟨l, hl, rfl⟩
      · exact Nat.zero_le _
      · exact le_foldr_max (List.mem_map_of_mem hl)
    · exact foldr_max_le (List.forall_mem_map.2 hle)

theorem lastPassed_mem (lines : List BlockLine) :
    lastPassed lines = 0 ∨ ∃ l ∈ passed lines, l.spaces = lastPassed lines := by
  rw [lastPassed]
  cases h : (passed lines).getLast? with
  | none => exact .inl rfl
  | some l => exact .inr ⟨l, List.mem_of_getLast? h, rfl⟩

theorem passed_leading {lines : List BlockLine} (h : l ∈ passed lines) :
    l ∈ leadingBlank lines := by
  induction lines with
  | nil => exact h
  | cons k lines ih =>
    rw [passed, List.takeWhile_cons] at h
    rw [leadingBlank, List.takeWhile_cons]
    split at h
    · rename_i hk
      rw [BlockLine.passes, Bool.and_eq_true] at hk
      rw [if_pos hk.1]
      rcases List.mem_cons.1 h with rfl | h
      · exact List.mem_cons_self
      · exact List.mem_cons_of_mem k (ih h)
    · cases h

theorem leading_mem {lines : List BlockLine} (h : l ∈ leadingBlank lines) : l ∈ lines :=
  (List.takeWhile_sublist _).mem h

theorem lastPassed_le {lines : List BlockLine} (h : ∀ l ∈ leadingBlank lines, l.spaces ≤ n) :
    lastPassed lines ≤ n := by
  rcases lastPassed_mem lines with hzero | ⟨l, hl, hlast⟩
  · exact hzero ▸ Nat.zero_le n
  · exact hlast ▸ h l (passed_leading hl)

theorem stopLine_mem {lines : List BlockLine} (h : stopLine lines = some stop) : stop ∈ lines :=
  (List.dropWhile_sublist _).mem (List.mem_of_head? h)

theorem firstText_of_passed {lines : List BlockLine} (h : stopLine lines = none) :
    firstText lines = none := by
  rw [stopLine, List.head?_eq_none_iff, List.dropWhile_eq_nil_iff] at h
  rw [firstText, List.head?_eq_none_iff, List.dropWhile_eq_nil_iff]
  intro l hl
  have hpasses := h l hl
  rw [BlockLine.passes, Bool.and_eq_true] at hpasses
  exact hpasses.1

theorem mem_passed {lines : List BlockLine} (h : stopLine lines = none) : passed lines = lines := by
  rw [stopLine, List.head?_eq_none_iff, List.dropWhile_eq_nil_iff] at h
  exact List.takeWhile_eq_self_iff.2 h

theorem detectIndent_iff (lines : List BlockLine) :
    detectIndent (lines.map BlockLine.view) = yamlIndent lines ↔ FindsIndent lines := by
  rw [detectIndent_eq, yamlIndent, FindsIndent]
  cases hstop : stopLine lines with
  | none =>
    have hlast := lastPassed_mem lines
    rw [mem_passed hstop] at hlast
    simp only [firstText_of_passed hstop, Option.some.injEq]
    exact longest_iff hlast
  | some stop =>
    cases hfirst : firstText lines with
    | none =>
      have hmem : stop.spaces = 0 ∨ ∃ l ∈ lines, l.spaces = stop.spaces :=
        .inr ⟨stop, stopLine_mem hstop, rfl⟩
      dsimp only
      split
      · rename_i hlt
        refine iff_of_false nofun fun hall => ?_
        have hle := lastPassed_le fun l hl => hall l (leading_mem hl)
        exact absurd hlt (Nat.not_lt.2 hle)
      · rw [Option.some.injEq]
        exact longest_iff hmem
    | some first =>
      dsimp only
      split <;> split
      · rename_i hlt hlong
        exact iff_of_true rfl hlt
      · rename_i hlt hlong
        refine iff_of_false nofun fun heq => ?_
        have hle := lastPassed_le fun l hl => Nat.le_of_not_lt fun h => hlong ⟨l, hl, h⟩
        exact absurd hlt (Nat.not_lt.2 (heq ▸ hle))
      · rename_i hlt hlong
        exact iff_of_false nofun hlt
      · rw [Option.some.injEq]

theorem cleanupLoop_error {lines rest : List Text}
    (h : cleanupLoop lines indent it stop rest = .error message) :
    message = "Invalid block scalar" := by
  induction rest generalizing it stop with
  | nil => cases h
  | cons view rest ih =>
    rw [cleanupLoop] at h
    split at h
    · exact ih h
    · split at h
      · split at h
        · exact ih h
        · cases h
          rfl
      · exact ih h

theorem cleanupBlock_error (lines : List Text) (indent : Option Nat) :
    cleanupBlock lines indent = .error "Empty line has too many spaces" ↔ indent = none := by
  cases indent with
  | none => exact iff_of_true rfl rfl
  | some indent =>
    refine iff_of_false (fun h => ?_) nofun
    rw [cleanupBlock] at h
    cases hloop : cleanupLoop lines indent 0 lines.length lines with
    | ok stop =>
      rw [hloop] at h
      cases h
    | error message =>
      rw [hloop, cleanupLoop_error hloop] at h
      exact absurd (Except.error.inj h) (by decide)

/-- The indentation is that of YAML, or the error for a blank line that is too long, exactly where
the scan finds it. -/
theorem detect_indent_iff (lines : List BlockLine) :
    (detectIndent (lines.map BlockLine.view) = yamlIndent lines ↔ FindsIndent lines) ∧
      (cleanupBlock (lines.map BlockLine.view) (detectIndent (lines.map BlockLine.view)) =
        .error "Empty line has too many spaces" ↔
          detectIndent (lines.map BlockLine.view) = none) :=
  ⟨detectIndent_iff lines, cleanupBlock_error _ _⟩

def shorterLast : List BlockLine :=
  [⟨[0x20, 0x20, 0x20, 0x20], false, by decide⟩, ⟨[0x20], false, by decide⟩,
    ⟨[0x20, 0x20, 0x78], false, by decide⟩]

/-- An empty line with a carriage return before a text with two spaces. -/
def carriageLine : List BlockLine :=
  [⟨[], true, by decide⟩, ⟨[0x20, 0x20, 0x78], true, by decide⟩]

/-- Only the last blank line counts, and a carriage return is taken for text. -/
theorem longer_blank_missed :
    detectIndent (shorterLast.map BlockLine.view) = some 2 ∧ yamlIndent shorterLast = none ∧
      detectIndent (carriageLine.map BlockLine.view) = some 0 ∧
        yamlIndent carriageLine = some 2 := by
  decide

end Trieste.Yaml
