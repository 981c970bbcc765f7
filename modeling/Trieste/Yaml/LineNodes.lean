import Trieste.Yaml.Merging

namespace Trieste.Yaml
set_option autoImplicit true
open Utf8

def isBlankChar (c : UInt8) : Bool := c = 0x20 || c = tab

def isWhite (c : UInt8) : Bool := c = 0x20 || c = tab || c = carriageReturn

def isBlankLine (line : Text) : Bool := line.all isWhite

def stripEnd (line : Text) : Text := line.rdropWhile isWhite

/-- A location with its text, and the text before it. -/
structure At (text before line : Text) (l : Location) : Prop where
  prefixed : before ++ line <+: text
  pos : l.pos = before.length
  len : l.len = line.length

namespace At

theorem view (h : At text before line l) : viewOf text l = line := by
  obtain ⟨after, heq⟩ := h.prefixed
  rw [viewOf, h.pos, h.len, ← heq, List.append_assoc, List.drop_left, List.take_left]

theorem column (h : At text before line l) :
    Yaml.column text l.pos = (before.rtakeWhile (· ≠ newline)).length := by
  obtain ⟨after, heq⟩ := h.prefixed
  rw [Yaml.column, h.pos, ← heq, List.append_assoc, List.take_left]

theorem right (h : At text before (a ++ line) l) : At text (before ++ a) line
    { l with pos := l.pos + a.length, len := l.len - a.length } := by
  refine ⟨?_, ?_, ?_⟩
  · rw [List.append_assoc]
    exact h.prefixed
  · rw [List.length_append, ← h.pos]
  · dsimp only
    rw [h.len, List.length_append, Nat.add_sub_cancel_left]

theorem left (h : At text before (line ++ b) l) : At text before line { l with len := line.length } := by
  refine ⟨?_, h.pos, rfl⟩
  have hp := h.prefixed
  rw [← List.append_assoc] at hp
  exact (List.prefix_append _ _).trans hp

theorem wrapped (h : At text (before ++ [c]) line l) :
    At text before (c :: line) { l with pos := l.pos - 1, len := l.len + 1 } := by
  refine ⟨?_, ?_, ?_⟩
  · have hp := h.prefixed
    rwa [List.append_assoc, List.singleton_append] at hp
  · dsimp only
    rw [h.pos, List.length_append, List.length_singleton, Nat.add_sub_cancel]
  · exact congrArg (· + 1) h.len

end At

theorem findIdx?_skip {p : UInt8 → Bool} (ha : ∀ c ∈ a, p c = false)
    (hs : ∀ c, s.head? = some c → p c = true) :
    (a ++ s).findIdx? p = if s = [] then none else some a.length := by
  have hnone : a.findIdx? p = none := List.findIdx?_eq_none_iff.2 ha
  rw [List.findIdx?_append, hnone, Option.none_or]
  cases s with
  | nil => rfl
  | cons c s =>
    rw [List.findIdx?_cons, if_pos (hs c rfl), if_neg (List.cons_ne_nil c s), Option.map_some,
      Nat.zero_add]

theorem findFirstNotOf_skip (set before a s : Text) (ha : ∀ c ∈ a, c ∈ set)
    (hs : ∀ c, s.head? = some c → c ∉ set) :
    findFirstNotOf set (before ++ (a ++ s)) before.length =
      if s = [] then none else some (before.length + a.length) := by
  rw [findFirstNotOf, List.drop_left, findIdx?_skip
    (fun c hc => decide_eq_false (not_not.2 (ha c hc))) fun c hc => decide_eq_true (hs c hc)]
  split <;> rfl

theorem findLastNotOf_skip {set : Text} (ha : ∀ c ∈ a, c ∈ set)
    (hs : ∀ c, s.getLast? = some c → c ∉ set) :
    findLastNotOf set (s ++ a) = if s = [] then none else some (s.length - 1) := by
  have hrev : ∀ c ∈ a.reverse, decide (c ∉ set) = false := fun c hc =>
    decide_eq_false (not_not.2 (ha c (List.mem_reverse.1 hc)))
  have hhead : ∀ c, s.reverse.head? = some c → decide (c ∉ set) = true := fun c hc =>
    decide_eq_true (hs c (List.head?_reverse.symm.trans hc))
  rw [findLastNotOf, List.reverse_append, findIdx?_skip hrev hhead, List.length_reverse,
    List.length_append]
  by_cases hnil : s = []
  · subst hnil
    rfl
  · rw [if_neg hnil, if_neg (mt List.reverse_eq_nil_iff.1 hnil), Option.map_some]
    congr 1
    omega

section Trim
variable {text before line : Text} {l : Location} {minIndent : Nat}

theorem trimEnd_at (h : At text before (s ++ a) l) (hbackslash : backslash ∉ s)
    (ha : ∀ c ∈ a, c ∈ [0x20, tab, carriageReturn, newline])
    (hs : ∀ c, s.getLast? = some c → c ∉ [0x20, tab, carriageReturn, newline]) :
    trimEnd text l = { l with len := s.length } := by
  rw [trimEnd, h.view, findLastNotOf_skip ha hs]
  by_cases hnil : s = []
  · subst hnil
    rfl
  · have hlen : s.length - 1 + 1 = s.length := Nat.sub_add_cancel (List.length_pos_iff.2 hnil)
    rw [if_neg hnil]
    dsimp only
    split
    · next hall =>
      rw [List.length_append] at hall
      have hlen' : l.len = s.length := by
        rw [h.len, List.length_append]
        omega
      rw [← hlen']
    · have hnot : ¬ ((s ++ a)[s.length - 1]? = some backslash ∧
          (s ++ a)[s.length - 1 + 1]? = some tab) := by
        intro hboth
        rw [List.getElem?_append_left (by omega)] at hboth
        exact hbackslash (List.mem_of_getElem? hboth.1)
      rw [if_neg hnot, hlen]

theorem trimEnd_line (h : At text before line l) (hbackslash : backslash ∉ line)
    (hnewline : newline ∉ line) : trimEnd text l = { l with len := (stripEnd line).length } := by
  have heq : stripEnd line ++ line.rtakeWhile isWhite = line := List.rdropWhile_append_rtakeWhile
  have hfront : stripEnd line <+: line := List.rdropWhile_prefix _ line
  rw [← heq] at h
  refine trimEnd_at h (fun hc => hbackslash (hfront.subset hc)) (fun c hc => ?_) fun c hc => ?_
  · have hwhite := List.mem_rtakeWhile_imp hc
    simp only [isWhite, Bool.or_eq_true, decide_eq_true_eq] at hwhite
    rcases hwhite with (rfl | rfl) | rfl <;> decide
  · have hne : stripEnd line ≠ [] := by
      intro hnil
      rw [hnil] at hc
      cases hc
    have hlast := List.rdropWhile_last_not isWhite line hne
    rw [List.getLast?_eq_some_getLast hne] at hc
    obtain rfl := Option.some.inj hc
    have hmem : (stripEnd line).getLast hne ∈ line := hfront.subset (List.getLast_mem hne)
    intro hset
    simp only [List.mem_cons, List.not_mem_nil, or_false] at hset
    simp only [isWhite, Bool.or_eq_true, decide_eq_true_eq] at hlast
    rcases hset with heq | heq | heq | heq
    · exact hlast (.inl (.inl heq))
    · exact hlast (.inl (.inr heq))
    · exact hlast (.inr heq)
    · exact hnewline (heq ▸ hmem)

theorem head_dropWhile {p : UInt8 → Bool} (line : Text) :
    ∀ c, (line.dropWhile p).head? = some c → p c = false := by
  intro c hc
  cases hp : p c with
  | false => rfl
  | true =>
    have hne : line.dropWhile p ≠ [] := by
      intro hnil
      rw [hnil] at hc
      cases hc
    have hnot := List.head_dropWhile_not p hne
    rw [List.head?_eq_some_head hne] at hc
    rw [Option.some.inj hc, hp] at hnot
    cases hnot

def indentOf (line : Text) : Text := line.takeWhile (· = 0x20)

theorem indent_split (line : Text) : indentOf line ++ line.dropWhile (· = 0x20) = line :=
  List.takeWhile_append_dropWhile

theorem mem_indentOf (hc : c ∈ indentOf line) : c = 0x20 := by
  have hspace := List.mem_takeWhile_imp hc
  exact of_decide_eq_true hspace

theorem find_indent (line : Text) : findFirstNotOf [0x20] line 0 =
    if line.dropWhile (· = 0x20) = [] then none else some (indentOf line).length := by
  have hspaces : ∀ c ∈ indentOf line, c ∈ [0x20] := fun c hc =>
    List.mem_singleton.2 (mem_indentOf hc)
  have hstop : ∀ c, (line.dropWhile (· = 0x20)).head? = some c → c ∉ ([0x20] : Text) :=
    fun c hc hmem => of_decide_eq_false (head_dropWhile line c hc) (List.mem_singleton.1 hmem)
  have hfind := findFirstNotOf_skip [0x20] [] (indentOf line) (line.dropWhile (· = 0x20)) hspaces hstop
  rwa [List.nil_append, indent_split, List.length_nil, Nat.zero_add] at hfind

theorem blanks_split (line : Text) : indentOf line ++
    ((line.dropWhile (· = 0x20)).takeWhile isBlankChar ++ line.dropWhile isBlankChar) = line ∧
      line.takeWhile isBlankChar =
        indentOf line ++ (line.dropWhile (· = 0x20)).takeWhile isBlankChar := by
  have hblank : ∀ c ∈ indentOf line, isBlankChar c = true := by
    intro c hc
    rw [mem_indentOf hc]
    rfl
  have hdrop : (indentOf line ++ line.dropWhile (· = 0x20)).dropWhile isBlankChar =
      (line.dropWhile (· = 0x20)).dropWhile isBlankChar := List.dropWhile_append_of_pos hblank
  have htake : (indentOf line ++ line.dropWhile (· = 0x20)).takeWhile isBlankChar =
      indentOf line ++ (line.dropWhile (· = 0x20)).takeWhile isBlankChar :=
    List.takeWhile_append_of_pos hblank
  rw [indent_split] at hdrop htake
  refine ⟨?_, htake⟩
  rw [hdrop, List.takeWhile_append_dropWhile, indent_split]

theorem find_blanks (line : Text) : findFirstNotOf [0x20, tab] line (indentOf line).length =
    if line.dropWhile isBlankChar = [] then none else some (line.takeWhile isBlankChar).length := by
  obtain ⟨hline, htake⟩ := blanks_split line
  have hblanks : ∀ c ∈ (line.dropWhile (· = 0x20)).takeWhile isBlankChar, c ∈ [0x20, tab] := by
    intro c hc
    have hblank := List.mem_takeWhile_imp hc
    simp only [isBlankChar, Bool.or_eq_true, decide_eq_true_eq] at hblank
    simpa using hblank
  have hstop : ∀ c, (line.dropWhile isBlankChar).head? = some c → c ∉ [0x20, tab] := by
    intro c hc hmem
    have hnot := head_dropWhile line c hc
    simp only [isBlankChar, Bool.or_eq_false_iff, decide_eq_false_iff_not] at hnot
    simp only [List.mem_cons, List.not_mem_nil, or_false] at hmem
    exact hmem.elim hnot.1 hnot.2
  have hfind := findFirstNotOf_skip [0x20, tab] (indentOf line) _ _ hblanks hstop
  rwa [hline, ← List.length_append, ← htake] at hfind

theorem trimStart_spaces (h : At text before line l) (hall : line.dropWhile (· = 0x20) = []) :
    trimStart text minIndent l = { l with len := 0 } := by
  rw [trimStart, h.view, find_indent, if_pos hall]

theorem trimStart_short (h : At text before line l) (hne : line.dropWhile (· = 0x20) ≠ [])
    (hshort : ¬ minIndent ≤ (indentOf line).length) : trimStart text minIndent l =
      { l with pos := l.pos + (indentOf line).length, len := l.len - (indentOf line).length } := by
  rw [trimStart, h.view, find_indent, if_neg hne]
  dsimp only
  rw [if_neg hshort]

theorem trimStart_wrapped (h : At text before line l) (hne : line.dropWhile (· = 0x20) ≠ [])
    (hle : minIndent ≤ (indentOf line).length) (hall : line.dropWhile isBlankChar = []) :
    trimStart text minIndent l = { l with pos := l.pos - 1, len := l.len + 1 } := by
  rw [trimStart, h.view, find_indent, if_neg hne]
  dsimp only
  rw [if_pos hle, find_blanks, if_pos hall]

theorem trimStart_text (h : At text before line l) (hle : minIndent ≤ (indentOf line).length)
    (hne : line.dropWhile isBlankChar ≠ []) : trimStart text minIndent l =
      { l with pos := l.pos + (line.takeWhile isBlankChar).length,
               len := l.len - (line.takeWhile isBlankChar).length } := by
  have hspaces : line.dropWhile (· = 0x20) ≠ [] := by
    intro hall
    have hsplit := (blanks_split line).1
    apply hne
    have hdrop : (line.dropWhile (· = 0x20)).dropWhile isBlankChar = line.dropWhile isBlankChar := by
      conv_rhs => rw [← indent_split line]
      refine (List.dropWhile_append_of_pos fun c hc => ?_).symm
      rw [mem_indentOf hc]
      rfl
    rw [← hdrop, hall]
    rfl
  rw [trimStart, h.view, find_indent, if_neg hspaces]
  dsimp only
  rw [if_pos hle, find_blanks, if_neg hne]

end Trim

/-- A blank line between others that `to_lines` does not take for an empty one. -/
def bare (minIndent : Nat) (afterEmpty : Bool) (line : Text) : Bool :=
  if line.dropWhile (· = 0x20) = [] then false
  else if minIndent ≤ (indentOf line).length then
    if line.dropWhile isBlankChar = [] then !afterEmpty
    else decide (line.takeWhile isBlankChar ≠ [])
  else decide (indentOf line ≠ [])

def middleNode (minIndent : Nat) (afterEmpty : Bool) (line : Text) : QuoteLine :=
  if isBlankLine line then if bare minIndent afterEmpty line then .block [] else .empty
  else .block (stripEnd (line.dropWhile isBlankChar))

/-- The child for the last line. -/
structure LastNode (last : Text) (node : QuoteLine) : Prop where
  spaces : last.dropWhile (· = 0x20) = [] → node = .block []
  content : isBlankLine last = false → node = .block (last.dropWhile isBlankChar)
  blank : isBlankLine last = true → last.dropWhile (· = 0x20) ≠ [] → (∃ msg, node = .error msg) ∨
    ∃ view, node = .block view ∧ view ≠ [] ∧ (newline ∈ view → tab ∈ view) ∧
      ∀ c ∈ view, c = newline ∨ c ∈ last

section Children
variable {text before line : Text} {l : Location} {minIndent : Nat}

theorem rtakeWhile_line (before : Text) (h : newline ∉ line) :
    (before ++ [newline] ++ line).rtakeWhile (· ≠ newline) = line := by
  have hall : ∀ c ∈ line.reverse, (c ≠ newline) := fun c hc heq =>
    h (heq ▸ List.mem_reverse.1 hc)
  have hstop : (newline :: before.reverse).takeWhile (fun c => decide (c ≠ newline)) = [] := by
    rw [List.takeWhile_cons]
    rfl
  rw [List.rtakeWhile, List.reverse_append, List.reverse_append, List.reverse_singleton,
    List.singleton_append, List.takeWhile_append_of_pos fun c hc => decide_eq_true (hall c hc), hstop,
    List.append_nil, List.reverse_reverse]

theorem checkLine_nil (hlen : l.len = 0) (flag : Bool) :
    checkLine text minIndent (flag, l) = if flag then .empty else .block [] := by
  rw [checkLine, if_pos hlen]
  dsimp only
  rw [viewOf, hlen, List.take_zero]

theorem checkLine_view (h : At text before line l) (hne : line ≠ []) (flag : Bool) :
    (∃ msg, checkLine text minIndent (flag, l) = .error msg) ∨
      checkLine text minIndent (flag, l) = .block line := by
  have hlen : l.len ≠ 0 := by
    rw [h.len]
    exact mt List.length_eq_zero_iff.1 hne
  rw [checkLine, if_neg hlen]
  dsimp only
  rw [h.view]
  split
  · exact .inl ⟨_, rfl⟩
  · split
    · exact .inl ⟨_, rfl⟩
    · exact .inr rfl

theorem checkLine_text (h : At text before line l) (hne : line ≠ [])
    (hcol : minIndent ≤ column text l.pos) (hdots : ¬ markOf "..." <:+: line) (flag : Bool) :
    checkLine text minIndent (flag, l) = .block line := by
  have hlen : l.len ≠ 0 := by
    rw [h.len]
    exact mt List.length_eq_zero_iff.1 hne
  have hmark : ¬ (markOf "... " <:+: line ∨ markOf "..." <:+ line) := by
    intro hboth
    rcases hboth with hinner | hsuffix
    · have hfront : markOf "..." <:+: markOf "... " := ⟨[], [0x20], by decide⟩
      exact hdots (hfront.trans hinner)
    · exact hdots hsuffix.isInfix
  rw [checkLine, if_neg hlen]
  dsimp only
  rw [h.view, if_neg (Nat.not_lt.2 hcol), if_neg hmark]

theorem trimEnd_white (h : At text before line l) (hall : ∀ c ∈ line, isWhite c ∨ c = newline) :
    trimEnd text l = { l with len := 0 } := by
  have hset : ∀ c ∈ line, c ∈ [0x20, tab, carriageReturn, newline] := by
    intro c hc
    have hc := hall c hc
    simp only [isWhite, Bool.or_eq_true, decide_eq_true_eq] at hc
    simp only [List.mem_cons, List.not_mem_nil, or_false]
    tauto
  have hnil : At text before ([] ++ line) l := h
  exact trimEnd_at hnil List.not_mem_nil hset fun c hc => (nomatch hc)

theorem blank_of_mem (h : isBlankLine line = true) (hc : c ∈ line) : isWhite c ∨ c = newline :=
  .inl (List.all_eq_true.1 h c hc)

theorem at_dropWhile (h : At text (before ++ [newline]) line l) :
    At text (before ++ [newline] ++ line.takeWhile isBlankChar) (line.dropWhile isBlankChar)
      { l with pos := l.pos + (line.takeWhile isBlankChar).length,
               len := l.len - (line.takeWhile isBlankChar).length } :=
  At.right (show At text (before ++ [newline])
    (line.takeWhile isBlankChar ++ line.dropWhile isBlankChar) l by
      rwa [List.takeWhile_append_dropWhile])

theorem middleLine_blank (h : At text (before ++ [newline]) line l) (hnewline : newline ∉ line)
    (hblank : isBlankLine line = true) : checkLine text minIndent (middleLine text minIndent l) =
      middleNode minIndent (before.rtakeWhile (· ≠ newline)).isEmpty line := by
  have hnode : ∀ l', trim text minIndent l = l' → l'.len = 0 →
      (column text l'.pos = 0 ↔
        bare minIndent (before.rtakeWhile (· ≠ newline)).isEmpty line = false) →
      checkLine text minIndent (middleLine text minIndent l) =
        middleNode minIndent (before.rtakeWhile (· ≠ newline)).isEmpty line := by
    intro l' htrim hlen hcol
    rw [middleLine, htrim, checkLine_nil hlen, middleNode, if_pos hblank]
    by_cases hzero : column text l'.pos = 0
    · rw [hcol.1 hzero, if_pos (decide_eq_true ⟨hlen, hzero⟩)]
      rfl
    · have hbare : bare minIndent (before.rtakeWhile (· ≠ newline)).isEmpty line = true := by
        cases hb : bare minIndent (before.rtakeWhile (· ≠ newline)).isEmpty line with
        | true => rfl
        | false => exact absurd (hcol.2 hb) hzero
      rw [hbare, if_pos rfl, if_neg fun hd => hzero (of_decide_eq_true hd).2]
  by_cases hspaces : line.dropWhile (· = 0x20) = []
  · have hcol := h.column
    rw [← List.append_nil (before ++ [newline]), rtakeWhile_line before List.not_mem_nil] at hcol
    have hnil : At text (before ++ [newline]) [] { l with len := 0 } :=
      At.left (show At text (before ++ [newline]) ([] ++ line) l from h)
    have htrim := trimEnd_white hnil fun c hc => (nomatch hc)
    refine hnode { l with len := 0 } ?_ rfl ?_
    · rw [trim, trimStart_spaces h hspaces]
      exact htrim
    · rw [bare, if_pos hspaces]
      exact ⟨fun _ => rfl, fun _ => hcol⟩
  · by_cases hle : minIndent ≤ (indentOf line).length
    · by_cases hall : line.dropWhile isBlankChar = []
      · have hwrapped := h.wrapped
        have htrim := trimEnd_white hwrapped fun c hc => (List.mem_cons.1 hc).elim .inr fun hc =>
          blank_of_mem hblank hc
        refine hnode _ (by rw [trim, trimStart_wrapped h hspaces hle hall, htrim]) rfl ?_
        have hcol := hwrapped.column
        rw [bare, if_neg hspaces, if_pos hle, if_pos hall, Bool.not_eq_false', List.isEmpty_iff,
          ← List.length_eq_zero_iff, ← hcol]
      · have hright := at_dropWhile h
        have htrim := trimEnd_white hright fun c hc =>
          blank_of_mem hblank ((List.dropWhile_suffix _).subset hc)
        refine hnode _ (by rw [trim, trimStart_text h hle hall, htrim]) rfl ?_
        have hcol := hright.column
        rw [rtakeWhile_line before fun hc => hnewline ((List.takeWhile_prefix _).subset hc)] at hcol
        rw [bare, if_neg hspaces, if_pos hle, if_neg hall, decide_eq_false_iff_not, not_not,
          ← List.length_eq_zero_iff]
        exact Iff.of_eq (congrArg (· = 0) hcol)
    · have hright : At text (before ++ [newline] ++ indentOf line) (line.dropWhile (· = 0x20)) _ :=
        At.right (show At text (before ++ [newline]) (indentOf line ++ line.dropWhile (· = 0x20)) l by
          rwa [indent_split])
      have htrim := trimEnd_white hright fun c hc =>
        blank_of_mem hblank ((List.dropWhile_suffix _).subset hc)
      refine hnode _ (by rw [trim, trimStart_short h hspaces hle, htrim]) rfl ?_
      have hindent : newline ∉ indentOf line := fun hc =>
        hnewline ((List.takeWhile_prefix _).subset hc)
      have hcol := hright.column
      rw [rtakeWhile_line before hindent] at hcol
      rw [bare, if_neg hspaces, if_neg hle, decide_eq_false_iff_not, not_not,
        ← List.length_eq_zero_iff]
      exact Iff.of_eq (congrArg (· = 0) hcol)

theorem dropWhile_ne_nil (h : isBlankLine line = false) : line.dropWhile isBlankChar ≠ [] := by
  intro hnil
  have hall := List.dropWhile_eq_nil_iff.1 hnil
  have hwhite : isBlankLine line = true := by
    refine List.all_eq_true.2 fun c hc => ?_
    have hc := hall c hc
    simp only [isBlankChar, isWhite, Bool.or_eq_true] at hc ⊢
    exact .inl hc
  rw [hwhite] at h
  cases h

theorem stripEnd_ne_nil (h : isBlankLine line = false) :
    stripEnd (line.dropWhile isBlankChar) ≠ [] := by
  intro hnil
  have hall := List.rdropWhile_eq_nil_iff.1 hnil
  have hwhite : isBlankLine line = true := by
    refine List.all_eq_true.2 fun c hc => ?_
    rw [← List.takeWhile_append_dropWhile (p := isBlankChar) (l := line)] at hc
    rcases List.mem_append.1 hc with hc | hc
    · have hblank := List.mem_takeWhile_imp hc
      simp only [isBlankChar, isWhite, Bool.or_eq_true] at hblank ⊢
      exact .inl hblank
    · exact hall c hc
  rw [hwhite] at h
  cases h

theorem indentOf_le (line : Text) :
    (indentOf line).length ≤ (line.takeWhile isBlankChar).length := by
  rw [(blanks_split line).2, List.length_append]
  exact Nat.le_add_right _ _

theorem middleLine_content (h : At text (before ++ [newline]) line l) (hnewline : newline ∉ line)
    (hbackslash : backslash ∉ line) (hdots : ¬ markOf "..." <:+: line)
    (hcontent : isBlankLine line = false) (hle : minIndent ≤ (indentOf line).length)
    (afterEmpty : Bool) : checkLine text minIndent (middleLine text minIndent l) =
      middleNode minIndent afterEmpty line := by
  have hsuffix := List.dropWhile_suffix isBlankChar (l := line)
  have hright := at_dropWhile h
  have htrim := trimEnd_line hright (fun hc => hbackslash (hsuffix.subset hc))
    fun hc => hnewline (hsuffix.subset hc)
  have hfront : stripEnd (line.dropWhile isBlankChar) <+: line.dropWhile isBlankChar :=
    List.rdropWhile_prefix _ _
  obtain ⟨rest, hrest⟩ := hfront
  have hleft := At.left (hrest.symm ▸ hright)
  have hcol := hright.column
  rw [rtakeWhile_line before fun hc => hnewline ((List.takeWhile_prefix _).subset hc)] at hcol
  rw [middleLine, trim, trimStart_text h hle (dropWhile_ne_nil hcontent), htrim, middleNode,
    if_neg (by rw [hcontent]; exact Bool.false_ne_true)]
  refine checkLine_text hleft (stripEnd_ne_nil hcontent) ?_ ?_ _
  · refine Nat.le_trans hle (Nat.le_trans (indentOf_le line) ?_)
    exact hcol.ge
  · intro hinner
    have hline : stripEnd (line.dropWhile isBlankChar) <:+: line :=
      (List.rdropWhile_prefix _ _).isInfix.trans hsuffix.isInfix
    exact hdots (hinner.trans hline)

theorem mem_of_blank (hall : line.dropWhile isBlankChar = [])
    (hspaces : line.dropWhile (· = 0x20) ≠ []) : tab ∈ line := by
  obtain ⟨c, rest, heq⟩ := List.exists_cons_of_ne_nil hspaces
  have hhead : (line.dropWhile (· = 0x20)).head? = some c := congrArg List.head? heq
  have hne : c ≠ 0x20 := of_decide_eq_false (head_dropWhile line c hhead)
  have hmem : c ∈ line := (List.dropWhile_suffix _).subset (heq ▸ List.mem_cons_self)
  have hc := List.dropWhile_eq_nil_iff.1 hall c hmem
  simp only [isBlankChar, Bool.or_eq_true, decide_eq_true_eq] at hc
  exact hc.resolve_left hne ▸ hmem

theorem lastLine_node (h : At text (before ++ [newline]) line l) (hnewline : newline ∉ line)
    (hdots : ¬ markOf "..." <:+: line)
    (hindent : isBlankLine line = false → minIndent ≤ (indentOf line).length) :
    LastNode line (checkLine text minIndent (false, trimStart text minIndent l)) := by
  constructor
  · intro hspaces
    rw [trimStart_spaces h hspaces, checkLine_nil rfl]
    rfl
  · intro hcontent
    have hle := hindent hcontent
    have hright := at_dropWhile h
    have hcol := hright.column
    rw [rtakeWhile_line before fun hc => hnewline ((List.takeWhile_prefix _).subset hc)] at hcol
    rw [trimStart_text h hle (dropWhile_ne_nil hcontent)]
    refine checkLine_text hright (dropWhile_ne_nil hcontent) ?_ ?_ _
    · exact Nat.le_trans hle (Nat.le_trans (indentOf_le line) hcol.ge)
    · exact fun hinner => hdots (hinner.trans (List.dropWhile_suffix _).isInfix)
  · intro hblank hspaces
    by_cases hle : minIndent ≤ (indentOf line).length
    · by_cases hall : line.dropWhile isBlankChar = []
      · rw [trimStart_wrapped h hspaces hle hall]
        refine (checkLine_view h.wrapped (List.cons_ne_nil _ _) false).imp_right fun hnode => ?_
        refine ⟨_, hnode, List.cons_ne_nil _ _, fun _ => ?_, fun c hc => List.mem_cons.1 hc⟩
        exact List.mem_cons_of_mem _ (mem_of_blank hall hspaces)
      · rw [trimStart_text h hle hall]
        refine (checkLine_view (at_dropWhile h) hall false).imp_right fun hnode => ?_
        have hsubset := (List.dropWhile_suffix isBlankChar (l := line)).subset
        exact ⟨_, hnode, hall, fun hc => absurd (hsubset hc) hnewline, fun c hc => .inr (hsubset hc)⟩
    · rw [trimStart_short h hspaces hle]
      have hright : At text (before ++ [newline] ++ indentOf line) (line.dropWhile (· = 0x20)) _ :=
        At.right (show At text (before ++ [newline]) (indentOf line ++ line.dropWhile (· = 0x20)) l by
          rwa [indent_split])
      refine (checkLine_view hright hspaces false).imp_right fun hnode => ?_
      have hsubset := (List.dropWhile_suffix (· = 0x20) (l := line)).subset
      exact ⟨_, hnode, hspaces, fun hc => absurd (hsubset hc) hnewline, fun c hc => .inr (hsubset hc)⟩

theorem firstLine_node (h : At text (before ++ [q]) line l) (hq : q ≠ newline)
    (hnewline : newline ∉ line) (hbackslash : backslash ∉ line) (hdots : ¬ markOf "..." <:+: line)
    (hcol : minIndent ≤ (before.rtakeWhile (· ≠ newline)).length + 1) :
    (trimEnd text l).len = (stripEnd line).length ∧
      checkLine text minIndent (false, trimEnd text l) = .block (stripEnd line) := by
  have hfront : stripEnd line <+: line := List.rdropWhile_prefix _ line
  obtain ⟨rest, hrest⟩ := hfront
  have hleft := At.left (hrest.symm ▸ h)
  rw [trimEnd_line h hbackslash hnewline]
  refine ⟨rfl, ?_⟩
  by_cases hnil : stripEnd line = []
  · rw [checkLine_nil (by rw [hnil]; rfl), hnil]
    rfl
  · refine checkLine_text hleft hnil ?_ ?_ false
    · rw [hleft.column, List.rtakeWhile_concat, if_pos (decide_eq_true hq), List.length_append]
      exact hcol
    · intro hinner
      exact hdots (hinner.trans ((List.rdropWhile_prefix _ line).isInfix))

end Children

/-- The children for the lines behind the first one. -/
inductive RestNodes (minIndent : Nat) : Bool → List Text → List QuoteLine → Prop where
  | last : LastNode last node → RestNodes minIndent afterEmpty [last] [node]
  | cons : RestNodes minIndent (decide (line = [])) (next :: rest) nodes →
    RestNodes minIndent afterEmpty (line :: next :: rest)
      (middleNode minIndent afterEmpty line :: nodes)

/-- What the lines of a scalar have to be like. -/
structure Plain (minIndent : Nat) (line : Text) : Prop where
  newline : newline ∉ line
  backslash : backslash ∉ line
  dots : ¬ markOf "..." <:+: line
  indent : isBlankLine line = false → minIndent ≤ (indentOf line).length

def joinLines (lines : List Text) : Text := [newline].intercalate lines

theorem joinLines_cons (line next : Text) (rest : List Text) :
    joinLines (line :: next :: rest) = line ++ newline :: joinLines (next :: rest) := by
  simp [joinLines, List.intercalate_cons_cons]

theorem restLines_nodes {before : Text} {pos : Nat} {lines : List Text}
    (source : Option SourceDef) (hne : lines ≠ [])
    (hplain : ∀ line ∈ lines, Plain minIndent line)
    (htext : before ++ [newline] ++ joinLines lines <+: text)
    (hpos : pos = (before ++ [newline]).length) :
    RestNodes minIndent (before.rtakeWhile (· ≠ newline)).isEmpty lines
      ((restLines text minIndent (placeLines source pos lines)).map (checkLine text minIndent)) := by
  induction lines generalizing before pos with
  | nil => exact absurd rfl hne
  | cons line lines ih =>
    obtain ⟨hnewline, hbackslash, hdots, hindent⟩ := hplain line List.mem_cons_self
    cases lines with
    | nil =>
      have hat : At text (before ++ [newline]) line { source, pos, len := line.length } := by
        refine ⟨?_, hpos, rfl⟩
        simpa [joinLines] using htext
      exact .last (lastLine_node hat hnewline hdots hindent)
    | cons next rest =>
      rw [joinLines_cons] at htext
      have hat : At text (before ++ [newline]) line { source, pos, len := line.length } := by
        refine ⟨?_, hpos, rfl⟩
        rw [← List.append_assoc] at htext
        exact (List.prefix_append _ _).trans htext
      have hafter : before ++ [Yaml.newline] ++ line ++ [Yaml.newline] ++ joinLines (next :: rest) <+:
          text := by
        rw [List.append_assoc, List.singleton_append, List.append_assoc]
        exact htext
      have hpos' : pos + line.length + 1 =
          (before ++ [Yaml.newline] ++ line ++ [Yaml.newline]).length := by
        rw [List.length_append, List.length_append, ← hpos]
        rfl
      have hrest := ih (List.cons_ne_nil _ _) (fun l hl => hplain l (List.mem_cons_of_mem _ hl))
        hafter hpos'
      have hempty : (((before ++ [Yaml.newline] ++ line).rtakeWhile (· ≠ Yaml.newline)).isEmpty) =
          decide (line = []) := by
        rw [rtakeWhile_line before hnewline]
        cases line <;> rfl
      rw [hempty] at hrest
      have hnode : checkLine text minIndent (middleLine text minIndent
          { source, pos, len := line.length }) =
            middleNode minIndent (before.rtakeWhile (· ≠ Yaml.newline)).isEmpty line := by
        cases hblank : isBlankLine line with
        | true => exact middleLine_blank hat hnewline hblank
        | false =>
          exact middleLine_content hat hnewline hbackslash hdots hblank (hindent hblank) _
      have hcons : RestNodes minIndent (before.rtakeWhile (· ≠ Yaml.newline)).isEmpty
          (line :: next :: rest) (middleNode minIndent _ line :: _) := .cons hrest
      rw [← hnode] at hcons
      exact hcons

theorem checkLine_empty_iff (line : Bool × Location) :
    checkLine text minIndent line = .empty ↔ line.1 = true ∧ line.2.len = 0 := by
  rw [checkLine]
  split
  · next hlen =>
    split
    · next hflag => exact ⟨fun _ => ⟨hflag, hlen⟩, fun _ => rfl⟩
    · next hflag => exact ⟨fun heq => (nomatch heq), fun hboth => absurd hboth.1 hflag⟩
  · next hlen =>
    constructor
    · intro heq
      split at heq
      · cases heq
      · split at heq <;> cases heq
    · exact fun hboth => absurd hboth.2 hlen

theorem restLines_empty (lines : List Location) :
    ∀ line ∈ restLines text minIndent lines, line.1 = true → line.2.len = 0 := by
  induction lines with
  | nil => exact fun line hline => absurd hline List.not_mem_nil
  | cons l lines ih =>
    cases lines with
    | nil =>
      intro line hline hflag
      rw [List.mem_singleton.1 hline] at hflag
      cases hflag
    | cons next rest =>
      intro line hline hflag
      rcases List.mem_cons.1 hline with rfl | hline
      · exact (of_decide_eq_true hflag).1
      · exact ih line hline hflag

theorem map_dropFirst {first : Location} {lines : List (Bool × Location)}
    (hfirst : first.len = 0 ↔ checkLine text minIndent (false, first) = .block [])
    (hlines : ∀ line ∈ lines, line.1 = true → line.2.len = 0) :
    (dropFirst ((false, first) :: lines)).map (checkLine text minIndent) =
      dropEmptyFirst (checkLine text minIndent (false, first) ::
        lines.map (checkLine text minIndent)) := by
  cases lines with
  | nil => rfl
  | cons next rest =>
    have hcond : (false = false ∧ first.len = 0 ∧ next.1 = true) ↔
        (checkLine text minIndent (false, first) = .block [] ∧
          checkLine text minIndent next = .empty) := by
      rw [checkLine_empty_iff, ← hfirst]
      constructor
      · intro h
        exact ⟨h.2.1, h.2.2, hlines next List.mem_cons_self h.2.2⟩
      · intro h
        exact ⟨rfl, h.1, h.2.1⟩
    rw [dropFirst, List.map_cons, dropEmptyFirst]
    by_cases h : false = false ∧ first.len = 0 ∧ next.1 = true
    · rw [if_pos h, if_pos (hcond.1 h)]
      rfl
    · rw [if_neg h, if_neg (mt hcond.2 h)]
      rfl

theorem behind_quote {before first : Text} (hq : q ≠ newline) (hfirst : newline ∉ first) :
    ((before ++ (q :: first)).rtakeWhile (· ≠ newline)).isEmpty = false := by
  cases hempty : ((before ++ (q :: first)).rtakeWhile (· ≠ newline)).isEmpty with
  | false => rfl
  | true =>
    have hne : before ++ (q :: first) ≠ [] :=
      List.append_ne_nil_of_right_ne_nil before (List.cons_ne_nil q first)
    have hlast := List.rtakeWhile_eq_nil_iff.1 (List.isEmpty_iff.1 hempty) hne
    rw [List.getLast_append_of_ne_nil hne (List.cons_ne_nil q first)] at hlast
    have heq : (q :: first).getLast (List.cons_ne_nil q first) = newline := by
      by_contra hnot
      exact hlast (decide_eq_true hnot)
    have hmem : newline ∈ q :: first := heq ▸ List.getLast_mem (List.cons_ne_nil q first)
    rcases List.mem_cons.1 hmem with hhead | htail
    · exact absurd hhead.symm hq
    · exact absurd htail hfirst

theorem toLines_nodes {l : Location} {q : UInt8} {first next : Text} {lines : List Text}
    (hview : viewOf text l = q :: (joinLines (first :: next :: lines) ++ [q])) (hq : q ≠ newline)
    (hplain : ∀ line ∈ first :: next :: lines, newline ∉ line ∧ backslash ∉ line ∧
      ¬ markOf "..." <:+: line)
    (hindent : ∀ line ∈ next :: lines, isBlankLine line = false →
      minIndent ≤ (indentOf line).length)
    (hcol : minIndent ≤ column text l.pos + 1) : ∃ nodes,
      RestNodes minIndent false (next :: lines) nodes ∧
        toLines text minIndent l = dropEmptyFirst (.block (stripEnd first) :: nodes) := by
  have hlen : l.len ≠ 0 := by
    intro hzero
    rw [viewOf, hzero, List.take_zero] at hview
    cases hview
  have hfront : text.take l.pos ++ (q :: (joinLines (first :: next :: lines) ++ [q])) <+: text := by
    rw [← hview, viewOf]
    have h := (List.take_prefix l.len (text.drop l.pos))
    obtain ⟨rest, hrest⟩ := h
    exact ⟨rest, by rw [List.append_assoc, hrest, List.take_append_drop]⟩
  have hpos : (text.take l.pos).length = l.pos := by
    rw [List.length_take]
    have hle : ¬ text.length ≤ l.pos := by
      intro hle
      rw [viewOf, List.drop_of_length_le hle, List.take_nil] at hview
      cases hview
    omega
  have hinner : ((viewOf text l).drop 1).dropLast = joinLines (first :: next :: lines) := by
    rw [hview, List.drop_one, List.tail_cons, List.dropLast_concat]
  have hsplit : (joinLines (first :: next :: lines)).splitOn newline = first :: next :: lines :=
    List.splitOn_intercalate newline (fun line hline => (hplain line hline).1) (List.cons_ne_nil _ _)
  rw [joinLines_cons] at hfront
  obtain ⟨hnewline, hbackslash, hdots⟩ := hplain first List.mem_cons_self
  have hfirst : At text (text.take l.pos ++ [q]) first
      { source := l.source, pos := l.pos + 1, len := first.length } := by
    refine ⟨?_, ?_, rfl⟩
    · have happend : text.take l.pos ++ [q] ++ first ++ (newline :: joinLines (next :: lines) ++ [q]) <+:
          text := by simpa using hfront
      exact (List.prefix_append _ _).trans happend
    · rw [List.length_append, hpos]
      rfl
  obtain ⟨hfirstLen, hfirstNode⟩ := firstLine_node hfirst hq hnewline hbackslash hdots hcol
  have hrest : text.take l.pos ++ (q :: first) ++ [newline] ++ joinLines (next :: lines) <+: text := by
    have happend : text.take l.pos ++ (q :: first) ++ [newline] ++ joinLines (next :: lines) ++ [q] <+:
        text := by simpa using hfront
    exact (List.prefix_append _ _).trans happend
  have hrestPos : l.pos + 1 + first.length + 1 =
      (text.take l.pos ++ (q :: first) ++ [newline]).length := by
    simp only [List.length_append, hpos, List.length_cons, List.length_nil]
    omega
  have hlines : ∀ line ∈ next :: lines, Plain minIndent line := by
    intro line hline
    obtain ⟨hnewline, hbackslash, hdots⟩ := hplain line (List.mem_cons_of_mem _ hline)
    exact ⟨hnewline, hbackslash, hdots, hindent line hline⟩
  have hnodes := restLines_nodes l.source (List.cons_ne_nil next lines) hlines hrest hrestPos
  rw [behind_quote hq hnewline] at hnodes
  refine ⟨_, hnodes, ?_⟩
  rw [toLines, if_neg hlen, hinner]
  dsimp only
  rw [hsplit, ← hfirstNode]
  refine map_dropFirst ?_ (restLines_empty _)
  rw [hfirstLen, hfirstNode, List.length_eq_zero_iff]
  exact ⟨fun h => congrArg QuoteLine.block h, QuoteLine.block.inj⟩

/-- The line of a scalar without line breaks. -/
theorem toLines_single {q : UInt8} {inner : Text} (hview : viewOf text l = q :: (inner ++ [q]))
    (hsingle : newline ∉ inner) (minIndent : Nat) :
    toLines text minIndent l = [.block inner] := by
  have hlen : l.len ≠ 0 := by
    intro hzero
    rw [viewOf, hzero, List.take_zero] at hview
    cases hview
  have hinner : ((viewOf text l).drop 1).dropLast = inner := by
    rw [hview, List.drop_one, List.tail_cons, List.dropLast_concat]
  have hone : joinLines [inner] = inner := by simp [joinLines]
  have hsplit : inner.splitOn newline = [inner] := by
    have h := List.splitOn_intercalate newline (fun line hline => by
      rw [List.mem_singleton.1 hline]
      exact hsingle) (List.cons_ne_nil inner [])
    change (joinLines [inner]).splitOn newline = [inner] at h
    rwa [hone] at h
  have hdrop : (text.drop (l.pos + 1)).take inner.length = inner := by
    have hfront : q :: (inner ++ [q]) <+: text.drop l.pos := by
      rw [← hview]
      exact List.take_prefix _ _
    obtain ⟨after, heq⟩ := hfront
    rw [← List.drop_drop, ← heq, List.drop_one, List.cons_append, List.tail_cons, List.append_assoc]
    exact List.take_left
  rw [toLines, if_neg hlen, hinner]
  dsimp only
  rw [hsplit]
  exact congrArg (fun view => [QuoteLine.block view]) hdrop

end Trieste.Yaml
