import Trieste.Yaml.Backslash
import Trieste.Yaml.Lines

namespace Trieste.Yaml
set_option autoImplicit true
open Utf8

/-- A line with content without its indentation, and the number of blank lines behind it. -/
structure ContentLine where
  text : Text
  blanks : Nat

def gather (indent : Nat) : List Text → Nat × List ContentLine
  | [] => (0, [])
  | line :: lines =>
    let rest := gather indent lines
    if line.length ≤ indent then (rest.1 + 1, rest.2)
    else (0, ⟨line.drop indent, rest.1⟩ :: rest.2)

def lineFeeds (n : Nat) : Text := List.replicate n newline

def startsWithSpace (text : Text) : Bool := text.head? = some 0x20

/-- What stands between two lines with content, where blank lines may separate them. -/
def yamlBetween (kind : BlockKind) (x y : ContentLine) : Text :=
  match kind with
  | .literal => lineFeeds (x.blanks + 1)
  | .folded =>
    if startsWithSpace x.text ∨ startsWithSpace y.text then lineFeeds (x.blanks + 1)
    else if x.blanks = 0 then [0x20]
    else lineFeeds x.blanks

def yamlFinal (chomp : Chomp) (x : ContentLine) : Text :=
  match chomp with
  | .strip => []
  | .clip => [newline]
  | .keep => lineFeeds (x.blanks + 1)

def yamlLines (kind : BlockKind) (chomp : Chomp) : List ContentLine → Text
  | [] => []
  | [x] => x.text ++ yamlFinal chomp x
  | x :: y :: rest => x.text ++ yamlBetween kind x y ++ yamlLines kind chomp (y :: rest)

/-- The content of a block scalar; that of blank lines alone is what chomping keeps of them. -/
def yamlContent (kind : BlockKind) (indent : Nat) (chomp : Chomp) (lines : List Text) : Text :=
  let (blanks, content) := gather indent lines
  if content = [] ∧ chomp ≠ .keep then [] else lineFeeds blanks ++ yamlLines kind chomp content

def IsLast (chomp : Chomp) (x : ContentLine) (rest : List ContentLine) : Prop :=
  rest = [] ∧ (chomp = .keep → x.blanks = 0)

instance (chomp : Chomp) (x : ContentLine) (rest : List ContentLine) :
    Decidable (IsLast chomp x rest) :=
  match rest with
  | [] => decidable_of_iff (chomp = .keep → x.blanks = 0) ⟨fun h => ⟨rfl, h⟩, fun h => h.2⟩
  | _ :: _ => .isFalse fun h => nomatch h.1

/-- The break that an indented line of a folded block is given in front. -/
def breakBefore (kind : BlockKind) (chomp : Chomp) (isIndented onlyEmpty : Bool) (x : ContentLine)
    (rest : List ContentLine) : Text :=
  if isIndentedLine x.text ∧ ¬ isIndented ∧ ¬ onlyEmpty ∧ kind = .folded ∧ ¬ IsLast chomp x rest
  then [newline] else []

/-- The break that a line is given behind it, before the blank lines. -/
def breakAfter (kind : BlockKind) (x : ContentLine) (rest : List ContentLine) : Text :=
  match kind with
  | .literal => [newline]
  | .folded =>
    if isIndentedLine x.text then [newline]
    else if x.blanks = 0 ∧ ∀ y ∈ rest.head?, ¬ startsWithSpace y.text then [0x20]
    else []

def writtenLines (kind : BlockKind) (chomp : Chomp) : List ContentLine → Text
  | [] => []
  | x :: rest =>
    if IsLast chomp x rest then x.text ++ if chomp = .strip then [] else [newline]
    else
      x.text ++ breakAfter kind x rest ++ lineFeeds x.blanks ++
        match rest with
        | [] => []
        | y :: rest =>
          breakBefore kind chomp (isIndentedLine x.text) false y rest ++
            writtenLines kind chomp (y :: rest)

/-- What the loop writes, given whether the line before was indented and none had content. -/
def writtenFrom (kind : BlockKind) (chomp : Chomp) (isIndented onlyEmpty : Bool) :
    Nat × List ContentLine → Text
  | (blanks, []) => lineFeeds blanks
  | (blanks, x :: rest) =>
    lineFeeds blanks ++ breakBefore kind chomp isIndented onlyEmpty x rest ++
      writtenLines kind chomp (x :: rest)

def spelled (text : Text) : Text := text.flatMap (piece (blockEscape false))

/-- A line without line breaks, backslashes, double quotes, tabs and `#`. -/
def PlainText (line : Text) : Prop := ∀ c ∈ line, c ∉ [newline, backslash, quote, tab, 0x23]

def Chomped (indent : Nat) (chomp : Chomp) (lines : List Text) : Prop :=
  chomp = .keep ∨ ∀ last, lines.getLast? = some last → indent < last.length

theorem spelled_append (s t : Text) : spelled (s ++ t) = spelled s ++ spelled t := List.flatMap_append

theorem PlainText.not_mem (h : PlainText line) (hc : c ∈ [newline, backslash, quote, tab, 0x23]) :
    c ∉ line := fun hmem => h c hmem hc

theorem PlainText.drop (h : PlainText line) (n : Nat) : PlainText (line.drop n) :=
  fun c hc => h c (List.mem_of_mem_drop hc)

theorem piece_blockEscape (rawQuotes : Bool) (h : c ≠ quote) :
    piece (blockEscape rawQuotes) c = piece (blockEscape false) c := by
  have hmem : c ∈ blockEscape rawQuotes ↔ c ∈ blockEscape false := by
    cases rawQuotes with
    | false => exact Iff.rfl
    | true => simp [blockEscape, h]
  simp only [piece, hmem]

theorem escapeChars_plain (rawQuotes : Bool) (h : PlainText text) :
    escapeChars (blockEscape rawQuotes) text = .ok (spelled text) := by
  have hno : NoEscape text := .of_not_mem (h.not_mem (by decide))
  have hbackslash : backslash ∈ blockEscape rawQuotes := List.mem_cons_self
  rw [escapeChars, unescapeHexunicode_of_noEscape hno]
  refine congrArg Except.ok ((escapeLoop_eq hbackslash text).trans ?_)
  apply List.flatMap_congr
  intro c hc
  apply piece_blockEscape
  intro hquote
  exact h.not_mem (by decide) (hquote ▸ hc)

theorem lastLine_plain (rawQuotes : Bool) (h : PlainText last) :
    lastLine (blockEscape rawQuotes) indent chomp last =
      .ok (spelled ((last.drop indent) ++ if chomp = .strip then [] else [newline])) := by
  have hending : (if chomp = .strip then [] else writtenNewline) =
      spelled (if chomp = .strip then [] else [newline]) := by
    split <;> rfl
  have hhead : (last.drop indent).head? ≠ some newline := by
    intro hhead
    exact (h.drop indent).not_mem (by decide) (List.mem_of_mem_head? hhead)
  rw [lastLine, hending, spelled_append]
  split
  · dsimp only
    rw [if_neg hhead, escapeChars_plain rawQuotes (h.drop indent)]
    rfl
  · next hblank =>
    rw [List.drop_eq_nil_of_le (Nat.le_of_not_lt hblank)]
    rfl

theorem gather_blank (h : line.length ≤ indent) (lines : List Text) :
    gather indent (line :: lines) = ((gather indent lines).1 + 1, (gather indent lines).2) :=
  if_pos h

theorem gather_content (h : ¬ line.length ≤ indent) (lines : List Text) :
    gather indent (line :: lines) =
      (0, ⟨line.drop indent, (gather indent lines).1⟩ :: (gather indent lines).2) :=
  if_neg h

theorem gather_nil (h : (gather indent lines).2 = []) :
    (gather indent lines).1 = lines.length ∧ ∀ line ∈ lines, line.length ≤ indent := by
  induction lines with
  | nil => exact ⟨rfl, fun _ hmem => nomatch hmem⟩
  | cons line lines ih =>
    by_cases hblank : line.length ≤ indent
    · rw [gather_blank hblank] at h ⊢
      obtain ⟨hlength, hall⟩ := ih h
      exact ⟨congrArg (· + 1) hlength, List.forall_mem_cons.2 ⟨hblank, hall⟩⟩
    · rw [gather_content hblank] at h
      cases h

theorem not_isLast (text : Text) (h : Chomped indent chomp (next :: rest)) :
    ¬ IsLast chomp ⟨text, (gather indent (next :: rest)).1⟩ (gather indent (next :: rest)).2 := by
  intro hlast
  obtain ⟨hlength, hall⟩ := gather_nil hlast.1
  rcases h with hkeep | hcontent
  · exact Nat.succ_ne_zero _ (hlength.symm.trans (hlast.2 hkeep))
  · have hmem := List.getLast_mem (List.cons_ne_nil next rest)
    have hlt := hcontent _ (List.getLast?_eq_some_getLast (List.cons_ne_nil next rest))
    exact absurd (hall _ hmem) (Nat.not_le.2 hlt)

theorem writtenFrom_succ (kind : BlockKind) (chomp : Chomp) (isIndented onlyEmpty : Bool)
    (n : Nat) (content : List ContentLine) :
    writtenFrom kind chomp isIndented onlyEmpty (n + 1, content) =
      newline :: writtenFrom kind chomp isIndented onlyEmpty (n, content) := by
  cases content <;> rfl

theorem writtenLines_cons (h : ¬ IsLast chomp x rest) :
    writtenLines kind chomp (x :: rest) = x.text ++ breakAfter kind x rest ++
      writtenFrom kind chomp (isIndentedLine x.text) false (x.blanks, rest) := by
  cases rest with
  | nil =>
    rw [writtenLines, if_neg h]
    simp only [writtenFrom, List.append_nil]
  | cons y rest =>
    rw [writtenLines, if_neg h]
    simp only [writtenFrom, List.append_assoc]

theorem lineBreak_eq (kind : BlockKind) (text : Text) (next : Text) (rest : List Text) :
    lineBreak kind indent (isIndentedLine text) next =
      spelled (breakAfter kind ⟨text, (gather indent (next :: rest)).1⟩
        (gather indent (next :: rest)).2) := by
  cases kind with
  | literal => rfl
  | folded =>
    rw [lineBreak, breakAfter]
    split
    · rfl
    by_cases hnext : next.length ≤ indent
    · rw [gather_blank hnext, if_neg fun h => Nat.not_lt.2 hnext h.1,
        if_neg fun h => Nat.succ_ne_zero _ h.1]
      rfl
    · have hlt : indent < next.length := Nat.lt_of_not_le hnext
      have hspace : startsWithSpace (next.drop indent) = true ↔ next[indent]? = some 0x20 := by
        rw [startsWithSpace, List.head?_drop, decide_eq_true_iff]
      simp only [gather_content hnext, List.head?_cons, Option.mem_def, Option.some.injEq,
        forall_eq', hspace, hlt, true_and]
      split <;> rfl

theorem blockLoop_eq (rawQuotes : Bool) (kind : BlockKind) {lines : List Text}
    (hplain : ∀ line ∈ lines, PlainText line) (hchomped : Chomped indent chomp lines)
    (isIndented onlyEmpty : Bool) :
    blockLoop (blockEscape rawQuotes) kind indent chomp isIndented onlyEmpty lines =
      .ok (spelled (writtenFrom kind chomp isIndented onlyEmpty (gather indent lines))) := by
  induction lines generalizing isIndented onlyEmpty with
  | nil => rfl
  | cons line lines ih =>
    have hline := hplain line List.mem_cons_self
    have hplain := fun l hl => hplain l (List.mem_cons_of_mem line hl)
    cases lines with
    | nil =>
      rw [blockLoop, lastLine_plain rawQuotes hline]
      refine congrArg (fun text => Except.ok (spelled text)) ?_
      by_cases hblank : line.length ≤ indent
      · have hkeep : chomp = .keep := by
          apply hchomped.resolve_right
          intro hlast
          exact absurd (hlast line rfl) (Nat.not_lt.2 hblank)
        rw [gather_blank hblank, List.drop_eq_nil_of_le hblank, hkeep]
        rfl
      · have hlast : IsLast chomp ⟨line.drop indent, 0⟩ [] := ⟨rfl, fun _ => rfl⟩
        rw [gather_content hblank]
        simp only [gather, writtenFrom, breakBefore, writtenLines, hlast, not_true_eq_false,
          and_false, if_false, if_true]
        rfl
    | cons next rest =>
      have hchomped : Chomped indent chomp (next :: rest) := hchomped
      have hnewline : line ≠ [newline] := by
        rintro rfl
        exact hline newline (.head _) (by decide)
      rw [blockLoop]
      by_cases hblank : line.length ≤ indent
      · rw [if_pos (.inr hblank), ih hplain hchomped, gather_blank hblank, writtenFrom_succ]
        rfl
      · have hlast := not_isLast (line.drop indent) hchomped
        rw [if_neg (not_or.2 ⟨hnewline, hblank⟩), gather_content hblank]
        dsimp only
        rw [escapeChars_plain rawQuotes (hline.drop indent), ih hplain hchomped, writtenFrom,
          writtenLines_cons hlast, lineBreak_eq kind (line.drop indent) next rest]
        have hbefore : (if isIndentedLine (line.drop indent) = true ∧ ¬ isIndented = true ∧
              ¬ onlyEmpty = true ∧ kind = .folded then writtenNewline else []) =
            spelled (breakBefore kind chomp isIndented onlyEmpty
              ⟨line.drop indent, (gather indent (next :: rest)).1⟩
              (gather indent (next :: rest)).2) := by
          rw [breakBefore]
          simp only [hlast, not_false_eq_true, and_true]
          split <;> rfl
        rw [hbefore]
        simp only [Except.bind, Except.map, spelled_append, List.append_assoc]
        rfl

def trimContent : List ContentLine → List ContentLine
  | [] => []
  | [x] => [⟨x.text, 0⟩]
  | x :: y :: rest => x :: trimContent (y :: rest)

def trimBlanks : Nat × List ContentLine → Nat × List ContentLine
  | (_, []) => (0, [])
  | (blanks, x :: rest) => (blanks, trimContent (x :: rest))

theorem trimBlanks_of_nil (h : g.2 = []) : trimBlanks g = (0, []) := by
  cases g with
  | mk blanks content =>
    cases h
    rfl

theorem trimBlanks_nil (h : trimBlanks g = (0, [])) : g.2 = [] := by
  cases g with
  | mk blanks content =>
    cases content with
    | nil => rfl
    | cons x rest => cases rest <;> cases congrArg Prod.snd h

theorem trimBlanks_succ (h : g.2 ≠ []) :
    trimBlanks (g.1 + 1, g.2) = ((trimBlanks g).1 + 1, (trimBlanks g).2) := by
  cases g with
  | mk blanks content =>
    cases content with
    | nil => exact absurd rfl h
    | cons x rest => rfl

theorem trimBlanks_cons (text : Text) (g : Nat × List ContentLine) :
    trimBlanks (0, ⟨text, g.1⟩ :: g.2) = (0, ⟨text, (trimBlanks g).1⟩ :: (trimBlanks g).2) := by
  cases g with
  | mk blanks content => cases content <;> rfl

theorem rdropWhile_cons (p : Text → Bool) (line : Text) (lines : List Text) :
    (line :: lines).rdropWhile p =
      if lines.rdropWhile p = [] ∧ p line then [] else line :: lines.rdropWhile p := by
  have hempty : (lines.reverse.dropWhile p).isEmpty = true ↔ lines.rdropWhile p = [] := by
    rw [List.rdropWhile, List.isEmpty_iff, List.reverse_eq_nil_iff]
  rw [List.rdropWhile, List.reverse_cons, List.dropWhile_append]
  by_cases hnil : lines.rdropWhile p = []
  · rw [if_pos (hempty.2 hnil), hnil]
    cases hp : p line with
    | true => simp [hp]
    | false => simp [hp]
  · rw [if_neg fun h => hnil (hempty.1 h), if_neg fun h => hnil h.1, List.reverse_append]
    rfl

theorem gather_rdropWhile (indent : Nat) (lines : List Text) :
    gather indent (lines.rdropWhile fun line => line.length ≤ indent) =
      trimBlanks (gather indent lines) := by
  induction lines with
  | nil => rfl
  | cons line lines ih =>
    have hnil : (lines.rdropWhile fun line => line.length ≤ indent) = [] ↔
        (gather indent lines).2 = [] := by
      constructor
      · intro hnil
        rw [hnil] at ih
        exact trimBlanks_nil ih.symm
      · intro hnil
        rw [trimBlanks_of_nil hnil] at ih
        have hlength := (gather_nil (congrArg Prod.snd ih)).1
        rw [congrArg Prod.fst ih] at hlength
        exact List.length_eq_zero_iff.1 hlength.symm
    simp only [rdropWhile_cons, decide_eq_true_eq, hnil]
    by_cases hblank : line.length ≤ indent
    · rw [gather_blank hblank]
      by_cases hempty : (gather indent lines).2 = []
      · rw [if_pos ⟨hempty, hblank⟩, hempty]
        rfl
      · rw [if_neg fun h => hempty h.1, gather_blank hblank, ih]
        exact (trimBlanks_succ hempty).symm
    · rw [if_neg fun h => hblank h.2, gather_content hblank, gather_content hblank, ih]
      exact (trimBlanks_cons (line.drop indent) (gather indent lines)).symm

theorem trimContent_cons (y : ContentLine) (rest : List ContentLine) :
    ∃ blanks rest', trimContent (y :: rest) = ⟨y.text, blanks⟩ :: rest' ∧
      (rest' = [] ↔ rest = []) := by
  cases rest with
  | nil => exact ⟨0, [], rfl, Iff.rfl⟩
  | cons z rest =>
    obtain ⟨z', rest', hrest⟩ : ∃ z' rest', trimContent (z :: rest) = z' :: rest' := by
      cases rest <;> exact ⟨_, _, rfl⟩
    refine ⟨y.blanks, z' :: rest', by rw [← hrest, trimContent], ?_⟩
    exact iff_of_false (List.cons_ne_nil _ _) (List.cons_ne_nil _ _)

theorem isLast_of_ne (h : chomp ≠ .keep) (x : ContentLine) (rest : List ContentLine) :
    IsLast chomp x rest ↔ rest = [] :=
  ⟨fun hlast => hlast.1, fun hnil => ⟨hnil, fun hkeep => absurd hkeep h⟩⟩

theorem breakBefore_trim (kind : BlockKind) (h : chomp ≠ .keep) (isIndented onlyEmpty : Bool)
    (x : ContentLine) (blanks : Nat) (hrest : rest' = [] ↔ rest = []) :
    breakBefore kind chomp isIndented onlyEmpty ⟨x.text, blanks⟩ rest' =
      breakBefore kind chomp isIndented onlyEmpty x rest := by
  simp only [breakBefore, isLast_of_ne h, hrest]

theorem writtenLines_trim (kind : BlockKind) (h : chomp ≠ .keep) (content : List ContentLine) :
    writtenLines kind chomp (trimContent content) = writtenLines kind chomp content := by
  induction content with
  | nil => rfl
  | cons x rest ih =>
    cases rest with
    | nil =>
      rw [trimContent, writtenLines, writtenLines, if_pos ((isLast_of_ne h _ _).2 rfl),
        if_pos ((isLast_of_ne h _ _).2 rfl)]
    | cons y rest =>
      obtain ⟨blanks, rest', htrim, hrest⟩ := trimContent_cons y rest
      rw [htrim] at ih
      have hafter : breakAfter kind x (⟨y.text, blanks⟩ :: rest') =
          breakAfter kind x (y :: rest) := by
        cases kind with
        | literal => rfl
        | folded => simp only [breakAfter, List.head?_cons, Option.mem_def, Option.some.injEq,
            forall_eq']
      rw [trimContent, htrim, writtenLines, writtenLines,
        if_neg (mt (isLast_of_ne h _ _).1 (List.cons_ne_nil _ _)),
        if_neg (mt (isLast_of_ne h _ _).1 (List.cons_ne_nil _ _)), hafter, ih,
        breakBefore_trim kind h _ _ y blanks hrest]

def writtenContent (kind : BlockKind) (indent : Nat) (chomp : Chomp) (lines : List Text) : Text :=
  let (blanks, content) := gather indent lines
  if content = [] ∧ chomp ≠ .keep then []
  else lineFeeds blanks ++ writtenLines kind chomp content

theorem breakBefore_first (kind : BlockKind) (chomp : Chomp) (isIndented : Bool) (x : ContentLine)
    (rest : List ContentLine) : breakBefore kind chomp isIndented true x rest = [] :=
  if_neg fun h => h.2.2.1 rfl

theorem writtenFrom_first (kind : BlockKind) (chomp : Chomp) (g : Nat × List ContentLine) :
    writtenFrom kind chomp false true g = lineFeeds g.1 ++ writtenLines kind chomp g.2 := by
  cases g with
  | mk blanks content =>
    cases content with
    | nil => exact (List.append_nil _).symm
    | cons x rest => rw [writtenFrom, breakBefore_first, List.append_nil]

theorem blockLines_plain (indent : Nat) (chomp : Chomp) (h : ∀ line ∈ lines, PlainText line) :
    blockLines indent chomp lines =
      if chomp = .keep then lines else lines.rdropWhile fun line => line.length ≤ indent := by
  have hfilter : (lines.filter fun view => 0x23 ∉ view.take indent) = lines := by
    apply List.filter_eq_self.2
    intro line hline
    apply decide_eq_true
    intro hmem
    exact (h line hline).not_mem (by decide) (List.mem_of_mem_take hmem)
  rw [blockLines, hfilter]

theorem chomped_blockLines (indent : Nat) (chomp : Chomp)
    (h : ∀ line ∈ lines, PlainText line) :
    Chomped indent chomp (blockLines indent chomp lines) := by
  rw [blockLines_plain indent chomp h]
  split
  · next hkeep => exact .inl hkeep
  · refine .inr fun last hlast => ?_
    have hne : (lines.rdropWhile fun line => line.length ≤ indent) ≠ [] := by
      intro hnil
      rw [hnil] at hlast
      cases hlast
    have hnot := List.rdropWhile_last_not _ lines hne
    rw [List.getLast?_eq_some_getLast hne] at hlast
    rw [Option.some.inj hlast] at hnot
    simpa using hnot

theorem blockToString_eq (rawQuotes : Bool) (kind : BlockKind) (indent : Nat) (chomp : Chomp)
    (h : ∀ line ∈ lines, PlainText line) :
    blockToString rawQuotes (.block kind indent chomp lines) =
      .ok (spelled (writtenContent kind indent chomp lines)) := by
  have hchomped := chomped_blockLines indent chomp h
  have hsub : ∀ line ∈ blockLines indent chomp lines, PlainText line := by
    intro line hline
    rw [blockLines_plain indent chomp h] at hline
    split at hline
    · exact h line hline
    · exact h line ((List.rdropWhile_prefix _ lines).subset hline)
  rw [blockToString, blockLoop_eq rawQuotes kind hsub hchomped, writtenFrom_first,
    blockLines_plain indent chomp h, writtenContent]
  refine congrArg (fun text => Except.ok (spelled text)) ?_
  by_cases hkeep : chomp = .keep
  · rw [if_pos hkeep]
    exact (if_neg fun hboth => hboth.2 hkeep).symm
  · rw [if_neg hkeep, gather_rdropWhile]
    cases gather indent lines with
    | mk blanks content =>
      cases content with
      | nil => exact (if_pos ⟨rfl, hkeep⟩).symm
      | cons x rest =>
        dsimp only [trimBlanks]
        rw [writtenLines_trim kind hkeep, if_neg fun hboth => List.cons_ne_nil x rest hboth.1]

/-- The breaks between two lines are those of YAML, with the lines behind them. -/
def PairFolds (chomp : Chomp) (x y : ContentLine) (rest : List ContentLine) : Prop :=
  isIndentedLine x.text ∨
    (¬ startsWithSpace x.text ∧ ¬ startsWithSpace y.text) ∨
    (isIndentedLine y.text ∧ ¬ IsLast chomp y rest)

/-- The lines of a folded block for which its breaks are those of YAML. -/
def Folds (chomp : Chomp) : List ContentLine → Prop
  | [] => True
  | [x] => IsLast chomp x [] ∨ isIndentedLine x.text
  | x :: y :: rest => PairFolds chomp x y rest ∧ Folds chomp (y :: rest)

def writtenBetween (kind : BlockKind) (chomp : Chomp) (x y : ContentLine)
    (rest : List ContentLine) : Text :=
  breakAfter kind x (y :: rest) ++ lineFeeds x.blanks ++
    breakBefore kind chomp (isIndentedLine x.text) false y rest

def writtenFinal (kind : BlockKind) (chomp : Chomp) (x : ContentLine) : Text :=
  if IsLast chomp x [] then if chomp = .strip then [] else [newline]
  else breakAfter kind x [] ++ lineFeeds x.blanks

theorem writtenLines_one (kind : BlockKind) (chomp : Chomp) (x : ContentLine) :
    writtenLines kind chomp [x] = x.text ++ writtenFinal kind chomp x := by
  rw [writtenLines, writtenFinal]
  split
  · rfl
  · rw [List.append_nil, List.append_assoc]

theorem writtenLines_pair (kind : BlockKind) (chomp : Chomp) (x y : ContentLine)
    (rest : List ContentLine) : writtenLines kind chomp (x :: y :: rest) =
      x.text ++ writtenBetween kind chomp x y rest ++ writtenLines kind chomp (y :: rest) := by
  have hlast : ¬ IsLast chomp x (y :: rest) := fun h => List.cons_ne_nil y rest h.1
  rw [writtenLines, if_neg hlast, writtenBetween]
  simp only [List.append_assoc]

theorem lineFeeds_snoc (n : Nat) : lineFeeds n ++ [newline] = lineFeeds (n + 1) :=
  List.replicate_succ'.symm

theorem count_lineFeeds (n : Nat) : (lineFeeds n).count newline = n := List.count_replicate_self

theorem indented_starts (h : PlainText text) (hi : isIndentedLine text = true) :
    startsWithSpace text = true := by
  cases text with
  | nil => cases hi
  | cons c text =>
    have htab : c ≠ tab := by
      rintro rfl
      exact h tab (.head _) (by decide)
    by_cases hspace : c = 0x20
    · rw [hspace]
      rfl
    · have hnot : isIndentedLine (c :: text) = false := by
        simp [isIndentedLine, htab, hspace]
      rw [hnot] at hi
      cases hi

theorem written_literal (chomp : Chomp) (content : List ContentLine) :
    writtenLines .literal chomp content = yamlLines .literal chomp content := by
  induction content with
  | nil => rfl
  | cons x rest ih =>
    cases rest with
    | nil =>
      rw [writtenLines_one, yamlLines, writtenFinal]
      refine congrArg (x.text ++ ·) ?_
      split
      · next hlast =>
        cases chomp with
        | strip => rfl
        | clip => rfl
        | keep =>
          rw [yamlFinal, hlast.2 rfl]
          rfl
      · next hlast =>
        have hkeep : chomp = .keep := by
          by_contra hne
          exact hlast ((isLast_of_ne hne x []).2 rfl)
        rw [hkeep]
        rfl
    | cons y rest =>
      have hbetween : writtenBetween .literal chomp x y rest = yamlBetween .literal x y := by
        rw [writtenBetween, breakBefore, if_neg fun h => nomatch h.2.2.2.1]
        exact List.append_nil _
      rw [writtenLines_pair, yamlLines, hbetween, ih]

theorem writtenBetween_folded (chomp : Chomp) (x y : ContentLine) (rest : List ContentLine) :
    writtenBetween .folded chomp x y rest =
      if isIndentedLine x.text then lineFeeds (x.blanks + 1)
      else
        (if x.blanks = 0 ∧ ¬ startsWithSpace y.text then [0x20] else lineFeeds x.blanks) ++
          if isIndentedLine y.text ∧ ¬ IsLast chomp y rest then [newline] else [] := by
  by_cases hx : isIndentedLine x.text = true
  · have hbefore : breakBefore .folded chomp (isIndentedLine x.text) false y rest = [] :=
      if_neg fun h => h.2.1 hx
    have hafter : breakAfter .folded x (y :: rest) = [newline] := if_pos hx
    rw [if_pos hx, writtenBetween, hbefore, hafter]
    exact List.append_nil _
  · have hbefore : breakBefore .folded chomp (isIndentedLine x.text) false y rest =
        if isIndentedLine y.text ∧ ¬ IsLast chomp y rest then [newline] else [] := by
      simp only [breakBefore, hx, Bool.false_eq_true, not_false_eq_true, true_and]
    have hafter : breakAfter .folded x (y :: rest) =
        if x.blanks = 0 ∧ ¬ startsWithSpace y.text then [0x20] else [] := by
      simp only [breakAfter, if_neg hx, List.head?_cons, Option.mem_def, Option.some.injEq,
        forall_eq']
    rw [if_neg hx, writtenBetween, hbefore, hafter]
    refine congrArg (· ++ _) ?_
    split
    · next h => rw [h.1]; rfl
    · rfl

theorem between_of_folds (hx : PlainText x.text) (hy : PlainText y.text)
    (h : PairFolds chomp x y rest) :
    writtenBetween .folded chomp x y rest = yamlBetween .folded x y := by
  rw [writtenBetween_folded, yamlBetween]
  by_cases hmore : isIndentedLine x.text = true
  · rw [if_pos hmore, if_pos (.inl (indented_starts hx hmore))]
  · rw [if_neg hmore]
    rcases h with h | ⟨hx', hy'⟩ | h
    · exact absurd h hmore
    · have hy : ¬ (isIndentedLine y.text = true ∧ ¬ IsLast chomp y rest) :=
        fun h => hy' (indented_starts hy h.1)
      rw [if_neg hy, if_neg (not_or.2 ⟨hx', hy'⟩), List.append_nil]
      simp only [hy', Bool.false_eq_true, not_false_eq_true, and_true]
    · have hspace := indented_starts hy h.1
      have hbreak : ¬ (x.blanks = 0 ∧ ¬ startsWithSpace y.text = true) := fun h => h.2 hspace
      rw [if_pos h, if_neg hbreak, if_pos (.inr hspace), lineFeeds_snoc]

theorem count_between (h : ¬ PairFolds chomp x y rest) :
    (writtenBetween .folded chomp x y rest).count newline <
      (yamlBetween .folded x y).count newline := by
  have hmore : ¬ isIndentedLine x.text = true := fun hmore => h (.inl hmore)
  have hlast : ¬ (isIndentedLine y.text = true ∧ ¬ IsLast chomp y rest) :=
    fun hlast => h (.inr (.inr hlast))
  have hspace : startsWithSpace x.text = true ∨ startsWithSpace y.text = true := by
    by_contra hneither
    exact h (.inr (.inl (not_or.1 hneither)))
  rw [writtenBetween_folded, yamlBetween, if_neg hmore, if_neg hlast, if_pos hspace,
    List.append_nil, count_lineFeeds]
  split
  · exact Nat.succ_pos _
  · rw [count_lineFeeds]
    exact Nat.lt_succ_self _

theorem final_of_folds (h : IsLast chomp x [] ∨ isIndentedLine x.text = true) :
    writtenFinal .folded chomp x = yamlFinal chomp x := by
  rw [writtenFinal]
  split
  · next hlast =>
    cases chomp with
    | strip => rfl
    | clip => rfl
    | keep =>
      rw [yamlFinal, hlast.2 rfl]
      rfl
  · next hlast =>
    have hmore := h.resolve_left hlast
    have hkeep : chomp = .keep := by
      by_contra hne
      exact hlast ((isLast_of_ne hne x []).2 rfl)
    rw [breakAfter, if_pos hmore, hkeep]
    rfl

theorem count_final (h : ¬ (IsLast chomp x [] ∨ isIndentedLine x.text = true)) :
    (writtenFinal .folded chomp x).count newline < (yamlFinal chomp x).count newline := by
  obtain ⟨hlast, hmore⟩ := not_or.1 h
  have hkeep : chomp = .keep := by
    by_contra hne
    exact hlast ((isLast_of_ne hne x []).2 rfl)
  have hblanks : x.blanks ≠ 0 := fun hzero => hlast ⟨rfl, fun _ => hzero⟩
  rw [writtenFinal, if_neg hlast, breakAfter, if_neg hmore, if_neg fun hboth => hblanks hboth.1,
    List.nil_append, count_lineFeeds, hkeep, yamlFinal, count_lineFeeds]
  exact Nat.lt_succ_self _

theorem lines_of_folds (hplain : ∀ x ∈ content, PlainText x.text) (h : Folds chomp content) :
    writtenLines .folded chomp content = yamlLines .folded chomp content := by
  induction content with
  | nil => rfl
  | cons x rest ih =>
    have hx := hplain x List.mem_cons_self
    have ih := ih fun z hz => hplain z (List.mem_cons_of_mem x hz)
    cases rest with
    | nil => rw [writtenLines_one, yamlLines, final_of_folds h]
    | cons y rest =>
      have hy := hplain y (List.mem_cons_of_mem x List.mem_cons_self)
      rw [writtenLines_pair, yamlLines, between_of_folds hx hy h.1, ih h.2]

theorem count_lines (hplain : ∀ x ∈ content, PlainText x.text) :
    (writtenLines .folded chomp content).count newline ≤
        (yamlLines .folded chomp content).count newline ∧
      (¬ Folds chomp content → (writtenLines .folded chomp content).count newline <
        (yamlLines .folded chomp content).count newline) := by
  induction content with
  | nil => exact ⟨Nat.le_refl _, fun h => absurd trivial h⟩
  | cons x rest ih =>
    have hx := hplain x List.mem_cons_self
    have ih := ih fun z hz => hplain z (List.mem_cons_of_mem x hz)
    cases rest with
    | nil =>
      rw [writtenLines_one, yamlLines, List.count_append, List.count_append]
      by_cases hfinal : IsLast chomp x [] ∨ isIndentedLine x.text = true
      · rw [final_of_folds hfinal]
        exact ⟨Nat.le_refl _, fun h => absurd hfinal h⟩
      · have hlt := Nat.add_lt_add_left (count_final hfinal) (x.text.count newline)
        exact ⟨Nat.le_of_lt hlt, fun _ => hlt⟩
    | cons y rest =>
      have hy := hplain y (List.mem_cons_of_mem x List.mem_cons_self)
      obtain ⟨hle, hlt⟩ := ih
      rw [writtenLines_pair, yamlLines]
      simp only [List.count_append]
      by_cases hpair : PairFolds chomp x y rest
      · rw [between_of_folds hx hy hpair]
        refine ⟨Nat.add_le_add_left hle _, fun h => Nat.add_lt_add_left (hlt ?_) _⟩
        exact fun hrest => h ⟨hpair, hrest⟩
      · have hbetween := count_between hpair
        omega

theorem mem_gather (h : x ∈ (gather indent lines).2) :
    ∃ line ∈ lines, x.text = line.drop indent := by
  induction lines with
  | nil => cases h
  | cons line lines ih =>
    by_cases hblank : line.length ≤ indent
    · rw [gather_blank hblank] at h
      obtain ⟨line', hmem, htext⟩ := ih h
      exact ⟨line', List.mem_cons_of_mem line hmem, htext⟩
    · rw [gather_content hblank] at h
      rcases List.mem_cons.1 h with rfl | h
      · exact ⟨line, List.mem_cons_self, rfl⟩
      · obtain ⟨line', hmem, htext⟩ := ih h
        exact ⟨line', List.mem_cons_of_mem line hmem, htext⟩

theorem plain_gather (h : ∀ line ∈ lines, PlainText line) :
    ∀ x ∈ (gather indent lines).2, PlainText x.text := by
  intro x hx
  obtain ⟨line, hmem, htext⟩ := mem_gather hx
  rw [htext]
  exact (h line hmem).drop indent

theorem writtenContent_iff (kind : BlockKind) (indent : Nat) (chomp : Chomp)
    (h : ∀ line ∈ lines, PlainText line) :
    writtenContent kind indent chomp lines = yamlContent kind indent chomp lines ↔
      (kind = .folded → Folds chomp (gather indent lines).2) := by
  have hplain : ∀ x ∈ (gather indent lines).2, PlainText x.text := plain_gather h
  have hcount := @count_lines _ chomp hplain
  rw [writtenContent, yamlContent]
  dsimp only
  cases kind with
  | literal =>
    rw [written_literal]
    exact iff_of_true rfl nofun
  | folded =>
    split
    · next hnil =>
      rw [hnil.1]
      exact iff_of_true rfl fun _ => trivial
    · rw [List.append_right_inj]
      constructor
      · intro heq _
        by_contra hnot
        exact absurd (congrArg (List.count newline) heq) (Nat.ne_of_lt (hcount.2 hnot))
      · intro hfolds
        exact lines_of_folds hplain (hfolds rfl)

/-- All characters can stand in a JSON string, once they are escaped. -/
def Writable (text : Text) : Prop := ∀ c ∈ text, isWritable c

theorem writable_append : Writable (s ++ t) ↔ Writable s ∧ Writable t := List.forall_mem_append

theorem writable_lineFeeds (n : Nat) : Writable (lineFeeds n) := by
  intro c hc
  rw [List.eq_of_mem_replicate hc]
  exact .inr rfl

theorem writable_break (c : UInt8) (h : c = newline ∨ c = 0x20) : Writable [c] := by
  intro d hd
  rw [List.mem_singleton.1 hd]
  rcases h with rfl | rfl <;> exact .inr rfl

theorem writable_nil : Writable [] := fun _ h => nomatch h

theorem writable_breakAfter (kind : BlockKind) (x : ContentLine) (rest : List ContentLine) :
    Writable (breakAfter kind x rest) := by
  cases kind with
  | literal => exact writable_break newline (.inl rfl)
  | folded =>
    rw [breakAfter]
    split
    · exact writable_break newline (.inl rfl)
    split
    · exact writable_break 0x20 (.inr rfl)
    · exact writable_nil

theorem writable_breakBefore (kind : BlockKind) (chomp : Chomp) (isIndented onlyEmpty : Bool)
    (x : ContentLine) (rest : List ContentLine) :
    Writable (breakBefore kind chomp isIndented onlyEmpty x rest) := by
  rw [breakBefore]
  split
  · exact writable_break newline (.inl rfl)
  · exact writable_nil

theorem writable_between (kind : BlockKind) (chomp : Chomp) (x y : ContentLine)
    (rest : List ContentLine) : Writable (writtenBetween kind chomp x y rest) :=
  writable_append.2 ⟨writable_append.2 ⟨writable_breakAfter kind x _, writable_lineFeeds _⟩,
    writable_breakBefore kind chomp _ _ y rest⟩

theorem writable_final (kind : BlockKind) (chomp : Chomp) (x : ContentLine) :
    Writable (writtenFinal kind chomp x) := by
  rw [writtenFinal]
  split
  · split
    · exact writable_nil
    · exact writable_break newline (.inl rfl)
  · exact writable_append.2 ⟨writable_breakAfter kind x [], writable_lineFeeds _⟩

theorem writable_lines (kind : BlockKind) (chomp : Chomp) (content : List ContentLine) :
    Writable (writtenLines kind chomp content) ↔ ∀ x ∈ content, Writable x.text := by
  induction content with
  | nil => exact iff_of_true writable_nil fun _ h => nomatch h
  | cons x rest ih =>
    cases rest with
    | nil =>
      rw [writtenLines_one, writable_append, and_iff_left (writable_final kind chomp x),
        List.forall_mem_singleton]
    | cons y rest =>
      rw [writtenLines_pair, writable_append, writable_append,
        and_iff_left (writable_between kind chomp x y rest), ih]
      simp only [List.forall_mem_cons]

theorem writable_content (kind : BlockKind) (indent : Nat) (chomp : Chomp) (lines : List Text) :
    Writable (writtenContent kind indent chomp lines) ↔
      ∀ x ∈ (gather indent lines).2, Writable x.text := by
  rw [writtenContent]
  dsimp only
  split
  · next hnil =>
    rw [hnil.1]
    exact iff_of_true writable_nil fun _ h => nomatch h
  · rw [writable_append, and_iff_right (writable_lineFeeds _), writable_lines]

theorem isLiteral_spelled (text string : Text) :
    IsLiteral (quoted (spelled text)) string ↔ Writable text ∧ text = string := by
  have hmap : text.map (denoted (blockEscape false)) = text :=
    (List.map_congr_left fun c _ => denoted_block c).trans (List.map_id text)
  rw [spelled, isLiteral_pieces sound_block, hmap]
  rfl

/-- A block scalar has its content exactly where no control character stands in its lines and the
lines of a folded one fold: of two lines with content, the first is indented, or none starts with a
space, or the second is indented and not the last one, and so is one before blank lines that are
kept at the end. -/
theorem block_scalar_iff (rawQuotes : Bool) (kind : BlockKind) (indent : Nat) (chomp : Chomp)
    (lines : List Text) (h : ∀ line ∈ lines, PlainText line) :
    (∃ out, blockToString rawQuotes (.block kind indent chomp lines) = .ok out ∧
        IsLiteral (quoted out) (yamlContent kind indent chomp lines)) ↔
      (∀ x ∈ (gather indent lines).2, Writable x.text) ∧
        (kind = .folded → Folds chomp (gather indent lines).2) := by
  rw [blockToString_eq rawQuotes kind indent chomp h, ← writable_content kind indent chomp,
    ← writtenContent_iff kind indent chomp h, ← isLiteral_spelled]
  constructor
  · intro hout
    obtain ⟨out, heq, hliteral⟩ := hout
    cases heq
    exact hliteral
  · intro hliteral
    exact ⟨_, rfl, hliteral⟩

theorem block_scalar_folded :
    ∃ out, blockToString false (.block .folded 1 .clip [[0x20, 0x61], [0x20, 0x62]]) = .ok out ∧
      IsLiteral (quoted out) (yamlContent .folded 1 .clip [[0x20, 0x61], [0x20, 0x62]]) := by
  have hwritable : ∀ x ∈ (gather 1 [[0x20, 0x61], [0x20, 0x62]]).2, Writable x.text := by
    unfold Writable isWritable
    decide +kernel
  have hfolds : Folds .clip (gather 1 [[0x20, 0x61], [0x20, 0x62]]).2 :=
    ⟨.inr (.inl ⟨by decide, by decide⟩), .inl ⟨rfl, nofun⟩⟩
  exact (block_scalar_iff false .folded 1 .clip _ (by unfold PlainText; decide +kernel)).2
    ⟨hwritable, fun _ => hfolds⟩

/-- An indented line at the end is written without the break in front of it. -/
theorem last_indented_joined :
    (∀ line ∈ [[0x20, 0x61], [0x20, 0x20, 0x62]], PlainText line) ∧
      ¬ ∃ out, blockToString false
          (.block .folded 1 .clip [[0x20, 0x61], [0x20, 0x20, 0x62]]) = .ok out ∧
        IsLiteral (quoted out) (yamlContent .folded 1 .clip [[0x20, 0x61], [0x20, 0x20, 0x62]]) := by
  have hplain : ∀ line ∈ [[0x20, 0x61], [0x20, 0x20, 0x62]], PlainText line := by
    unfold PlainText
    decide +kernel
  refine ⟨hplain, ?_⟩
  intro hout
  obtain ⟨out, heq, hliteral⟩ := hout
  rw [blockToString_eq false .folded 1 .clip hplain] at heq
  cases heq
  have hsame := ((isLiteral_spelled _ _).1 hliteral).2
  revert hsame
  decide

end Trieste.Yaml
