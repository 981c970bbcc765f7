import Trieste.Yaml.Backslash
import Trieste.Yaml.LineNodes

namespace Trieste.Yaml
set_option autoImplicit true
open Utf8 Json Relation

def Unquoted (text : Text) : Prop := ∀ c ∈ text, c ≠ backslash ∧ c ≠ quote ∧ c ≠ 0x27

def readAs (kind : QuoteKind) (view : Text) : Text := view.map (denoted (quoteEscape kind false))

def pieces (kind : QuoteKind) (view : Text) : Text := view.flatMap (piece (quoteEscape kind false))

theorem escapeLoop_unquoted (toEscape : Text) (h : backslash ∉ input) :
    escapeLoop toEscape false input = input.flatMap (piece toEscape) := by
  induction input with
  | nil => rfl
  | cons c input ih =>
    have hc : c ≠ backslash := fun heq => h (heq ▸ List.mem_cons_self)
    have ih := ih fun hmem => h (List.mem_cons_of_mem _ hmem)
    rw [escapeLoop, if_neg hc, List.flatMap_cons, piece]
    split
    · rw [ih]
    · split <;> rw [ih] <;> rfl

theorem replaceAll_of_not_mem (find : UInt8 × UInt8) (h : find.2 ∉ s) (replace : UInt8) :
    replaceAll find replace s = s := by
  have hfirst : ∀ s, find.2 ∉ s → replaceFirst find replace s = none := by
    intro s hs
    induction s with
    | nil => rfl
    | cons d s ih =>
      have ih := ih fun hmem => hs (List.mem_cons_of_mem _ hmem)
      cases s with
      | nil => rfl
      | cons e s =>
        rw [replaceFirst, if_neg, ih]
        · rfl
        · exact fun hboth => hs (hboth.2 ▸ List.mem_cons_of_mem _ List.mem_cons_self)
  rw [replaceAll]
  cases s.length with
  | zero => rfl
  | succ fuel => rw [replaceAll.go, hfirst s h]

theorem apostrophe_not_mem_piece (kind : QuoteKind) (h : c ≠ 0x27) :
    (0x27 : UInt8) ∉ piece (quoteEscape kind false) c := by
  intro hmem
  rw [piece] at hmem
  split at hmem
  · next hc =>
    have hcases : c ∈ [tab, carriageReturn, newline, backslash, quote] := by
      cases kind with
      | single => exact List.mem_append_right [tab, carriageReturn, newline] hc
      | double =>
        rcases List.mem_append.1 hc with hc | hc
        · exact List.mem_append_left [backslash, quote] hc
        · exact List.mem_append_right [tab, carriageReturn, newline, backslash] hc
    simp only [List.mem_cons, List.not_mem_nil, or_false] at hcases
    rcases hcases with rfl | rfl | rfl | rfl | rfl <;> revert hmem <;> decide
  · split at hmem
    · revert hmem
      decide
    · exact h (List.mem_singleton.1 hmem).symm

theorem quoteText_unquoted (kind : QuoteKind) (h : Unquoted view) :
    quoteText kind false view = .ok (pieces kind view) := by
  have hbackslash : backslash ∉ view := fun hmem => (h _ hmem).1 rfl
  rw [quoteText, escapeChars, unescapeHexunicode_of_noEscape (.of_not_mem hbackslash)]
  have hloop := escapeLoop_unquoted (quoteEscape kind false) hbackslash
  cases kind with
  | double => exact congrArg Except.ok hloop
  | single =>
    refine congrArg Except.ok ?_
    dsimp only
    rw [hloop]
    apply replaceAll_of_not_mem
    intro hmem
    obtain ⟨c, hc, hpiece⟩ := List.mem_flatMap.1 hmem
    exact apostrophe_not_mem_piece .single (h c hc).2.2 hpiece

theorem quoteLoop_unquoted (kind : QuoteKind) (first : Bool) {lines : List QuoteLine}
    (h : ∀ line ∈ lines, Unquoted line.view) : quoteLoop kind false first lines =
      .ok (spell (pieces kind) writtenNewline first lines) := by
  induction lines generalizing first with
  | nil => rfl
  | cons line lines ih =>
    have hline := h line List.mem_cons_self
    have ih := ih false fun l hl => h l (List.mem_cons_of_mem _ hl)
    cases lines with
    | nil =>
      rw [quoteLoop, spell]
      split
      · rfl
      · split
        · rfl
        · exact quoteText_unquoted kind hline
    | cons next rest =>
      rw [quoteLoop, spell, ih]
      split
      · rfl
      · split
        · rfl
        · have hlast : line.view.getLast? ≠ some backslash := by
            intro hlast
            exact (hline _ (List.mem_of_getLast? hlast)).1 rfl
          rw [quoteText_unquoted kind hline]
          simp only [ne_eq, hlast, not_false_eq_true, and_true]
          rfl

theorem sound_quoteEscape (kind : QuoteKind) : Sound (backslash :: quoteEscape kind false) := by
  refine ⟨List.mem_cons_self, ?_, ?_⟩
  · cases kind <;> decide +kernel
  · cases kind <;> decide +kernel

theorem piece_cons (h : c ≠ backslash) (toEscape : Text) :
    piece (backslash :: toEscape) c = piece toEscape c ∧
      denoted (backslash :: toEscape) c = denoted toEscape c := by
  have hmem : c ∈ backslash :: toEscape ↔ c ∈ toEscape :=
    ⟨fun hc => (List.mem_cons.1 hc).resolve_left h, List.mem_cons_of_mem _⟩
  simp only [piece, denoted, hmem, and_self]

def Spells (text string : Text) : Prop :=
  ∃ items : List Item, body items = text ∧ assigned items = string ∧
    ∀ item ∈ items, item.high? = none

theorem Spells.nil : Spells [] [] := ⟨[], rfl, rfl, fun _ hmem => absurd hmem List.not_mem_nil⟩

theorem Spells.append (h : Spells text string) (h' : Spells text' string') :
    Spells (text ++ text') (string ++ string') := by
  obtain ⟨items, rfl, rfl, hhigh⟩ := h
  obtain ⟨items', rfl, rfl, hhigh'⟩ := h'
  refine ⟨items ++ items', List.flatMap_append, ?_, fun item hitem =>
    (List.mem_append.1 hitem).elim (hhigh item) (hhigh' item)⟩
  induction items with
  | nil => rfl
  | cons item items ih =>
    have hitem := startsPair_eq_false (hhigh item List.mem_cons_self)
    rw [List.cons_append, assigned_cons (hitem _), assigned_cons (hitem _), List.append_assoc,
      ih fun item hmem => hhigh item (List.mem_cons_of_mem _ hmem)]

theorem spells_pieces (kind : QuoteKind) (hwritable : ∀ c ∈ view, isWritable c)
    (hunquoted : Unquoted view) : Spells (pieces kind view) (readAs kind view) := by
  induction view with
  | nil => exact .nil
  | cons c view ih =>
    obtain ⟨item, htext, hdenotes, hhigh⟩ :=
      piece_item (sound_quoteEscape kind) (hwritable c List.mem_cons_self)
    obtain ⟨hpiece, hdenoted⟩ := piece_cons (hunquoted c List.mem_cons_self).1 (quoteEscape kind false)
    have hone : Spells (piece (quoteEscape kind false) c) [denoted (quoteEscape kind false) c] := by
      refine ⟨[item], ?_, ?_, fun i hi => List.mem_singleton.1 hi ▸ hhigh⟩
      · rw [← hpiece, ← htext]
        exact List.append_nil _
      · rw [← hdenoted, ← hdenotes]
        rfl
    exact hone.append (ih (fun d hd => hwritable d (List.mem_cons_of_mem _ hd)) fun d hd =>
      hunquoted d (List.mem_cons_of_mem _ hd))

theorem spells_space : Spells [0x20] [0x20] :=
  ⟨[.plain 0x20 (by decide)], rfl, rfl, fun _ hi => List.mem_singleton.1 hi ▸ rfl⟩

theorem spells_newline : Spells writtenNewline [newline] :=
  ⟨[.escape .n], rfl, rfl, fun _ hi => List.mem_singleton.1 hi ▸ rfl⟩

theorem spells_lines (kind : QuoteKind) (first : Bool) {lines : List QuoteLine}
    (hwritable : ∀ line ∈ lines, ∀ c ∈ line.view, isWritable c)
    (hunquoted : ∀ line ∈ lines, Unquoted line.view) :
    Spells (spell (pieces kind) writtenNewline first lines)
      (spell (readAs kind) [newline] first lines) := by
  induction lines generalizing first with
  | nil => exact .nil
  | cons line lines ih =>
    have hline := spells_pieces kind (hwritable line List.mem_cons_self)
      (hunquoted line List.mem_cons_self)
    have ih := ih false (fun l hl => hwritable l (List.mem_cons_of_mem _ hl)) fun l hl =>
      hunquoted l (List.mem_cons_of_mem _ hl)
    cases lines with
    | nil =>
      rw [spell, spell]
      split
      · exact spells_newline
      · split
        · exact spells_space
        · exact hline
    | cons next rest =>
      rw [spell, spell]
      split
      · exact spells_newline.append ih
      · split
        · refine Spells.append ?_ ih
          split
          · exact spells_space
          · exact spells_newline
        · refine Spells.append (hline.append ?_) ih
          split
          · exact spells_space
          · exact .nil

theorem mem_spell {text : Text → Text} (first : Bool) {lines : List QuoteLine}
    (hline : line ∈ lines) (hne : line.view ≠ []) (hc : c ∈ text line.view) (mark : Text) :
    c ∈ spell text mark first lines := by
  induction lines generalizing first with
  | nil => cases hline
  | cons head lines ih =>
    rcases List.mem_cons.1 hline with rfl | hline
    · rw [spell_text line hne]
      exact List.mem_append_left _ (List.mem_append_left _ hc)
    · have ih := ih false hline
      cases lines with
      | nil => cases hline
      | cons next rest =>
        rw [spell]
        split
        · exact List.mem_append_right _ ih
        · split
          · exact List.mem_append_right _ ih
          · exact List.mem_append_right _ ih

theorem quoteString_iff (kind : QuoteKind) {lines : List QuoteLine}
    (hunquoted : ∀ line ∈ lines, Unquoted line.view) (string : Text) :
    (∃ literal, quoteString kind lines = .ok literal ∧ IsLiteral literal string) ↔
      (∀ line ∈ lines, ∀ c ∈ line.view, isWritable c) ∧
        spell (readAs kind) [newline] true lines = string := by
  have hwritten : quoteString kind lines =
      .ok (quoted (spell (pieces kind) writtenNewline true lines)) := by
    rw [quoteString, quoteToString, quoteLoop_unquoted kind true hunquoted]
    rfl
  rw [hwritten]
  constructor
  · intro h
    obtain ⟨literal, hliteral, items, hquoted, hassigned⟩ := h
    cases hliteral
    have hbody : spell (pieces kind) writtenNewline true lines = body items :=
      List.append_cancel_right (List.cons.inj hquoted).2
    have hwritable : ∀ line ∈ lines, ∀ c ∈ line.view, isWritable c := by
      intro line hline c hc
      by_contra hnot
      have hge : ¬ 0x20 ≤ c := fun h => hnot (.inl h)
      have hspace : isSpaceChar c ≠ true := fun h => hnot (.inr h)
      have hmem : c ∉ quoteEscape kind false := fun h =>
        hnot (writable_of_mem (sound_quoteEscape kind) (List.mem_cons_of_mem _ h))
      have hpiece : c ∈ pieces kind line.view := by
        refine List.mem_flatMap.2 ⟨c, hc, ?_⟩
        rw [piece, if_neg hmem, if_neg hspace]
        exact List.mem_cons_self
      apply hge
      apply body_ge items
      rw [← hbody]
      exact mem_spell true hline (List.ne_nil_of_mem hc) hpiece writtenNewline
    obtain ⟨items', hbody', hassigned', -⟩ := spells_lines kind true hwritable hunquoted
    rw [body_injective items items' (hbody.symm.trans hbody'.symm), hassigned'] at hassigned
    exact ⟨hwritable, hassigned⟩
  · intro h
    obtain ⟨hwritable, rfl⟩ := h
    obtain ⟨items, hbody, hassigned, -⟩ := spells_lines kind true hwritable hunquoted
    exact ⟨_, rfl, items, by rw [hbody], hassigned⟩

/-- The lines behind the first one without the white space around the line breaks. -/
def contents : List Text → List Text
  | [] => []
  | [last] => [last.dropWhile isWhite]
  | line :: next :: rest => stripEnd (line.dropWhile isWhite) :: contents (next :: rest)

def foldedText : List Text → Text
  | [] => []
  | [line] => line
  | first :: next :: rest => stripEnd first ++ foldFrom 0 (contents (next :: rest))

/-- Two lists of texts, without text at the same places except for the last one. -/
inductive Matched (r : Text → Text → Prop) : List Text → List Text → Prop where
  | last : r v w → Matched r [v] [w]
  | cons : (v = [] ↔ w = []) → r v w → Matched r vs ws → Matched r (v :: vs) (w :: ws)

namespace Matched
variable {r r' : Text → Text → Prop}

theorem ne_nil (h : Matched r vs ws) : vs ≠ [] ∧ ws ≠ [] := by
  cases h <;> exact ⟨List.cons_ne_nil _ _, List.cons_ne_nil _ _⟩

theorem map {f : Text → Text} (hf : ∀ w, f w = [] ↔ w = []) (hr : ∀ v w, r v w → r' v (f w))
    (h : Matched r vs ws) : Matched r' vs (ws.map f) := by
  induction h with
  | last hvw => exact .last (hr _ _ hvw)
  | cons hnil hvw _ ih => exact .cons (hnil.trans (hf _).symm) (hr _ _ hvw) ih

theorem foldFrom_length (h : Matched (fun v w => v.length ≤ w.length) vs ws) (blanks : Nat) :
    (foldFrom blanks vs).length ≤ (foldFrom blanks ws).length ∧
      ((foldFrom blanks ws).length ≤ (foldFrom blanks vs).length →
        vs.map List.length = ws.map List.length) := by
  induction h generalizing blanks with
  | last hvw =>
    rw [foldFrom, foldFrom, List.length_append, List.length_append]
    refine ⟨Nat.add_le_add_left hvw _, fun hle => ?_⟩
    rw [List.map_singleton, List.map_singleton, Nat.le_antisymm hvw (Nat.le_of_add_le_add_left hle)]
  | @cons v w vs ws hnil hvw hrest ih =>
    obtain ⟨hvs, hws⟩ := hrest.ne_nil
    by_cases hv : v = []
    · have hw := hnil.1 hv
      subst hv hw
      obtain ⟨hle, heq⟩ := ih (blanks + 1)
      rw [foldFrom_nil hvs, foldFrom_nil hws]
      exact ⟨hle, fun h => congrArg (0 :: ·) (heq h)⟩
    · have hw : w ≠ [] := fun hw => hv (hnil.2 hw)
      obtain ⟨hle, heq⟩ := ih 0
      simp only [foldFrom_cons hv hvs, foldFrom_cons hw hws, List.length_append]
      refine ⟨by omega, fun h => ?_⟩
      rw [List.map_cons, List.map_cons, heq (by omega)]
      congr 1
      omega

end Matched

def gaps : List Text → Nat
  | [] => 0
  | [_] => 0
  | line :: next :: rest => (if line = [] then 1 else 0) + gaps (next :: rest)

theorem gaps_cons (h : lines ≠ []) (line : Text) :
    gaps (line :: lines) = (if line = [] then 1 else 0) + gaps lines := by
  cases lines with
  | nil => exact absurd rfl h
  | cons next rest => rfl

theorem Matched.gaps (h : Matched r vs ws) : Yaml.gaps vs = Yaml.gaps ws := by
  induction h with
  | last => rfl
  | cons hnil _ hrest ih =>
    obtain ⟨hvs, hws⟩ := hrest.ne_nil
    rw [gaps_cons hvs, gaps_cons hws, ih]
    simp only [hnil]

theorem count_breaks (h : c ≠ 0x20) (blanks : Nat) :
    (breaks blanks).count c = if c = newline then blanks else 0 := by
  cases blanks with
  | zero =>
    have hzero : List.count c [0x20] = 0 := List.count_eq_zero.2 fun hc => h (List.mem_singleton.1 hc)
    rw [breaks, hzero, ite_self]
  | succ blanks =>
    rw [breaks, List.count_replicate]
    by_cases hc : c = newline
    · rw [if_pos hc, if_pos (beq_iff_eq.2 hc.symm)]
    · rw [if_neg hc, if_neg fun heq => hc (beq_iff_eq.1 heq).symm]

theorem count_foldFrom (hne : lines ≠ []) (h : c ≠ 0x20) (blanks : Nat) :
    (foldFrom blanks lines).count c =
      (if c = newline then blanks + gaps lines else 0) + lines.flatten.count c := by
  induction lines generalizing blanks with
  | nil => exact absurd rfl hne
  | cons line lines ih =>
    cases lines with
    | nil =>
      rw [foldFrom, List.count_append, count_breaks h, List.flatten_singleton]
      rfl
    | cons next rest =>
      rw [gaps, List.flatten_cons, List.count_append]
      by_cases hline : line = []
      · subst hline
        rw [foldFrom_nil (List.cons_ne_nil _ _), ih (List.cons_ne_nil _ _), if_pos rfl,
          List.count_nil]
        split <;> omega
      · rw [foldFrom_cons hline (List.cons_ne_nil _ _), List.count_append, List.count_append,
          count_breaks h, ih (List.cons_ne_nil _ _), if_neg hline]
        split <;> omega

theorem lineBreaks_eq_gaps {lines : List QuoteLine} (hlast : lines.getLast? ≠ some .empty) :
    lineBreaks false lines = gaps (lines.map QuoteLine.view) := by
  induction lines with
  | nil => rfl
  | cons line lines ih =>
    cases lines with
    | nil =>
      have hline : line ≠ .empty := fun heq => hlast (congrArg some heq)
      rw [lineBreaks, if_neg hline]
      rfl
    | cons next rest =>
      rw [List.getLast?_cons_cons] at hlast
      have hcond : (line = .empty ∨ line.view = [] ∧ false = false) ↔ line.view = [] := by
        constructor
        · intro h
          rcases h with heq | h
          · exact congrArg QuoteLine.view heq
          · exact h.1
        · exact fun h => .inr ⟨h, rfl⟩
      rw [lineBreaks, ih hlast, if_congr hcond rfl rfl]
      rfl

theorem isWhite_of_isBlankChar (h : isBlankChar c = true) : isWhite c = true := by
  simp only [isBlankChar, isWhite, Bool.or_eq_true] at h ⊢
  exact .inl h

theorem dropWhile_white (line : Text) :
    line.dropWhile isWhite = (line.dropWhile isBlankChar).dropWhile isWhite := by
  have hall : ∀ c ∈ line.takeWhile isBlankChar, isWhite c = true := fun c hc =>
    isWhite_of_isBlankChar (List.mem_takeWhile_imp hc)
  conv_lhs => rw [← List.takeWhile_append_dropWhile (p := isBlankChar) (l := line)]
  exact List.dropWhile_append_of_pos hall

theorem stripEnd_append (h : stripEnd s ≠ []) (a : Text) : stripEnd (a ++ s) = a ++ stripEnd s := by
  have hne : (s.reverse.dropWhile isWhite).isEmpty = false := by
    cases hempty : (s.reverse.dropWhile isWhite).isEmpty with
    | false => rfl
    | true =>
      refine absurd ?_ h
      rw [stripEnd, List.rdropWhile, List.isEmpty_iff.1 hempty, List.reverse_nil]
  rw [stripEnd, stripEnd, List.rdropWhile, List.rdropWhile, List.reverse_append,
    List.dropWhile_append, hne, if_neg Bool.false_ne_true, List.reverse_append, List.reverse_reverse]

theorem stripEnd_eq_nil : stripEnd line = [] ↔ isBlankLine line = true :=
  List.rdropWhile_eq_nil_iff.trans List.all_eq_true.symm

theorem decide_stripEnd (line : Text) : decide (stripEnd line = []) = isBlankLine line := by
  cases hblank : isBlankLine line with
  | true => exact decide_eq_true (stripEnd_eq_nil.2 hblank)
  | false =>
    refine decide_eq_false fun hnil => ?_
    rw [stripEnd_eq_nil.1 hnil] at hblank
    cases hblank

theorem stripEnd_dropWhile_ne_nil (h : isBlankLine line = false) :
    stripEnd (line.dropWhile isWhite) ≠ [] := by
  intro hnil
  have hall := List.rdropWhile_eq_nil_iff.1 hnil
  have hdrop : line.dropWhile isWhite = [] := by
    cases hrest : line.dropWhile isWhite with
    | nil => rfl
    | cons c rest =>
      have hhead := head_dropWhile line c (congrArg List.head? hrest)
      have hwhite := hall c (by rw [hrest]; exact List.mem_cons_self)
      rw [hhead] at hwhite
      cases hwhite
  have hblank : isBlankLine line = true := List.all_eq_true.2 (List.dropWhile_eq_nil_iff.1 hdrop)
  rw [hblank] at h
  cases h

theorem contents_suffix (h : isBlankLine line = false) :
    stripEnd (line.dropWhile isWhite) <:+ stripEnd (line.dropWhile isBlankChar) := by
  have hne := stripEnd_dropWhile_ne_nil h
  rw [dropWhile_white] at hne ⊢
  have hsplit : (line.dropWhile isBlankChar).takeWhile isWhite ++
      (line.dropWhile isBlankChar).dropWhile isWhite = line.dropWhile isBlankChar :=
    List.takeWhile_append_dropWhile
  conv_rhs => rw [← hsplit, stripEnd_append hne]
  exact List.suffix_append _ _

theorem dropWhile_blank (h : isBlankLine line = true) : line.dropWhile isWhite = [] :=
  List.dropWhile_eq_nil_iff.2 fun c hc => List.all_eq_true.1 h c hc

theorem middleNode_view (h : isBlankLine line = true) (minIndent : Nat) (afterEmpty : Bool) :
    (middleNode minIndent afterEmpty line).view = [] := by
  rw [middleNode, if_pos h]
  split <;> rfl

theorem middleNode_content (h : isBlankLine line = false) (minIndent : Nat) (afterEmpty : Bool) :
    middleNode minIndent afterEmpty line = .block (stripEnd (line.dropWhile isBlankChar)) := by
  rw [middleNode, h, if_neg Bool.false_ne_true]

theorem middleNode_suffix (minIndent : Nat) (afterEmpty : Bool) (line : Text) :
    stripEnd (line.dropWhile isWhite) <:+ (middleNode minIndent afterEmpty line).view := by
  cases hblank : isBlankLine line with
  | true =>
    rw [dropWhile_blank hblank]
    exact List.nil_suffix
  | false =>
    rw [middleNode_content hblank]
    exact contents_suffix hblank

namespace RestNodes

theorem ne_nil (h : RestNodes minIndent afterEmpty lines nodes) : lines ≠ [] ∧ nodes ≠ [] := by
  cases h <;> exact ⟨List.cons_ne_nil _ _, List.cons_ne_nil _ _⟩

theorem contents_cons (h : RestNodes minIndent afterEmpty lines nodes) (line : Text) :
    contents (line :: lines) = stripEnd (line.dropWhile isWhite) :: contents lines := by
  cases h <;> rfl

theorem matched (h : RestNodes minIndent afterEmpty lines nodes) :
    Matched (fun v w => v <:+ w) (contents lines) (nodes.map QuoteLine.view) := by
  induction h with
  | @last last node _ hnode =>
    refine .last ?_
    cases hblank : isBlankLine last with
    | true =>
      rw [dropWhile_blank hblank]
      exact List.nil_suffix
    | false =>
      rw [hnode.content hblank, dropWhile_white]
      exact List.dropWhile_suffix _
  | @cons line next rest nodes afterEmpty hrest ih =>
    rw [hrest.contents_cons, List.map_cons]
    refine .cons ?_ (middleNode_suffix minIndent afterEmpty line) ih
    cases hblank : isBlankLine line with
    | true =>
      rw [dropWhile_blank hblank, middleNode_view hblank]
      exact iff_of_true rfl rfl
    | false =>
      rw [middleNode_content hblank]
      exact iff_of_false (stripEnd_dropWhile_ne_nil hblank) (stripEnd_ne_nil hblank)

theorem last_ne_empty (h : RestNodes minIndent afterEmpty lines nodes) :
    nodes.getLast? ≠ some .empty := by
  induction h with
  | @last last node _ hnode =>
    intro heq
    obtain rfl : node = .empty := Option.some.inj heq
    by_cases hspaces : last.dropWhile (· = 0x20) = []
    · cases hnode.spaces hspaces
    · cases hblank : isBlankLine last with
      | false => cases hnode.content hblank
      | true =>
        rcases hnode.blank hblank hspaces with ⟨msg, heq⟩ | ⟨view, heq, -⟩
        · cases heq
        · cases heq
  | @cons line next rest nodes afterEmpty hrest ih =>
    obtain ⟨node, nodes', heq⟩ := List.exists_cons_of_ne_nil hrest.ne_nil.2
    subst heq
    rwa [List.getLast?_cons_cons]

theorem tab_of_newline (h : RestNodes minIndent afterEmpty lines nodes)
    (hlines : ∀ line ∈ lines, newline ∉ line)
    (hnewline : newline ∈ (nodes.map QuoteLine.view).flatten) :
    (contents lines).flatten.count tab < (nodes.map QuoteLine.view).flatten.count tab := by
  induction h with
  | @last last node _ hnode =>
    rw [List.map_singleton, List.flatten_singleton] at hnewline ⊢
    have hlast := hlines last List.mem_cons_self
    cases hblank : isBlankLine last with
    | false =>
      rw [hnode.content hblank] at hnewline
      exact absurd ((List.dropWhile_suffix _).subset hnewline) hlast
    | true =>
      have hcontents : (contents [last]).flatten = [] := by
        rw [contents, dropWhile_blank hblank]
        rfl
      rw [hcontents, List.count_nil, List.count_pos_iff]
      by_cases hspaces : last.dropWhile (· = 0x20) = []
      · rw [hnode.spaces hspaces] at hnewline
        exact absurd hnewline List.not_mem_nil
      · rcases hnode.blank hblank hspaces with ⟨msg, heq⟩ | ⟨view, heq, -, htab, -⟩
        · rw [heq] at hnewline
          exact absurd hnewline List.not_mem_nil
        · rw [heq] at hnewline ⊢
          exact htab hnewline
  | @cons line next rest nodes afterEmpty hrest ih =>
    rw [hrest.contents_cons]
    rw [List.map_cons, List.flatten_cons] at hnewline
    have hline := hlines line List.mem_cons_self
    have hnot : newline ∉ (middleNode minIndent afterEmpty line).view := by
      intro hmem
      cases hblank : isBlankLine line with
      | true =>
        rw [middleNode_view hblank] at hmem
        cases hmem
      | false =>
        rw [middleNode_content hblank] at hmem
        have hdrop := (List.rdropWhile_prefix isWhite (line.dropWhile isBlankChar)).subset hmem
        exact hline ((List.dropWhile_suffix _).subset hdrop)
    have hlt := ih (fun l hl => hlines l (List.mem_cons_of_mem _ hl))
      ((List.mem_append.1 hnewline).resolve_left hnot)
    rw [List.map_cons, List.flatten_cons, List.flatten_cons, List.count_append, List.count_append]
    have hsuffix := middleNode_suffix minIndent afterEmpty line
    exact Nat.add_lt_add_of_le_of_lt (hsuffix.sublist.count_le tab) hlt

theorem mem_view (h : RestNodes minIndent afterEmpty lines nodes) :
    ∀ node ∈ nodes, ∀ c ∈ node.view, c = newline ∨ ∃ line ∈ lines, c ∈ line := by
  induction h with
  | @last last node _ hnode =>
    intro n hn c hc
    obtain rfl := List.mem_singleton.1 hn
    have hmem : c = newline ∨ c ∈ last := by
      cases hblank : isBlankLine last with
      | false =>
        rw [hnode.content hblank] at hc
        exact .inr ((List.dropWhile_suffix _).subset hc)
      | true =>
        by_cases hspaces : last.dropWhile (· = 0x20) = []
        · rw [hnode.spaces hspaces] at hc
          cases hc
        · rcases hnode.blank hblank hspaces with ⟨msg, heq⟩ | ⟨view, heq, -, -, hview⟩
          · rw [heq] at hc
            cases hc
          · rw [heq] at hc
            exact hview c hc
    exact hmem.imp_right fun hmem => ⟨last, List.mem_cons_self, hmem⟩
  | @cons line next rest nodes afterEmpty hrest ih =>
    intro n hn c hc
    rcases List.mem_cons.1 hn with rfl | hn
    · refine .inr ⟨line, List.mem_cons_self, ?_⟩
      cases hblank : isBlankLine line with
      | true =>
        rw [middleNode_view hblank] at hc
        cases hc
      | false =>
        rw [middleNode_content hblank] at hc
        have hdrop := (List.rdropWhile_prefix isWhite (line.dropWhile isBlankChar)).subset hc
        exact (List.dropWhile_suffix _).subset hdrop
    · exact (ih n hn c hc).imp_right fun hmem =>
        hmem.imp fun l hl => ⟨List.mem_cons_of_mem _ hl.1, hl.2⟩

theorem view_mem (h : RestNodes minIndent afterEmpty lines nodes) (hline : line ∈ lines)
    (hc : c ∈ line) (hwhite : isWhite c = false) : ∃ node ∈ nodes, c ∈ node.view := by
  have hdrop : ∀ line : Text, c ∈ line → c ∈ line.dropWhile isBlankChar := by
    intro line hc
    rw [← List.takeWhile_append_dropWhile (p := isBlankChar) (l := line)] at hc
    refine (List.mem_append.1 hc).resolve_left fun hc => ?_
    rw [isWhite_of_isBlankChar (List.mem_takeWhile_imp hc)] at hwhite
    cases hwhite
  have hcontent : ∀ line : Text, c ∈ line → isBlankLine line = false := by
    intro line hc
    cases hblank : isBlankLine line with
    | false => rfl
    | true =>
      rw [List.all_eq_true.1 hblank c hc] at hwhite
      cases hwhite
  induction h with
  | @last last node _ hnode =>
    obtain rfl := List.mem_singleton.1 hline
    refine ⟨node, List.mem_singleton_self _, ?_⟩
    rw [hnode.content (hcontent _ hc)]
    exact hdrop _ hc
  | @cons line' next rest nodes afterEmpty hrest ih =>
    rcases List.mem_cons.1 hline with rfl | hline
    · refine ⟨_, List.mem_cons_self, ?_⟩
      rw [middleNode_content (hcontent _ hc)]
      have hmem := hdrop _ hc
      rw [← List.rdropWhile_append_rtakeWhile (p := isWhite) (l := line.dropWhile isBlankChar)] at hmem
      refine (List.mem_append.1 hmem).resolve_right fun hc => ?_
      rw [List.mem_rtakeWhile_imp hc] at hwhite
      cases hwhite
    · obtain ⟨node, hnode, hview⟩ := ih hline
      exact ⟨node, List.mem_cons_of_mem _ hnode, hview⟩

end RestNodes

theorem mem_merged (h : ReflTransGen Merge lines lines') :
    ∀ line ∈ lines', line = .block [0x20] ∨ line ∈ lines := by
  induction h with
  | refl => exact fun line hline => .inr hline
  | tail _ hstep ih =>
    intro line hline
    cases hstep with
    | block before after =>
      rcases List.mem_append.1 hline with hline | hline
      · exact ih line (List.mem_append_left _ hline)
      · rcases List.mem_cons.1 hline with rfl | hline
        · exact .inl rfl
        · exact ih line (List.mem_append_right _
            (List.mem_cons_of_mem _ (List.mem_cons_of_mem _ hline)))
    | empty before after =>
      rcases List.mem_append.1 hline with hline | hline
      · exact ih line (List.mem_append_left _ hline)
      · rcases List.mem_cons.1 hline with rfl | hline
        · exact ih _ (List.mem_append_right _ List.mem_cons_self)
        · exact ih line (List.mem_append_right _
            (List.mem_cons_of_mem _ (List.mem_cons_of_mem _ hline)))

theorem mem_dropEmptyFirst (h : line ∈ dropEmptyFirst lines) : line ∈ lines := by
  unfold dropEmptyFirst at h
  split at h
  · split at h
    · exact List.mem_cons_of_mem _ h
    · exact h
  · exact h

theorem mem_of_dropEmptyFirst (h : line ∈ lines) :
    line = .block [] ∨ line ∈ dropEmptyFirst lines := by
  unfold dropEmptyFirst
  split
  · split
    · next hdrop =>
      rcases List.mem_cons.1 h with rfl | h
      · exact .inl hdrop.1
      · exact .inr h
    · exact .inr h
  · exact .inr h

/-- No blank line that is not taken for an empty one is behind a blank line or before a last line
that is blank. -/
def Apart (minIndent : Nat) (afterEmpty prevBlank prevBare : Bool) : List Text → Prop
  | [] => True
  | [last] => isBlankLine last = true → prevBare = false
  | line :: next :: rest =>
    let misread := isBlankLine line && bare minIndent afterEmpty line
    (misread = true → prevBlank = false) ∧
      Apart minIndent (decide (line = [])) (isBlankLine line) misread (next :: rest)

def QuoteKind.mark : QuoteKind → UInt8
  | .single => 0x27
  | .double => quote

/-- A quoted scalar on several lines without backslashes and quotes, whose lines with text are
indented. -/
structure QuotedLines (text : Text) (l : Location) (minIndent : Nat) (kind : QuoteKind)
    (inner : Text) : Prop where
  view : viewOf text l = kind.mark :: (inner ++ [kind.mark])
  lines : newline ∈ inner
  unquoted : Unquoted inner
  dots : ¬ markOf "..." <:+: inner
  opens : minIndent ≤ column text l.pos + 1
  indented : ∀ line ∈ (inner.splitOn newline).tail, isBlankLine line = false →
    minIndent ≤ (indentOf line).length

/-- The reader accepts the scalar, and the JSON string for it is its folded text. -/
def FoldsAsYaml (text : Text) (l : Location) (minIndent : Nat) (kind : QuoteKind) (inner : Text) :
    Prop :=
  Accepted (toLines text minIndent l) ∧
    ∀ lines, ReflTransGen Merge (toLines text minIndent l) lines → Merged lines →
      ∃ literal, quoteString kind lines = .ok literal ∧
        IsLiteral literal (foldedText (inner.splitOn newline))

/-- What the text of a scalar has to be like for that. -/
structure Foldable (minIndent : Nat) (kind : QuoteKind) (inner : Text) : Prop where
  writable : ∀ c ∈ inner, isWritable c
  kept : kind = .single → ∀ c ∈ foldedText (inner.splitOn newline), c ≠ tab ∧ c ≠ carriageReturn
  starts : ∀ line ∈ (inner.splitOn newline).tail, isBlankLine line = false →
    (line.dropWhile isBlankChar).head? ≠ some carriageReturn
  last : ∀ last, (inner.splitOn newline).getLast? = some last → isBlankLine last = true →
    ∀ c ∈ last, c = 0x20
  apart : ∀ first rest, inner.splitOn newline = first :: rest →
    Apart minIndent false (isBlankLine first) false rest

theorem length_readAs (kind : QuoteKind) (view : Text) : (readAs kind view).length = view.length :=
  List.length_map _

theorem readAs_nil (kind : QuoteKind) (view : Text) : readAs kind view = [] ↔ view = [] :=
  List.map_eq_nil_iff

theorem readAs_space (kind : QuoteKind) : readAs kind [0x20] = [0x20] := by
  cases kind <;> rfl

theorem readAs_double (view : Text) : readAs .double view = view := by
  have hdenoted : ∀ c, denoted (quoteEscape .double false) c = c := by
    intro c
    rw [denoted]
    split
    · rfl
    · next hmem =>
      split
      · next hspace =>
        simp only [isSpaceChar, Bool.or_eq_true, decide_eq_true_eq] at hspace
        rcases hspace with ((rfl | rfl) | rfl) | rfl
        · rfl
        · exact absurd (by decide) hmem
        · exact absurd (by decide) hmem
        · exact absurd (by decide) hmem
      · rfl
  rw [readAs, List.map_congr_left fun c _ => hdenoted c, List.map_id']

theorem not_mem_readAs_single (hc : c ∈ [tab, carriageReturn, newline]) (view : Text) :
    c ∉ readAs .single view := by
  intro hmem
  obtain ⟨d, -, hd⟩ := List.mem_map.1 hmem
  rw [denoted] at hd
  split at hd
  · next hd' =>
    subst hd
    simp only [quoteEscape, Bool.false_eq_true, if_false, List.cons_append, List.nil_append,
      List.mem_cons, List.not_mem_nil, or_false] at hc hd'
    rcases hd' with rfl | rfl <;> revert hc <;> decide
  · split at hd
    · subst hd
      revert hc
      decide
    · next hspace =>
      subst hd
      simp only [List.mem_cons, List.not_mem_nil, or_false] at hc
      rcases hc with rfl | rfl | rfl <;> exact hspace rfl

theorem readAs_single (h : ∀ c ∈ view, c ≠ tab ∧ c ≠ carriageReturn ∧ c ≠ newline) :
    readAs .single view = view := by
  have hdenoted : ∀ c ∈ view, denoted (quoteEscape .single false) c = c := by
    intro c hc
    rw [denoted]
    split
    · rfl
    · split
      · next hspace =>
        simp only [isSpaceChar, Bool.or_eq_true, decide_eq_true_eq] at hspace
        rcases hspace with ((rfl | heq) | heq) | heq
        · rfl
        · exact absurd heq (h c hc).1
        · exact absurd heq (h c hc).2.1
        · exact absurd heq (h c hc).2.2
      · rfl
  rw [readAs, List.map_congr_left hdenoted, List.map_id']

theorem mem_contents (h : c ∈ (contents lines).flatten) : ∃ line ∈ lines, c ∈ line := by
  induction lines with
  | nil => cases h
  | cons line lines ih =>
    cases lines with
    | nil =>
      rw [contents, List.flatten_singleton] at h
      exact ⟨line, List.mem_cons_self, (List.dropWhile_suffix _).subset h⟩
    | cons next rest =>
      rw [contents, List.flatten_cons] at h
      rcases List.mem_append.1 h with h | h
      · have hdrop := (List.rdropWhile_prefix isWhite (line.dropWhile isWhite)).subset h
        exact ⟨line, List.mem_cons_self, (List.dropWhile_suffix _).subset hdrop⟩
      · obtain ⟨l, hl, hc⟩ := ih h
        exact ⟨l, List.mem_cons_of_mem _ hl, hc⟩

theorem mem_foldFrom (h : c ∈ lines.flatten) (blanks : Nat) : c ∈ foldFrom blanks lines := by
  induction lines generalizing blanks with
  | nil => cases h
  | cons line lines ih =>
    rw [List.flatten_cons] at h
    cases lines with
    | nil => exact List.mem_append_right _ ((List.mem_append.1 h).resolve_right List.not_mem_nil)
    | cons next rest =>
      by_cases hline : line = []
      · subst hline
        rw [foldFrom_nil (List.cons_ne_nil _ _)]
        exact ih h _
      · rw [foldFrom_cons hline (List.cons_ne_nil _ _)]
        rcases List.mem_append.1 h with h | h
        · exact List.mem_append_left _ (List.mem_append_right _ h)
        · exact List.mem_append_right _ (ih h 0)

theorem white_rest (line : Text) : (line.dropWhile isBlankChar).takeWhile isWhite ++
    line.dropWhile isWhite = line.dropWhile isBlankChar := by
  rw [dropWhile_white]
  exact List.takeWhile_append_dropWhile

theorem head_ne_of_takeWhile {line : Text}
    (h : (line.dropWhile isBlankChar).takeWhile isWhite = []) :
    (line.dropWhile isBlankChar).head? ≠ some carriageReturn := by
  intro hhead
  obtain ⟨rest, hrest⟩ := List.head?_eq_some_iff.1 hhead
  rw [hrest, List.takeWhile_cons, if_pos (by decide)] at h
  cases h

theorem takeWhile_of_head_ne {line : Text}
    (h : (line.dropWhile isBlankChar).head? ≠ some carriageReturn) :
    (line.dropWhile isBlankChar).takeWhile isWhite = [] := by
  cases hrest : line.dropWhile isBlankChar with
  | nil => rfl
  | cons c rest =>
    have hblank := head_dropWhile line c (congrArg List.head? hrest)
    have hne : c ≠ carriageReturn := by
      intro heq
      exact h (by rw [hrest, heq]; rfl)
    have hwhite : isWhite c = false := by
      simp only [isBlankChar, isWhite, Bool.or_eq_false_iff, decide_eq_false_iff_not] at hblank ⊢
      exact ⟨hblank, hne⟩
    rw [List.takeWhile_cons, hwhite, if_neg Bool.false_ne_true]

theorem length_stripEnd (h : isBlankLine line = false) :
    (stripEnd (line.dropWhile isBlankChar)).length =
      ((line.dropWhile isBlankChar).takeWhile isWhite).length +
        (stripEnd (line.dropWhile isWhite)).length := by
  conv_lhs => rw [← white_rest line, stripEnd_append (stripEnd_dropWhile_ne_nil h)]
  exact List.length_append

namespace RestNodes

theorem starts_of_length (h : RestNodes minIndent afterEmpty lines nodes) (hok : Accepted nodes)
    (hlen : (contents lines).map List.length = nodes.map fun node => node.view.length) :
    (∀ line ∈ lines, isBlankLine line = false →
      (line.dropWhile isBlankChar).head? ≠ some carriageReturn) ∧
    ∀ last, lines.getLast? = some last → isBlankLine last = true → ∀ c ∈ last, c = 0x20 := by
  induction h with
  | @last last node _ hnode =>
    have hlen : (last.dropWhile isWhite).length = node.view.length := by
      simpa [contents] using hlen
    refine ⟨fun line hline hcontent => ?_, fun last' hlast hblank => ?_⟩
    · obtain rfl := List.mem_singleton.1 hline
      rw [hnode.content hcontent] at hlen
      have hsplit := congrArg List.length (white_rest line)
      rw [List.length_append] at hsplit
      apply head_ne_of_takeWhile
      apply List.length_eq_zero_iff.1
      dsimp only [QuoteLine.view] at hlen
      omega
    · obtain rfl : last = last' := Option.some.inj hlast
      by_cases hspaces : last.dropWhile (· = 0x20) = []
      · intro c hc
        exact of_decide_eq_true (List.dropWhile_eq_nil_iff.1 hspaces c hc)
      · rw [dropWhile_blank hblank] at hlen
        rcases hnode.blank hblank hspaces with ⟨msg, heq⟩ | ⟨view, heq, hne, -⟩
        · exact absurd heq (hok node List.mem_cons_self msg)
        · rw [heq] at hlen
          exact absurd (List.length_eq_zero_iff.1 hlen.symm) hne
  | @cons line next rest nodes afterEmpty hrest ih =>
    rw [hrest.contents_cons, List.map_cons, List.map_cons] at hlen
    obtain ⟨hhead, htail⟩ := List.cons.inj hlen
    obtain ⟨hstarts, hlast⟩ := ih hok.tail htail
    refine ⟨List.forall_mem_cons.2 ⟨fun hcontent => ?_, hstarts⟩, fun last hl => ?_⟩
    · rw [middleNode_content hcontent] at hhead
      have hsplit := length_stripEnd hcontent
      apply head_ne_of_takeWhile
      apply List.length_eq_zero_iff.1
      dsimp only [QuoteLine.view] at hhead
      omega
    · rw [List.getLast?_cons_cons] at hl
      exact hlast last hl

theorem views_eq_contents (h : RestNodes minIndent afterEmpty lines nodes)
    (hstarts : ∀ line ∈ lines, isBlankLine line = false →
      (line.dropWhile isBlankChar).head? ≠ some carriageReturn)
    (hlast : ∀ last, lines.getLast? = some last → isBlankLine last = true → ∀ c ∈ last, c = 0x20) :
    nodes.map QuoteLine.view = contents lines ∧ Accepted nodes := by
  have hdrop : ∀ line : Text, (line.dropWhile isBlankChar).head? ≠ some carriageReturn →
      line.dropWhile isBlankChar = line.dropWhile isWhite := by
    intro line hhead
    have hsplit := white_rest line
    rw [takeWhile_of_head_ne hhead, List.nil_append] at hsplit
    exact hsplit.symm
  induction h with
  | @last last node _ hnode =>
    cases hblank : isBlankLine last with
    | false =>
      have hhead := hstarts last List.mem_cons_self hblank
      rw [hnode.content hblank, contents, List.map_singleton, QuoteLine.view, hdrop last hhead]
      exact ⟨rfl, fun line hline msg heq => by
        rw [List.mem_singleton.1 hline] at heq
        cases heq⟩
    | true =>
      have hspaces : last.dropWhile (· = 0x20) = [] :=
        List.dropWhile_eq_nil_iff.2 fun c hc => decide_eq_true (hlast last rfl hblank c hc)
      rw [hnode.spaces hspaces, contents, dropWhile_blank hblank]
      exact ⟨rfl, fun line hline msg heq => by
        rw [List.mem_singleton.1 hline] at heq
        cases heq⟩
  | @cons line next rest nodes afterEmpty hrest ih =>
    obtain ⟨hviews, hok⟩ := ih (fun l hl => hstarts l (List.mem_cons_of_mem _ hl)) fun last hl =>
      hlast last (by rwa [List.getLast?_cons_cons])
    rw [hrest.contents_cons, List.map_cons, hviews]
    refine ⟨?_, List.forall_mem_cons.2 ⟨fun msg heq => ?_, hok⟩⟩
    · cases hblank : isBlankLine line with
      | true =>
        rw [middleNode_view hblank, dropWhile_blank hblank]
        rfl
      | false =>
        rw [middleNode_content hblank, hdrop line (hstarts line List.mem_cons_self hblank)]
        rfl
    · rw [middleNode] at heq
      split at heq
      · split at heq <;> cases heq
      · cases heq

theorem apart_iff_clean (h : RestNodes minIndent afterEmpty lines nodes)
    (hlast : ∀ last, lines.getLast? = some last → isBlankLine last = true → ∀ c ∈ last, c = 0x20)
    (prevBlank prevBare : Bool) :
    Apart minIndent afterEmpty prevBlank prevBare lines ↔ Clean prevBlank prevBare nodes := by
  induction h generalizing prevBlank prevBare with
  | @last last node _ hnode =>
    have hnil : node = .block [] ↔ isBlankLine last = true := by
      constructor
      · intro heq
        cases hblank : isBlankLine last with
        | true => rfl
        | false =>
          rw [hnode.content hblank] at heq
          exact absurd (QuoteLine.block.inj heq) (dropWhile_ne_nil hblank)
      · intro hblank
        exact hnode.spaces (List.dropWhile_eq_nil_iff.2 fun c hc =>
          decide_eq_true (hlast last rfl hblank c hc))
    rw [Apart, Clean, hnil]
  | @cons line next rest nodes afterEmpty hrest ih =>
    have hmisread : middleNode minIndent afterEmpty line = .block [] ↔
        (isBlankLine line && bare minIndent afterEmpty line) = true := by
      cases hblank : isBlankLine line with
      | true =>
        rw [middleNode, if_pos hblank, Bool.true_and]
        cases bare minIndent afterEmpty line with
        | true => exact iff_of_true rfl rfl
        | false => exact iff_of_false (fun heq => by cases heq) Bool.false_ne_true
      | false =>
        rw [middleNode_content hblank, Bool.false_and]
        refine iff_of_false (fun heq => ?_) Bool.false_ne_true
        exact stripEnd_ne_nil hblank (QuoteLine.block.inj heq)
    have hview : decide ((middleNode minIndent afterEmpty line).view = []) = isBlankLine line := by
      cases hblank : isBlankLine line with
      | true => exact decide_eq_true (middleNode_view hblank _ _)
      | false =>
        rw [middleNode_content hblank]
        exact decide_eq_false (stripEnd_ne_nil hblank)
    have hbare : decide (middleNode minIndent afterEmpty line = .block []) =
        (isBlankLine line && bare minIndent afterEmpty line) := by
      rw [decide_eq_decide.2 hmisread, Bool.decide_coe]
    have ih := ih (fun last hl => hlast last (by rwa [List.getLast?_cons_cons])) (isBlankLine line)
      (isBlankLine line && bare minIndent afterEmpty line)
    obtain ⟨node, nodes', heq⟩ := List.exists_cons_of_ne_nil hrest.ne_nil.2
    subst heq
    rw [Apart, Clean, hview, hbare, hmisread, ih]

end RestNodes

theorem exists_lines (inner : Text) :
    ∃ lines, lines ≠ [] ∧ (∀ line ∈ lines, newline ∉ line) ∧ joinLines lines = inner := by
  induction inner with
  | nil =>
    refine ⟨[[]], List.cons_ne_nil _ _, fun line hline hmem => ?_, rfl⟩
    rw [List.mem_singleton.1 hline] at hmem
    cases hmem
  | cons c inner ih =>
    obtain ⟨lines, hne, hlines, rfl⟩ := ih
    obtain ⟨line, lines, rfl⟩ := List.exists_cons_of_ne_nil hne
    by_cases hc : c = newline
    · refine ⟨[] :: line :: lines, List.cons_ne_nil _ _,
        List.forall_mem_cons.2 ⟨List.not_mem_nil, hlines⟩, ?_⟩
      rw [joinLines_cons, hc]
      rfl
    · have hline : newline ∉ c :: line := fun hmem => (List.mem_cons.1 hmem).elim
        (fun heq => hc heq.symm) (hlines line List.mem_cons_self)
      refine ⟨(c :: line) :: lines, List.cons_ne_nil _ _, List.forall_mem_cons.2
        ⟨hline, fun l hl => hlines l (List.mem_cons_of_mem _ hl)⟩, ?_⟩
      cases lines with
      | nil => simp [joinLines]
      | cons next rest => rw [joinLines_cons, joinLines_cons, List.cons_append]

theorem splitOn_lines {inner : Text} (h : newline ∈ inner) : ∃ first next lines,
    inner.splitOn newline = first :: next :: lines ∧ joinLines (first :: next :: lines) = inner ∧
      ∀ line ∈ first :: next :: lines, newline ∉ line := by
  obtain ⟨lines, hne, hlines, rfl⟩ := exists_lines inner
  have hsplit : (joinLines lines).splitOn newline = lines :=
    List.splitOn_intercalate newline hlines hne
  obtain ⟨first, rest, rfl⟩ := List.exists_cons_of_ne_nil hne
  cases rest with
  | nil =>
    have hone : joinLines [first] = first := by simp [joinLines]
    rw [hone] at h
    exact absurd h (hlines first List.mem_cons_self)
  | cons next lines => exact ⟨first, next, lines, hsplit, rfl, hlines⟩

theorem mem_joinLines (h : line ∈ lines) (hc : c ∈ line) : c ∈ joinLines lines := by
  induction lines with
  | nil => cases h
  | cons head lines ih =>
    cases lines with
    | nil =>
      obtain rfl := List.mem_singleton.1 h
      simpa [joinLines] using hc
    | cons next rest =>
      rw [joinLines_cons]
      rcases List.mem_cons.1 h with rfl | h
      · exact List.mem_append_left _ hc
      · exact List.mem_append_right _ (List.mem_cons_of_mem _ (ih h))

theorem line_within (h : line ∈ lines) : line <:+: joinLines lines := by
  induction lines with
  | nil => cases h
  | cons head lines ih =>
    cases lines with
    | nil =>
      obtain rfl := List.mem_singleton.1 h
      simp [joinLines]
    | cons next rest =>
      rw [joinLines_cons]
      rcases List.mem_cons.1 h with rfl | h
      · exact (List.prefix_append _ _).isInfix
      · have hsuffix : joinLines (next :: rest) <:+ newline :: joinLines (next :: rest) :=
          List.suffix_cons _ _
        exact (ih h).trans (hsuffix.isInfix.trans (List.suffix_append _ _).isInfix)

theorem mem_of_mem_joinLines (h : c ∈ joinLines lines) : c = newline ∨ ∃ line ∈ lines, c ∈ line := by
  induction lines with
  | nil => cases h
  | cons head lines ih =>
    cases lines with
    | nil =>
      refine .inr ⟨head, List.mem_cons_self, ?_⟩
      simpa [joinLines] using h
    | cons next rest =>
      rw [joinLines_cons] at h
      rcases List.mem_append.1 h with h | h
      · exact .inr ⟨head, List.mem_cons_self, h⟩
      · rcases List.mem_cons.1 h with rfl | h
        · exact .inl rfl
        · exact (ih h).imp_right fun hl => hl.imp fun l hl => ⟨List.mem_cons_of_mem _ hl.1, hl.2⟩

section Scalars
variable {kind : QuoteKind} {minIndent : Nat} {first next : Text} {rest : List Text}
  {nodes lines' : List QuoteLine}

theorem merged_views (hnodes : RestNodes minIndent false (next :: rest) nodes)
    (h : ReflTransGen Merge (dropEmptyFirst (.block (stripEnd first) :: nodes)) lines') :
    ∀ line ∈ lines', ∀ c ∈ line.view, c = 0x20 ∨ c = newline ∨
      ∃ l ∈ first :: next :: rest, c ∈ l := by
  intro line hline c hc
  rcases mem_merged h line hline with rfl | hline
  · exact .inl (List.mem_singleton.1 hc)
  · right
    rcases List.mem_cons.1 (mem_dropEmptyFirst hline) with rfl | hline
    · exact .inr ⟨first, List.mem_cons_self, (List.rdropWhile_prefix isWhite first).subset hc⟩
    · exact (hnodes.mem_view line hline c hc).imp_right fun hl =>
        hl.imp fun l hl => ⟨List.mem_cons_of_mem _ hl.1, hl.2⟩

theorem writable_of_merged (hnodes : RestNodes minIndent false (next :: rest) nodes)
    (h : ReflTransGen Merge (dropEmptyFirst (.block (stripEnd first) :: nodes)) lines')
    (hwritable : ∀ line ∈ lines', ∀ c ∈ line.view, isWritable c) :
    ∀ c ∈ joinLines (first :: next :: rest), isWritable c := by
  intro c hc
  rcases mem_of_mem_joinLines hc with rfl | ⟨line, hline, hmem⟩
  · exact .inr rfl
  cases hwhite : isWhite c with
  | true =>
    right
    simp only [isWhite, isSpaceChar, Bool.or_eq_true] at hwhite ⊢
    exact .inl hwhite
  | false =>
    have hspace : c ≠ 0x20 := by
      rintro rfl
      cases hwhite
    have hnode : ∃ node ∈ QuoteLine.block (stripEnd first) :: nodes, c ∈ node.view := by
      rcases List.mem_cons.1 hline with rfl | hline
      · refine ⟨_, List.mem_cons_self, ?_⟩
        have hsplit : c ∈ stripEnd line ++ line.rtakeWhile isWhite := by
          rw [stripEnd, List.rdropWhile_append_rtakeWhile]
          exact hmem
        refine (List.mem_append.1 hsplit).resolve_right fun hend => ?_
        rw [List.mem_rtakeWhile_imp hend] at hwhite
        cases hwhite
      · obtain ⟨node, hnode, hview⟩ := hnodes.view_mem hline hmem hwhite
        exact ⟨node, List.mem_cons_of_mem _ hnode, hview⟩
    have hcount := count_merge id rfl rfl hspace h
    rw [flatMap_dropEmptyFirst id rfl] at hcount
    obtain ⟨node, hnode, hview⟩ := hnode
    have hpos : 0 < ((QuoteLine.block (stripEnd first) :: nodes).flatMap
        fun line => id line.view).count c :=
      List.count_pos_iff.2 (List.mem_flatMap.2 ⟨node, hnode, hview⟩)
    rw [← hcount] at hpos
    obtain ⟨line', hline', hc'⟩ := List.mem_flatMap.1 (List.count_pos_iff.1 hpos)
    exact hwritable line' hline' c hc'

theorem count_folded (first next : Text) (rest : List Text) {c : UInt8} (hc : c ≠ 0x20) :
    (foldedText (first :: next :: rest)).count c = (stripEnd first).count c +
      ((if c = newline then gaps (contents (next :: rest)) else 0) +
        (contents (next :: rest)).flatten.count c) := by
  have hne : contents (next :: rest) ≠ [] := by
    cases rest <;> exact List.cons_ne_nil _ _
  rw [foldedText, List.count_append, count_foldFrom hne hc, Nat.zero_add]

theorem count_merged (kind : QuoteKind) {c : UInt8} (hc : c ≠ 0x20)
    (h : ReflTransGen Merge (dropEmptyFirst (.block (stripEnd first) :: nodes)) lines') :
    (spell (readAs kind) [newline] true lines').count c =
      (if c = newline then lineBreaks true lines' else 0) + ((readAs kind (stripEnd first)).count c +
        (nodes.flatMap fun node => readAs kind node.view).count c) := by
  have hnil : readAs kind [] = [] := rfl
  rw [count_spell _ hnil hc, count_merge _ hnil (readAs_space kind) hc h,
    flatMap_dropEmptyFirst _ hnil, List.flatMap_cons, List.count_append]
  rfl

theorem flatMap_readAs_double (nodes : List QuoteLine) :
    (nodes.flatMap fun node => readAs .double node.view) = (nodes.map QuoteLine.view).flatten := by
  simp only [readAs_double, List.flatten_eq_flatMap, List.flatMap_map, id]

theorem no_newline (hnodes : RestNodes minIndent false (next :: rest) nodes)
    (hlines : ∀ line ∈ first :: next :: rest, newline ∉ line)
    (h : ReflTransGen Merge (dropEmptyFirst (.block (stripEnd first) :: nodes)) lines')
    (hspell : spell (readAs kind) [newline] true lines' = foldedText (first :: next :: rest)) :
    (nodes.flatMap fun node => readAs kind node.view).count newline = 0 := by
  apply List.count_eq_zero.2
  intro hmem
  cases kind with
  | single =>
    obtain ⟨node, -, hc⟩ := List.mem_flatMap.1 hmem
    exact not_mem_readAs_single (by decide) node.view hc
  | double =>
    rw [flatMap_readAs_double] at hmem
    have htab := hnodes.tab_of_newline (fun l hl => hlines l (List.mem_cons_of_mem _ hl)) hmem
    have hread := count_merged .double (c := tab) (by decide) h
    rw [hspell, count_folded first next rest (by decide), readAs_double, flatMap_readAs_double,
      if_neg (by decide), if_neg (by decide)] at hread
    omega

theorem clean_of_spell (hnodes : RestNodes minIndent false (next :: rest) nodes)
    (hlines : ∀ line ∈ first :: next :: rest, newline ∉ line)
    (hok : Accepted (.block (stripEnd first) :: nodes))
    (h : ReflTransGen Merge (dropEmptyFirst (.block (stripEnd first) :: nodes)) lines')
    (hmerged : Merged lines')
    (hspell : spell (readAs kind) [newline] true lines' = foldedText (first :: next :: rest)) :
    Clean (decide (stripEnd first = [])) false nodes := by
  apply clean_of_lineBreaks hok h hmerged
  have hfirst : newline ∉ stripEnd first := fun hmem =>
    hlines first List.mem_cons_self ((List.rdropWhile_prefix isWhite first).subset hmem)
  have hread : newline ∉ readAs kind (stripEnd first) := by
    cases kind with
    | single => exact not_mem_readAs_single (by decide) _
    | double => rwa [readAs_double]
  have hcontents : newline ∉ (contents (next :: rest)).flatten := by
    intro hmem
    obtain ⟨line, hline, hc⟩ := mem_contents hmem
    exact hlines line (List.mem_cons_of_mem _ hline) hc
  have hcount := count_merged kind (c := newline) (by decide) h
  rw [hspell, count_folded first next rest (by decide), if_pos rfl, if_pos rfl,
    no_newline hnodes hlines h hspell, List.count_eq_zero.2 hfirst, List.count_eq_zero.2 hread,
    List.count_eq_zero.2 hcontents, hnodes.matched.gaps] at hcount
  rw [lineBreaks_dropEmptyFirst hnodes.ne_nil.2 hnodes.last_ne_empty,
    lineBreaks_eq_gaps hnodes.last_ne_empty]
  omega

theorem length_of_spell (hnodes : RestNodes minIndent false (next :: rest) nodes)
    (hok : Accepted (.block (stripEnd first) :: nodes))
    (hclean : Clean (decide (stripEnd first = [])) false nodes)
    (h : ReflTransGen Merge (dropEmptyFirst (.block (stripEnd first) :: nodes)) lines')
    (hmerged : Merged lines')
    (hspell : spell (readAs kind) [newline] true lines' = foldedText (first :: next :: rest)) :
    (contents (next :: rest)).map List.length = nodes.map fun node => node.view.length := by
  rw [spell_clean (readAs_nil kind) (readAs_space kind) hok hnodes.ne_nil.2 hnodes.last_ne_empty
    hclean h hmerged, foldedText] at hspell
  have hmatched : Matched (fun v w => v.length ≤ w.length) (contents (next :: rest))
      (nodes.map fun node => readAs kind node.view) := by
    have hle : ∀ v w, v <:+ w → v.length ≤ (readAs kind w).length := by
      intro v w hvw
      rw [length_readAs]
      exact hvw.length_le
    have hmap : Matched (fun v w => v.length ≤ w.length) (contents (next :: rest))
        ((nodes.map QuoteLine.view).map (readAs kind)) :=
      hnodes.matched.map (readAs_nil kind) hle
    rwa [List.map_map] at hmap
  have hlen := congrArg List.length hspell
  rw [List.length_append, List.length_append, length_readAs] at hlen
  have heq := (hmatched.foldFrom_length 0).2 (by omega)
  rw [heq, List.map_map]
  exact List.map_congr_left fun node _ => length_readAs kind node.view

theorem kept_of_spell
    (h : ReflTransGen Merge (dropEmptyFirst (.block (stripEnd first) :: nodes)) lines')
    (hspell : spell (readAs .single) [newline] true lines' = foldedText (first :: next :: rest)) :
    ∀ c ∈ foldedText (first :: next :: rest), c ≠ tab ∧ c ≠ carriageReturn := by
  have habsent : ∀ c ∈ [tab, carriageReturn, newline], c ≠ newline → c ≠ 0x20 →
      c ∉ foldedText (first :: next :: rest) := by
    intro c hc hnewline hspace hmem
    have hcount := count_merged .single hspace h
    have hzero : (nodes.flatMap fun node => readAs .single node.view).count c = 0 := by
      apply List.count_eq_zero.2
      intro hmem
      obtain ⟨node, -, hread⟩ := List.mem_flatMap.1 hmem
      exact not_mem_readAs_single hc node.view hread
    rw [hspell, if_neg hnewline, hzero, List.count_eq_zero.2 (not_mem_readAs_single hc _)] at hcount
    exact absurd (List.count_pos_iff.2 hmem) (by omega)
  intro c hc
  constructor
  · rintro rfl
    exact habsent tab (by decide) (by decide) (by decide) hc
  · rintro rfl
    exact habsent carriageReturn (by decide) (by decide) (by decide) hc

theorem readAs_contents (hlines : ∀ line ∈ first :: next :: rest, newline ∉ line)
    (hkept : kind = .single → ∀ c ∈ foldedText (first :: next :: rest),
      c ≠ tab ∧ c ≠ carriageReturn) :
    readAs kind (stripEnd first) = stripEnd first ∧
      (contents (next :: rest)).map (readAs kind) = contents (next :: rest) := by
  cases kind with
  | double => exact ⟨readAs_double _, by rw [funext readAs_double]; exact List.map_id' _⟩
  | single =>
    constructor
    · apply readAs_single
      intro c hc
      obtain ⟨htab, hreturn⟩ := hkept rfl c (List.mem_append_left _ hc)
      refine ⟨htab, hreturn, fun heq => hlines first List.mem_cons_self ?_⟩
      rw [← heq]
      exact (List.rdropWhile_prefix isWhite first).subset hc
    · refine (List.map_congr_left fun line hline => ?_).trans (List.map_id' _)
      apply readAs_single
      intro c hc
      have hmem : c ∈ (contents (next :: rest)).flatten := List.mem_flatten.2 ⟨line, hline, hc⟩
      obtain ⟨htab, hreturn⟩ := hkept rfl c (List.mem_append_right _ (mem_foldFrom hmem 0))
      refine ⟨htab, hreturn, fun heq => ?_⟩
      obtain ⟨line', hline', hc'⟩ := mem_contents hmem
      rw [heq] at hc'
      exact hlines line' (List.mem_cons_of_mem _ hline') hc'

end Scalars

/-- A quoted scalar is folded as YAML says if its white space is as `to_lines` expects it. -/
theorem quoted_folds_iff {inner : Text} (h : QuotedLines text l minIndent kind inner) :
    FoldsAsYaml text l minIndent kind inner ↔ Foldable minIndent kind inner := by
  obtain ⟨first, next, rest, hsplit, rfl, hlines⟩ := splitOn_lines h.lines
  have hindented := h.indented
  rw [hsplit, List.tail_cons] at hindented
  have hplain : ∀ line ∈ first :: next :: rest, newline ∉ line ∧ backslash ∉ line ∧
      ¬ markOf "..." <:+: line := by
    intro line hline
    refine ⟨hlines line hline, fun hmem => ?_, fun hinner => h.dots (hinner.trans (line_within hline))⟩
    exact (h.unquoted _ (mem_joinLines hline hmem)).1 rfl
  have hq : kind.mark ≠ newline := by
    cases kind <;> decide
  obtain ⟨nodes, hnodes, hto⟩ := toLines_nodes h.view hq hplain hindented h.opens
  have hunquoted : ∀ lines', ReflTransGen Merge (dropEmptyFirst (.block (stripEnd first) :: nodes))
      lines' → ∀ line ∈ lines', Unquoted line.view := by
    intro lines' hmerge line hline c hc
    rcases merged_views hnodes hmerge line hline c hc with rfl | rfl | ⟨line', hline', hc'⟩
    · decide
    · decide
    · exact h.unquoted c (mem_joinLines hline' hc')
  rw [FoldsAsYaml, hto, hsplit]
  constructor
  · intro hfolds
    obtain ⟨haccepted, hall⟩ := hfolds
    have hok : Accepted (.block (stripEnd first) :: nodes) := by
      intro line hline msg heq
      rcases mem_of_dropEmptyFirst hline with rfl | hdrop
      · cases heq
      · exact haccepted line hdrop msg heq
    obtain ⟨lines', hmerge, hmerged⟩ :=
      exists_merged (dropEmptyFirst (.block (stripEnd first) :: nodes))
    obtain ⟨hwritable, hspell⟩ :=
      (quoteString_iff kind (hunquoted lines' hmerge) _).1 (hall lines' hmerge hmerged)
    have hclean := clean_of_spell hnodes hlines hok hmerge hmerged hspell
    have hlen := length_of_spell hnodes hok hclean hmerge hmerged hspell
    obtain ⟨hstarts, hlast⟩ := hnodes.starts_of_length hok.tail hlen
    rw [decide_stripEnd] at hclean
    refine
      { writable := writable_of_merged hnodes hmerge hwritable
        kept := fun hkind => ?_
        starts := by rwa [hsplit]
        last := by rwa [hsplit, List.getLast?_cons_cons]
        apart := fun first' rest' heq => ?_ }
    · subst hkind
      rw [hsplit]
      exact kept_of_spell hmerge hspell
    · rw [hsplit] at heq
      obtain ⟨rfl, rfl⟩ := List.cons.inj heq
      exact (hnodes.apart_iff_clean hlast _ _).2 hclean
  · intro hfold
    have hstarts := hfold.starts
    have hlast := hfold.last
    have hkept := hfold.kept
    rw [hsplit] at hstarts hlast hkept
    rw [List.getLast?_cons_cons] at hlast
    obtain ⟨hviews, hok⟩ := hnodes.views_eq_contents hstarts hlast
    have hclean := (hnodes.apart_iff_clean hlast _ _).1 (hfold.apart first (next :: rest) hsplit)
    rw [← decide_stripEnd] at hclean
    have hok : Accepted (.block (stripEnd first) :: nodes) :=
      List.forall_mem_cons.2 ⟨(fun msg heq => by cases heq), hok⟩
    refine ⟨fun line hline => hok line (mem_dropEmptyFirst hline), fun lines' hmerge hmerged => ?_⟩
    apply (quoteString_iff kind (hunquoted lines' hmerge) _).2
    constructor
    · intro line hline c hc
      rcases merged_views hnodes hmerge line hline c hc with rfl | rfl | ⟨line', hline', hc'⟩
      · exact .inl (by decide)
      · exact .inr rfl
      · exact hfold.writable c (mem_joinLines hline' hc')
    · obtain ⟨hfirst, hcontents⟩ := readAs_contents hlines hkept
      have hmap : (nodes.map fun node => readAs kind node.view) = contents (next :: rest) := by
        rw [← hcontents, ← hviews, List.map_map]
        rfl
      rw [spell_clean (readAs_nil kind) (readAs_space kind) hok hnodes.ne_nil.2 hnodes.last_ne_empty
        hclean hmerge hmerged, hmap, hfirst]
      rfl

/-- An empty line is a line break, and an indented line is text. -/
theorem quoted_folds_indented : FoldsAsYaml [0x27, 0x61, newline, newline, 0x20, 0x62, 0x27]
    { source := none, pos := 0, len := 7 } 0 .single [0x61, newline, newline, 0x20, 0x62] := by
  apply (quoted_folds_iff ?_).2
  · exact
      { writable := List.forall_mem_cons.2 ⟨.inl (by decide), List.forall_mem_cons.2 ⟨.inr rfl,
          List.forall_mem_cons.2 ⟨.inr rfl, List.forall_mem_cons.2 ⟨.inl (by decide),
            List.forall_mem_singleton.2 (.inl (by decide))⟩⟩⟩⟩
        kept := fun _ => by decide +kernel
        starts := by decide
        last := fun last hlast hblank => by
          cases hlast
          revert hblank
          decide
        apart := fun first rest heq => by
          cases heq
          refine ⟨by decide, fun hblank => ?_⟩
          revert hblank
          decide }
  · exact
      { view := rfl
        lines := by decide
        unquoted := by
          unfold Unquoted
          decide +kernel
        dots := by decide
        opens := by decide
        indented := by decide }

/-- Two lines with a tab each are merged to a space. -/
theorem tab_lines_lost :
    QuotedLines [quote, 0x61, newline, tab, newline, tab, newline, 0x62, quote]
      { source := none, pos := 0, len := 9 } 0 .double
      [0x61, newline, tab, newline, tab, newline, 0x62] ∧
    ¬ FoldsAsYaml [quote, 0x61, newline, tab, newline, tab, newline, 0x62, quote]
      { source := none, pos := 0, len := 9 } 0 .double
      [0x61, newline, tab, newline, tab, newline, 0x62] := by
  constructor
  · exact
      { view := rfl
        lines := by decide
        unquoted := by
          unfold Unquoted
          decide +kernel
        dots := by decide
        opens := by decide
        indented := by decide }
  · intro h
    have hlines : toLines [quote, 0x61, newline, tab, newline, tab, newline, 0x62, quote] 0
        { source := none, pos := 0, len := 9 } =
        [.block [0x61]] ++ .block [] :: .block [] :: [.block [0x62]] := by decide
    have hmerge := ReflTransGen.single (Merge.block [.block [0x61]] [.block [0x62]])
    have hmerged : Merged ([.block [0x61]] ++ .block [0x20] :: [.block [0x62]]) :=
      merged_iff.2 ⟨by decide, by decide, trivial⟩
    have hunquoted : ∀ line ∈ [QuoteLine.block [0x61]] ++ .block [0x20] :: [.block [0x62]],
        Unquoted line.view := by
      unfold Unquoted
      decide +kernel
    rw [FoldsAsYaml, hlines] at h
    obtain ⟨-, hspell⟩ := (quoteString_iff .double hunquoted _).1 (h.2 _ hmerge hmerged)
    revert hspell
    decide

end Trieste.Yaml
