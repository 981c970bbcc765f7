import Trieste.Regex.Ending
import Trieste.Yaml.UnicodeQuotes
import Trieste.Yaml.ValueWriter

namespace Trieste.Yaml
set_option autoImplicit true
open Utf8
open Regex hiding backslash

def EndsBreak (s : Bytes) : Prop := EndsRune newline.toNat s

theorem endsBreak_of_getLast (h : s.getLast? = some newline) : EndsBreak s := by
  obtain ⟨front, rfl⟩ := List.getLast?_eq_some_iff.1 h
  exact endsRune_of_ascii (by decide) front

def foldedGroup : Regexp :=
  let lines (index : Nat) : Regexp := .oneOrMore false
    (.cat (.cat (.literal 0x20) (.oneOrMore false (.classRef index))) (.literal 0x0A))
  .alt (.cat (.cat (.literal 0x0A) (.literal 0x0A)) (lines 0)) (.cat .startAnchor (lines 1))

theorem folded_parse : ((PatternTree.parse (fun _ => none) (patternBytes foldedPattern)).map fun t =>
    (t.tree, t.classes.length, t.groups, t.engine.ok)) =
      some (.cat (.capture 0 foldedGroup) (.literal 0x0A), 2, 1, true) := by
  decide +kernel

theorem newline_parse : (PatternTree.parse (fun _ => none) (patternBytes newlinePattern)).map
    PatternTree.groups = some 0 := by
  decide +kernel

theorem endsOff_parse : ∀ pattern ∈ [breaksPattern, indentPattern],
    (PatternTree.parse (fun _ => none) (patternBytes pattern)).map (fun t =>
      t.tree.endsOff newline.toNat t.classes) = some true := by
  decide +kernel

theorem newline_ne_bad : newline.toNat ≠ Utf8.bad := by decide

section Replace
variable (self : Nat) {s : Bytes × MatchContext}

theorem replaceIn_endsOff (hpattern : pattern ∈ [breaksPattern, indentPattern])
    (hctx : MatchContext.LeftOver s.2) (hs : EndsBreak s.1) (rewrite : Bytes) :
    EndsBreak (replaceIn self pattern rewrite s).1 := by
  have hmem : pattern ∈ [breaksPattern, indentPattern, newlinePattern] := by
    simp only [List.mem_cons, List.not_mem_nil, or_false] at hpattern ⊢
    tauto
  obtain ⟨t, ht⟩ := demandsBreak pattern hmem
  have hoff := endsOff_parse pattern hpattern
  rw [ht.parse, Option.map_some] at hoff
  obtain ⟨result, hresult, hends⟩ := globalReplace_endsOff ht.parse ht.wellFormed ht.ok
    (Option.some.inj hoff) hctx self rewrite hs newline_ne_bad
  rw [replaceIn, hresult]
  exact hends

theorem replaceIn_folded (hctx : MatchContext.LeftOver s.2) (hs : EndsBreak s.1) :
    EndsBreak (replaceIn self foldedPattern (patternBytes "\\1") s).1 := by
  obtain ⟨t, hparse, heq⟩ := Option.map_eq_some_iff.1 folded_parse
  simp only [Prod.mk.injEq] at heq
  obtain ⟨htree, hclasses, hgroups, hok⟩ := heq
  have ht : t.tree.WellFormed t.classes := by
    rw [htree]
    simp only [foldedGroup, Regexp.WellFormed, hclasses]
    decide
  have hrewrite : patternBytes "\\1" = ['\\'.toUInt8, '1'.toUInt8] := rfl
  obtain ⟨result, hresult, hends⟩ := globalReplace_group hparse ht hok htree (by decide)
    (hgroups ▸ Nat.one_pos) (by decide) hctx self hs newline_ne_bad
  rw [replaceIn, hrewrite, hresult]
  exact hends

theorem appendRewrite_newline (hbreak : newlines ∈ yamlBreaks) (src : Bytes) (p len : Nat)
    (captures : List Capture) : appendRewrite src p len captures newlines = newlines := by
  have hplain : ∀ text : Bytes, '\\'.toUInt8 ∉ text →
      appendRewrite src p len captures text = text := by
    intro text
    induction text with
    | nil => exact fun _ => by rw [appendRewrite]
    | cons c text ih =>
      intro hno
      rw [List.mem_cons, not_or] at hno
      rw [appendRewrite_cons (Ne.symm hno.1), ih hno.2]
  apply hplain
  simp only [yamlBreaks, List.mem_cons, List.not_mem_nil, or_false] at hbreak
  rcases hbreak with rfl | rfl | rfl <;> decide

theorem replaceIn_newline (hbreak : newlines ∈ yamlBreaks) (hctx : MatchContext.LeftOver ctx)
    (hs : EndsBreak text) (n : Nat) :
    ∃ u, (replaceIn self newlinePattern newlines (text ++ List.replicate n 0x20, ctx)).1 =
      u ++ newlines ++ List.replicate n 0x20 := by
  obtain ⟨-, -, hnewline⟩ := patterns_parse
  obtain ⟨t, hparse, heq⟩ := Option.map_eq_some_iff.1 hnewline
  simp only [Prod.mk.injEq] at heq
  obtain ⟨htree, hclasses, hok⟩ := heq
  have hgroups := newline_parse
  rw [hparse, Option.map_some] at hgroups
  have ht : t.tree.WellFormed t.classes := by
    rw [htree]
    show 0x0A < captureGroup
    decide
  obtain ⟨q, hq⟩ := hs
  have hlt : q < (text ++ List.replicate n 0x20).length := by
    rw [List.length_append]
    exact Nat.lt_of_lt_of_le hq.lt (Nat.le_add_right ..)
  have hend : q + (text.length - q) = text.length := Nat.add_sub_cancel' (Nat.le_of_lt hq.lt)
  have hspaces : ∀ p, q + (text.length - q) ≤ p → p < (text ++ List.replicate n 0x20).length →
      (decodeRune (text ++ List.replicate n 0x20) p).1 ≠ newline.toNat := by
    intro p hp hlt
    rw [hend] at hp
    rw [List.length_append, List.length_replicate] at hlt
    have hget : (text ++ List.replicate n 0x20)[p]? = some 0x20 := by
      rw [List.getElem?_append_right hp, List.getElem?_replicate, if_pos (by omega)]
    have hspace : decodeRune (text ++ List.replicate n 0x20) p = (0x20, 1) := by
      rw [decodeRune, hget]
      rfl
    rw [hspace]
    decide
  obtain ⟨u, hu⟩ := globalReplace_literal hparse ht hok htree (Option.some.inj hgroups) hctx self
    (appendRewrite_newline hbreak _) hlt (decodeRune_right hq.decoded hq.lt newline_ne_bad _)
    newline_ne_bad hspaces
  refine ⟨u, ?_⟩
  rw [replaceIn, hu, hend, List.drop_left]
  rfl

end Replace

/-- A text as `block_to_string` writes it. -/
def written (text : Bytes) : Bytes := text.flatMap (piece (blockEscape false))

theorem written_append (text text' : Bytes) : written (text ++ text') = written text ++ written text' :=
  List.flatMap_append

theorem written_newline : written [newline] = writtenNewline := by decide

theorem escapeChars_written (h : escapeChars (blockEscape false) view = .ok out) :
    ∃ text, out = written text ∧ unescapeHexunicode view = .ok text := by
  unfold escapeChars at h
  cases htext : unescapeHexunicode view with
  | error e =>
    rw [htext] at h
    cases h
  | ok text =>
    rw [htext] at h
    obtain rfl := Except.ok.inj h
    exact ⟨text, escapeLoop_eq (by decide) text, rfl⟩

/-- Whether a text is line breaks alone, as `block_to_string` writes them. -/
def isBreaks : Bytes → Bool
  | [] => true
  | c :: next :: rest => c = backslash && next = 0x6E && isBreaks rest
  | [_] => false

theorem isBreaks_written (text : Bytes) : isBreaks (written text) = text.all (· = newline) := by
  induction text with
  | nil => rfl
  | cons c text ih =>
    rw [written, List.flatMap_cons, List.all_cons, ← ih, written]
    generalize text.flatMap (piece (blockEscape false)) = rest
    rcases piece_cases c with ⟨hpiece, hne⟩ | ⟨letter, hpiece, hletter, -, -⟩
    · have hc : c ≠ newline := by
        rintro rfl
        exact absurd hpiece (by decide)
      rw [hpiece, decide_eq_false hc, Bool.false_and]
      cases rest with
      | nil => rfl
      | cons d rest =>
        rw [List.singleton_append, isBreaks, decide_eq_false hne, Bool.false_and, Bool.false_and]
    · have hc : letter = 0x6E ↔ c = newline := by
        constructor
        · rintro rfl
          exact (Option.some.inj hletter).symm
        · rintro rfl
          have hnewline : piece (blockEscape false) newline = [backslash, 0x6E] := by decide
          rw [hnewline] at hpiece
          injection hpiece with _ hpiece
          injection hpiece with hpiece
          exact hpiece.symm
      rw [hpiece, List.cons_append, List.singleton_append, isBreaks, decide_eq_true rfl,
        Bool.true_and, decide_eq_decide.2 hc]

theorem lastLine_text (hlast : newline ∈ last → last = [newline])
    (h : lastLine (blockEscape false) indent chomp last = .ok out) :
    ∃ text, out = written text ∧ (chomp ≠ .strip → text.getLast? = some newline) := by
  unfold lastLine at h
  split at h
  · next hlt =>
    dsimp only at h
    split at h
    · next hhead =>
      have hmem : newline ∈ last := List.mem_of_mem_drop (List.mem_of_mem_head? hhead)
      obtain rfl := hlast hmem
      obtain rfl : indent = 0 := by simpa using hlt
      cases chomp with
      | clip => exact ⟨[newline], (Except.ok.inj h).symm, fun _ => rfl⟩
      | strip => exact ⟨[], (Except.ok.inj h).symm, fun hne => absurd rfl hne⟩
      | keep =>
        have hescape : escapeChars (blockEscape false) [newline] = .ok writtenNewline := by
          rw [escapeChars, unescape_no_backslash (by decide)]
          rfl
        have hout : out = writtenNewline ++ writtenNewline := by
          rw [List.drop_zero, hescape] at h
          exact (Except.ok.inj h).symm
        exact ⟨[newline, newline], hout, fun _ => rfl⟩
    · cases htext : escapeChars (blockEscape false) (last.drop indent) with
      | error e =>
        rw [htext] at h
        cases h
      | ok out' =>
        rw [htext] at h
        obtain rfl := Except.ok.inj h
        obtain ⟨text, rfl, -⟩ := escapeChars_written htext
        by_cases hstrip : chomp = .strip
        · refine ⟨text, ?_, fun hne => absurd hstrip hne⟩
          dsimp only
          rw [if_pos hstrip, List.append_nil]
        · refine ⟨text ++ [newline], ?_, fun _ => List.getLast?_concat⟩
          dsimp only
          rw [if_neg hstrip, written_append, written_newline]
  · by_cases hstrip : chomp = .strip
    · rw [if_pos hstrip] at h
      exact ⟨[], (Except.ok.inj h).symm, fun hne => absurd hstrip hne⟩
    · rw [if_neg hstrip] at h
      exact ⟨[newline], (Except.ok.inj h).symm, fun _ => rfl⟩

/-- The lines are written as a text that ends with a line break, unless this is stripped. -/
theorem blockLoop_text (hlines : ∀ line ∈ lines, newline ∈ line → line = [newline])
    (h : blockLoop (blockEscape false) kind indent chomp isIndented onlyEmpty lines = .ok out) :
    ∃ text, out = written text ∧ (lines = [] → text = []) ∧
      (chomp ≠ .strip → lines ≠ [] → text.getLast? = some newline) := by
  induction lines generalizing isIndented onlyEmpty out with
  | nil => exact ⟨[], (Except.ok.inj h).symm, fun _ => rfl, fun _ hne => absurd rfl hne⟩
  | cons line lines ih =>
    rw [List.forall_mem_cons] at hlines
    cases lines with
    | nil =>
      rw [blockLoop] at h
      obtain ⟨text, hout, hends⟩ := lastLine_text hlines.1 h
      refine ⟨text, hout, fun hnil => ?_, fun hne _ => hends hne⟩
      cases hnil
    | cons next rest =>
      have hrest : ∀ isIndented onlyEmpty out, blockLoop (blockEscape false) kind indent chomp
          isIndented onlyEmpty (next :: rest) = .ok out → ∃ text, out = written text ∧
            (chomp ≠ .strip → text.getLast? = some newline) := by
        intro isIndented onlyEmpty out h
        obtain ⟨text, hout, -, hends⟩ := ih hlines.2 h
        exact ⟨text, hout, fun hne => hends hne (List.cons_ne_nil _ _)⟩
      have happend : ∀ front text : Bytes, (chomp ≠ .strip → text.getLast? = some newline) →
          (line :: next :: rest = [] → front ++ text = []) ∧
            (chomp ≠ .strip → line :: next :: rest ≠ [] → (front ++ text).getLast? = some newline) := by
        intro front text hends
        refine ⟨fun hnil => ?_, fun hne _ => ?_⟩
        · cases hnil
        · rw [List.getLast?_append, hends hne]
          rfl
      rw [blockLoop] at h
      split at h
      · cases hloop : blockLoop (blockEscape false) kind indent chomp isIndented onlyEmpty
            (next :: rest) with
        | error e =>
          rw [hloop] at h
          cases h
        | ok out' =>
          rw [hloop] at h
          obtain ⟨text, rfl, hends⟩ := hrest _ _ _ hloop
          refine ⟨[newline] ++ text, ?_, happend [newline] text hends⟩
          rw [written_append, written_newline]
          exact (Except.ok.inj h).symm
      · dsimp only at h
        cases htext : escapeChars (blockEscape false) (line.drop indent) with
        | error e =>
          rw [htext] at h
          cases h
        | ok content =>
          rw [htext] at h
          obtain ⟨content, rfl, -⟩ := escapeChars_written htext
          rw [Except.bind] at h
          cases hloop : blockLoop (blockEscape false) kind indent chomp
              (isIndentedLine (line.drop indent)) false (next :: rest) with
          | error e =>
            rw [hloop] at h
            cases h
          | ok out' =>
            rw [hloop] at h
            obtain ⟨text, rfl, hends⟩ := hrest _ _ _ hloop
            obtain rfl := Except.ok.inj h
            obtain ⟨front, hfront⟩ : ∃ front, (if isIndentedLine (line.drop indent) = true ∧
                ¬ isIndented = true ∧ ¬ onlyEmpty = true ∧ kind = .folded then writtenNewline
                else []) = written front := by
              split
              · exact ⟨[newline], rfl⟩
              · exact ⟨[], rfl⟩
            obtain ⟨between, hbetween⟩ : ∃ between, lineBreak kind indent
                (isIndentedLine (line.drop indent)) next = written between := by
              unfold lineBreak
              repeat' split
              · exact ⟨[newline], rfl⟩
              · exact ⟨[newline], rfl⟩
              · exact ⟨[0x20], rfl⟩
              · exact ⟨[], rfl⟩
            refine ⟨front ++ content ++ between ++ text, ?_, happend _ text hends⟩
            rw [hfront, hbetween, written_append, written_append, written_append]

def BlockScalar.node (block : BlockScalar) : BlockNode :=
  .block block.kind block.indent block.chomp block.lines

theorem BlockScalar.text_written (block : BlockScalar) (h : blockToString false block.node = .ok out) :
    ∃ text, out = written text ∧
      (block.chomp ≠ .strip → text = [] ∨ text.getLast? = some newline) := by
  have hsub : blockLines block.indent block.chomp block.lines ⊆ block.lines := by
    unfold blockLines
    dsimp only
    split
    · exact List.filter_sublist.subset
    · exact ((List.rdropWhile_prefix _ _).sublist.trans List.filter_sublist).subset
  obtain ⟨text, hout, hnil, hends⟩ :=
    blockLoop_text (fun line hline => block.lines_apart line (hsub hline)) h
  refine ⟨text, hout, fun hne => ?_⟩
  by_cases hlines : blockLines block.indent block.chomp block.lines = []
  · exact .inl (hnil hlines)
  · exact .inr (hends hne hlines)

section Block
variable {options : WriteOptions} {ctx : MatchContext} (self : String → Nat)

theorem unescapeBlock_leftOver (kind : ScalarKind) (indent str : Bytes)
    (hctx : MatchContext.LeftOver ctx) :
    MatchContext.LeftOver (unescapeBlock self kind options indent str ctx).2 := by
  unfold unescapeBlock
  dsimp only
  repeat' split
  all_goals repeat apply replaceIn_leftOver
  all_goals exact hctx

theorem unescapeBlock_nil (kind : ScalarKind) (indent : Bytes) (hctx : MatchContext.LeftOver ctx) :
    (unescapeBlock self kind options indent [] ctx).1 = [] := by
  have hnot : ¬ (kind ≠ .literal ∧ unescapeLoop [] ≠ [] ∧
      (unescapeLoop []).all (· = newline) = true) := fun h => h.2.1 rfl
  have hnil : ¬ (kind ≠ .literal ∧ unescapeLoop [] ≠ []) := fun h => h.2 rfl
  have hkept : ∀ pattern ∈ [breaksPattern, indentPattern, newlinePattern], ∀ rewrite ctx',
      MatchContext.LeftOver ctx' → (replaceIn (self pattern) pattern rewrite ([], ctx')).1 = [] := by
    intro pattern hpattern rewrite ctx' hctx'
    exact replaceIn_unmatched hpattern _ _ (s := ([], ctx')) hctx' (List.forall_mem_nil _)
      List.not_mem_nil
  rw [unescapeBlock, if_neg hnot]
  dsimp only
  rw [if_neg hnil]
  have hindent := hkept indentPattern (by decide) ([newline] ++ indent ++ patternBytes "\\1") ctx hctx
  have hleft := replaceIn_leftOver (self indentPattern) indentPattern
    ([newline] ++ indent ++ patternBytes "\\1") (s := ([], ctx)) hctx
  rw [unescapeLoop]
  generalize replaceIn (self indentPattern) indentPattern
    ([newline] ++ indent ++ patternBytes "\\1") ([], ctx) = s at hindent hleft
  obtain ⟨text, ctx'⟩ := s
  obtain rfl : text = [] := hindent
  exact hkept newlinePattern (by decide) options.newline ctx' hleft

/-- A text of line breaks alone is written with the indentation behind it, another one ends with
its last line break. -/
theorem unescapeBlock_ends (hbreak : options.newline ∈ yamlBreaks) (hctx : MatchContext.LeftOver ctx)
    (kind : ScalarKind) (n : Nat) (htext : text.getLast? = some newline) :
    ∃ u, (unescapeBlock self kind options (List.replicate n 0x20) (written text) ctx).1 =
      u ++ options.newline ++
        List.replicate (if kind ≠ .literal ∧ text.all (· = newline) = true then n else 0) 0x20 := by
  have hne : text ≠ [] := by
    rintro rfl
    cases htext
  rw [unescapeBlock, written, unescapeLoop_pieces]
  by_cases hbreaks : kind ≠ .literal ∧ text.all (· = newline) = true
  · rw [if_pos ⟨hbreaks.1, hne, hbreaks.2⟩, if_pos hbreaks]
    exact replaceIn_newline _ hbreak hctx (endsBreak_of_getLast List.getLast?_concat) n
  · have hnot : ¬ (kind ≠ .literal ∧ text ≠ [] ∧ text.all (· = newline) = true) := by
      rintro ⟨hkind, -, hall⟩
      exact hbreaks ⟨hkind, hall⟩
    rw [if_neg hnot, if_neg hbreaks]
    have hstart : ∀ s : Bytes × MatchContext, EndsBreak s.1 → MatchContext.LeftOver s.2 →
        ∃ u, (replaceIn (self newlinePattern) newlinePattern options.newline
          (replaceIn (self indentPattern) indentPattern
            ([newline] ++ List.replicate n 0x20 ++ patternBytes "\\1") s)).1 =
          u ++ options.newline ++ List.replicate 0 0x20 := by
      intro s hs hctx'
      have hends := replaceIn_endsOff (self indentPattern) (List.mem_cons_of_mem _ (.head _)) hctx' hs
        ([newline] ++ List.replicate n 0x20 ++ patternBytes "\\1")
      have hleft := replaceIn_leftOver (self indentPattern) indentPattern
        ([newline] ++ List.replicate n 0x20 ++ patternBytes "\\1") hctx'
      obtain ⟨u, hu⟩ := replaceIn_newline (self newlinePattern) hbreak hleft hends 0
      rw [List.replicate_zero, List.append_nil] at hu
      exact ⟨u, hu⟩
    have hends := endsBreak_of_getLast htext
    dsimp only
    split
    · have hends' := replaceIn_endsOff (self breaksPattern) (.head _) (s := (text, ctx)) hctx hends
        (patternBytes "\\1\n\\2\\3")
      have hleft' := replaceIn_leftOver (self breaksPattern) breaksPattern
        (patternBytes "\\1\n\\2\\3") (s := (text, ctx)) hctx
      split
      · exact hstart _ (replaceIn_folded _ hleft' hends') (replaceIn_leftOver _ _ _ hleft')
      · exact hstart _ hends' hleft'
    · exact hstart _ hends hctx

end Block

/-- Whether `handle_tag_anchor` takes all properties and can write them. -/
def propertiesWritten (properties : List Property) : Bool :=
  match takeProperties tagText properties with
  | .ok (_, []) => true
  | _ => false

/-- The spaces behind the last line break of a block scalar: only a folded scalar of line breaks
alone has some. There are none if the text of the scalar cannot be read. -/
def BlockScalar.left (options : WriteOptions) (outer : Nat) (block : BlockScalar) : Option Nat :=
  match blockToString false block.node with
  | .error _ => none
  | .ok text =>
    if block.kind = .folded ∧ block.chomp ≠ .strip ∧ text ≠ [] ∧ isBreaks text = true then
      some (outer + options.indent)
    else some 0

mutual

/-- The spaces behind the last line break of a value, if writing does not stop in it. -/
def valueLeft (options : WriteOptions) (place : Place) (spaces : Spaces) : Node → Option Nat
  | ⟨properties, content⟩ =>
    if propertiesWritten properties then contentLeft options place spaces properties content
    else none

def contentLeft (options : WriteOptions) (place : Place) (spaces : Spaces)
    (properties : List Property) : Content → Option Nat
  | .mapping _ items => itemsLeft options spaces items
  | .sequence _ items =>
    let spaces := if isSequenceOut place properties then spaces.out else spaces
    sequenceLeft options place.inItem (spaces.into.indent 2) items
  | .plain first rest => if (blockToString false (.plain first rest)).isOk then some 0 else none
  | .quoted kind first rest => if (quoteToString kind false (first :: rest)).isOk then some 0 else none
  | .block scalar => scalar.left options spaces.outer
  | .empty | .value _ | .basic _ _ | .alias _ => some 0

def sequenceLeft (options : WriteOptions) (inItem : Bool) (spaces : Spaces) :
    List Node → Option Nat
  | [] => some 0
  | item :: items =>
    (valueLeft options (.sequence inItem) spaces item).bind fun left =>
      if items.isEmpty then some left else sequenceLeft options inItem spaces items

def itemsLeft (options : WriteOptions) (spaces : Spaces) : List MappingItem → Option Nat
  | [] => some 0
  | item :: items =>
    (itemLeft options spaces item).bind fun left =>
      if items.isEmpty then some left else itemsLeft options spaces items

def itemLeft (options : WriteOptions) (spaces : Spaces) : MappingItem → Option Nat
  | ⟨key, value⟩ =>
    if KeyValue.isComplex ⟨key, value⟩ then
      (valueLeft options (.item true) (spaces.into.indent 2) key).bind fun left =>
        if value.isNull then some left
        else valueLeft options (.item true) (spaces.into.indent 2) value
    else
      let keyWritten := match keyText options spaces key with
        | some text => text.isOk
        | none => (valueLeft ⟨[], 0, false⟩ (.item false) spaces key).isSome
      if keyWritten then
        valueLeft options (.item false) (spaces.into.indent options.indent) value
      else none

end

/-- What writing leaves: it stops, or the text ends with a line break and so many spaces. -/
inductive Leaves (options : WriteOptions) : Except Stop Output → Option Nat → Prop
  | wrote (hctx : MatchContext.LeftOver w.ctx) (hends : options.newline ∈ yamlBreaks →
      ∃ front, w.os = front ++ options.newline ++ List.replicate n 0x20) :
      Leaves options (.ok w) (some n)
  | stopped (e : Stop) : Leaves options (.error e) none

theorem Leaves.bind (h : Leaves options' result left)
    (hnext : ∀ w n, Leaves options' (.ok w) (some n) → Leaves options (f w) (g n)) :
    Leaves options (result.bind f) (left.bind g) := by
  cases h with
  | wrote hctx hends => exact hnext _ _ (.wrote hctx hends)
  | stopped e => exact .stopped e

theorem Leaves.leftOver {w : Output} (h : Leaves options (.ok w) (some n)) : MatchContext.LeftOver w.ctx := by
  cases h with
  | wrote hctx _ => exact hctx

theorem Leaves.text {w : Output} (hctx : MatchContext.LeftOver w.ctx) (text : Bytes) :
    Leaves options (.ok (w.put (text ++ options.newline))) (some 0) := by
  refine .wrote hctx fun _ => ⟨w.os ++ text, ?_⟩
  rw [List.replicate_zero, List.append_nil, Output.put, List.append_assoc]

section Values
variable (self : String → Nat) {options : WriteOptions} {w : Output}

theorem writeProperties_spec (place : Place) (spaces : Spaces) (node : Node) :
    if propertiesWritten node.properties = true then
      ∃ text, writeProperties options place spaces node w = .ok (w.put text)
    else ∃ e, writeProperties options place spaces node w = .error e := by
  unfold writeProperties propertiesWritten handleTagAnchor
  by_cases hnil : node.properties = []
  · rw [if_pos hnil, hnil]
    refine ⟨[], ?_⟩
    rw [Output.put, List.append_nil]
  · rw [if_neg hnil]
    rcases takeProperties tagText node.properties with e | ⟨⟨anchor, tag⟩, _ | ⟨property, left⟩⟩
    · exact ⟨_, rfl⟩
    · exact ⟨_, rfl⟩
    · exact ⟨_, rfl⟩

theorem plainToString_leftOver (spaces : Spaces) (inDocument : Bool) (first : PlainLine)
    (rest : List PlainLine) (hctx : MatchContext.LeftOver ctx)
    (h : plainToString self options spaces inDocument first rest ctx = .ok (text, ctx')) :
    MatchContext.LeftOver ctx' := by
  unfold plainToString at h
  cases hstr : blockToString false (.plain first rest) with
  | error e =>
    rw [hstr] at h
    cases h
  | ok str =>
    rw [hstr] at h
    have h := congrArg Prod.snd (Except.ok.inj h)
    dsimp only at h
    rw [← h]
    split
    · exact unescapeBlock_leftOver self _ _ _ hctx
    split
    · exact replaceIn_leftOver _ _ _ (unescapeBlock_leftOver self _ _ _ hctx)
    · exact unescapeBlock_leftOver self _ _ _ hctx

theorem quotedToString_leftOver (spaces : Spaces) (kind : QuoteKind) (lines : List QuoteLine)
    (hctx : MatchContext.LeftOver ctx)
    (h : quotedToString self options spaces kind lines ctx = .ok (text, ctx')) :
    MatchContext.LeftOver ctx' := by
  unfold quotedToString at h
  cases hstr : quoteToString kind false lines with
  | error e =>
    rw [hstr] at h
    cases h
  | ok str =>
    rw [hstr] at h
    have h := congrArg Prod.snd (Except.ok.inj h)
    cases kind with
    | single =>
      dsimp only at h
      rw [← h]
      exact replaceIn_leftOver _ _ _ (unescapeBlock_leftOver self _ _ _ hctx)
    | double =>
      obtain rfl : ctx = ctx' := h
      exact hctx

theorem writeText_leaves {text : Except Utf8.Exception (Bytes × MatchContext)}
    (h : ∀ out ctx, text = .ok (out, ctx) → MatchContext.LeftOver ctx) :
    Leaves options (writeText options w text) (if text.isOk then some 0 else none) := by
  rcases text with e | ⟨out, ctx⟩
  · exact .stopped _
  · exact Leaves.text (w := { w with ctx }) (h out ctx rfl) out

theorem BlockScalar.left_eq (block : BlockScalar)
    (h : blockToString false block.node = .ok (written text)) : block.left options outer = some
      (if block.kind = .folded ∧ block.chomp ≠ .strip ∧ text ≠ [] ∧ text.all (· = newline) = true
        then outer + options.indent else 0) := by
  have hnil : written text ≠ [] ↔ text ≠ [] := by
    rw [not_iff_not]
    constructor
    · intro hwritten
      have hloop := unescapeLoop_pieces text
      rw [written] at hwritten
      rw [hwritten] at hloop
      exact hloop.symm
    · rintro rfl
      rfl
  unfold BlockScalar.left
  rw [h]
  dsimp only
  simp only [isBreaks_written, hnil]
  split <;> rfl

theorem writeBlock_leaves (inItem : Bool) (spaces : Spaces) (block : BlockScalar)
    (hctx : MatchContext.LeftOver w.ctx) :
    Leaves options (writeBlock self options inItem spaces block w)
      (block.left options spaces.outer) := by
  unfold writeBlock
  cases hout : blockToString false block.node with
  | error e =>
    have hleft : block.left options spaces.outer = none := by
      rw [BlockScalar.left, hout]
    rw [BlockScalar.node] at hout
    rw [hout, hleft]
    exact .stopped _
  | ok out =>
    obtain ⟨text, rfl, hends⟩ := block.text_written hout
    rw [block.left_eq hout]
    rw [BlockScalar.node] at hout
    rw [hout]
    have hindent : (spaces.out.indent options.indent).innerStr =
        List.replicate (spaces.outer + options.indent) 0x20 := rfl
    dsimp only
    rw [hindent]
    generalize hkind : (if block.kind = .folded then ScalarKind.folded else .literal) = kind
    have hliteral : kind ≠ .literal ↔ block.kind = .folded := by
      rw [← hkind]
      split
      · next hfolded => exact iff_of_true (by decide) hfolded
      · next hfolded => exact iff_of_false (fun h => h rfl) hfolded
    have hleft := @unescapeBlock_leftOver options _ self kind
      (List.replicate (spaces.outer + options.indent) 0x20) (written text) hctx
    have hstr : options.newline ∈ yamlBreaks → block.chomp ≠ .strip → text ≠ [] →
        ∃ u, (unescapeBlock self kind options (List.replicate (spaces.outer + options.indent) 0x20)
          (written text) w.ctx).1 = u ++ options.newline ++ List.replicate
            (if block.kind = .folded ∧ block.chomp ≠ .strip ∧ text ≠ [] ∧
              text.all (· = newline) = true then spaces.outer + options.indent else 0) 0x20 := by
      intro hbreak hchomp hne
      obtain ⟨u, hu⟩ := unescapeBlock_ends self hbreak hctx kind (spaces.outer + options.indent)
        ((hends hchomp).resolve_left hne)
      refine ⟨u, hu.trans ?_⟩
      simp only [hliteral, hchomp, hne, ne_eq, not_false_eq_true, true_and]
    have hnil : text = [] → (unescapeBlock self kind options
        (List.replicate (spaces.outer + options.indent) 0x20) (written text) w.ctx).1 = [] := by
      rintro rfl
      exact unescapeBlock_nil self kind _ hctx
    generalize unescapeBlock self kind options (List.replicate (spaces.outer + options.indent) 0x20)
      (written text) w.ctx = result at hleft hstr hnil
    obtain ⟨str, ctx⟩ := result
    dsimp only at hleft hstr hnil ⊢
    by_cases hempty : str = []
    · rw [if_pos hempty]
      refine .wrote hleft fun hbreak => ?_
      rw [if_neg]
      · refine ⟨w.os ++ patternBytes "\"\"", ?_⟩
        rw [List.replicate_zero, List.append_nil, Output.put, List.append_assoc]
      · rintro ⟨-, hchomp, hne, -⟩
        obtain ⟨u, hu⟩ := hstr hbreak hchomp hne
        rw [hempty] at hu
        have hnil := List.append_eq_nil_iff.1 (List.append_eq_nil_iff.1 hu.symm).1
        rw [hnil.2] at hbreak
        exact absurd hbreak (by decide)
    rw [if_neg hempty]
    have hput : ∀ (c : Prop) [Decidable c] (v : Output) (text : Bytes),
        MatchContext.LeftOver v.ctx → MatchContext.LeftOver (if c then v else v.put text).ctx := by
      intro c _ v text hv
      split <;> exact hv
    generalize hbase : (if options.newline <+: str then _ else _ : Output) = base
    have hctx' : MatchContext.LeftOver base.ctx := by
      rw [← hbase]
      apply hput
      exact hleft
    by_cases hchomp : block.chomp = .strip
    · rw [if_pos hchomp, if_neg fun h => h.2.1 hchomp]
      refine .wrote hctx' fun _ => ⟨base.os ++ str, ?_⟩
      rw [List.replicate_zero, List.append_nil]
      rfl
    · rw [if_neg hchomp]
      refine .wrote hctx' fun hbreak => ?_
      obtain ⟨u, hu⟩ := hstr hbreak hchomp fun hne => hempty (hnil hne)
      refine ⟨base.os ++ u, ?_⟩
      rw [Output.put, List.append_assoc, List.append_assoc, ← List.append_assoc u]
      exact congrArg (base.os ++ ·) hu

theorem isOk_map (result : Except ε α) (f : α → β) : (result.map f).isOk = result.isOk := by
  cases result <;> rfl

mutual

theorem writeValue_leaves (options : WriteOptions) (place : Place) (spaces : Spaces) :
    ∀ (node : Node) (w : Output), MatchContext.LeftOver w.ctx →
      Leaves options (writeValue self options place spaces node w)
        (valueLeft options place spaces node)
  | ⟨properties, content⟩, w, hctx => by
    rw [writeValue, valueLeft]
    have hspec := @writeProperties_spec options w place spaces ⟨properties, content⟩
    cases hwritten : propertiesWritten properties with
    | false =>
      rw [if_neg (by rw [hwritten]; exact Bool.false_ne_true)] at hspec
      obtain ⟨e, he⟩ := hspec
      rw [he]
      exact .stopped e
    | true =>
      rw [if_pos hwritten] at hspec
      obtain ⟨text, htext⟩ := hspec
      rw [htext]
      exact writeContent_leaves options place spaces properties content (w.put text) hctx

theorem writeContent_leaves (options : WriteOptions) (place : Place) (spaces : Spaces)
    (properties : List Property) : ∀ (content : Content) (w : Output),
      MatchContext.LeftOver w.ctx →
      Leaves options (writeContent self options place spaces properties content w)
        (contentLeft options place spaces properties content)
  | .mapping _ items, w, hctx => by
    rw [writeContent, contentLeft]
    cases items with
    | nil => exact Leaves.text hctx _
    | cons item items =>
      exact writeItems_leaves options spaces (item :: items) false w hctx (List.cons_ne_nil _ _)
  | .sequence _ items, w, hctx => by
    rw [writeContent, contentLeft]
    cases items with
    | nil => exact Leaves.text hctx _
    | cons item items =>
      exact writeSequence_leaves options place.inItem _ (item :: items) false w hctx
        (List.cons_ne_nil _ _)
  | .empty, w, hctx => by
    rw [writeContent, contentLeft]
    exact Leaves.text hctx []
  | .value view, w, hctx => by
    rw [writeContent, contentLeft]
    exact Leaves.text hctx _
  | .basic kind view, w, hctx => by
    rw [writeContent, contentLeft]
    exact Leaves.text hctx _
  | .alias name, w, hctx => by
    rw [writeContent, contentLeft]
    exact Leaves.text hctx _
  | .plain first rest, w, hctx => by
    rw [writeContent, contentLeft]
    have hok : (plainToString self options spaces (decide (place = .document ∧ properties = []))
        first rest w.ctx).isOk = (blockToString false (.plain first rest)).isOk := isOk_map _ _
    rw [← hok]
    exact writeText_leaves fun out ctx h => plainToString_leftOver self spaces _ first rest hctx h
  | .quoted kind first rest, w, hctx => by
    rw [writeContent, contentLeft]
    have hok : (quotedToString self options spaces kind (first :: rest) w.ctx).isOk =
        (quoteToString kind false (first :: rest)).isOk := isOk_map _ _
    rw [← hok]
    exact writeText_leaves fun out ctx h => quotedToString_leftOver self spaces kind _ hctx h
  | .block scalar, w, hctx => by
    rw [writeContent, contentLeft]
    exact writeBlock_leaves self place.inItem (spaces.indent options.indent) scalar hctx

theorem writeSequence_leaves (options : WriteOptions) (inItem : Bool) (spaces : Spaces) :
    ∀ (items : List Node) (notFirst : Bool) (w : Output), MatchContext.LeftOver w.ctx →
      items ≠ [] → Leaves options (writeSequence self options inItem spaces notFirst items w)
        (sequenceLeft options inItem spaces items)
  | [], _, _, _, hne => absurd rfl hne
  | item :: items, notFirst, w, hctx, _ => by
    rw [writeSequence, sequenceLeft]
    refine Leaves.bind (writeValue_leaves options (.sequence inItem) spaces item _ hctx) ?_
    intro w' n h
    cases items with
    | nil => exact h
    | cons next rest =>
      exact writeSequence_leaves options inItem spaces (next :: rest) true w' h.leftOver
        (List.cons_ne_nil _ _)

theorem writeItems_leaves (options : WriteOptions) (spaces : Spaces) :
    ∀ (items : List MappingItem) (notFirst : Bool) (w : Output), MatchContext.LeftOver w.ctx →
      items ≠ [] → Leaves options (writeItems self options spaces notFirst items w)
        (itemsLeft options spaces items)
  | [], _, _, _, hne => absurd rfl hne
  | item :: items, notFirst, w, hctx, _ => by
    rw [writeItems, itemsLeft]
    refine Leaves.bind (writeItem_leaves options spaces item _ hctx) ?_
    intro w' n h
    cases items with
    | nil => exact h
    | cons next rest =>
      exact writeItems_leaves options spaces (next :: rest) _ w' h.leftOver (List.cons_ne_nil _ _)

theorem writeItem_leaves (options : WriteOptions) (spaces : Spaces) :
    ∀ (item : MappingItem) (w : Output), MatchContext.LeftOver w.ctx →
      Leaves options (writeItem self options spaces item w) (itemLeft options spaces item)
  | ⟨key, value⟩, w, hctx => by
    rw [writeItem, itemLeft]
    cases hcomplex : KeyValue.isComplex ⟨key, value⟩ with
    | true =>
      rw [if_pos rfl, if_pos rfl]
      refine Leaves.bind (writeValue_leaves options (.item true) _ key _ hctx) ?_
      intro w' n h
      cases value.isNull with
      | true => exact h
      | false => exact writeValue_leaves options (.item true) _ value _ h.leftOver
    | false =>
      rw [if_neg Bool.false_ne_true, if_neg Bool.false_ne_true]
      have hvalue := writeValue_leaves options (.item false) (spaces.into.indent options.indent) value
      dsimp only
      rcases keyText options spaces key with _ | e | text
      · have hkey := writeValue_leaves ⟨[], 0, false⟩ (.item false) spaces key w hctx
        dsimp only
        generalize writeValue self ⟨[], 0, false⟩ (.item false) spaces key w = result at hkey
        generalize valueLeft ⟨[], 0, false⟩ (.item false) spaces key = left at hkey
        cases hkey with
        | wrote hctx _ => exact hvalue _ hctx
        | stopped e => exact .stopped e
      · exact .stopped _
      · exact hvalue _ hctx

end

theorem writeContent_mapping (options : WriteOptions) (place : Place) (spaces : Spaces)
    (properties : List Property) (items : List MappingItem) (w : Output) :
    writeContent self options place spaces properties (.mapping flow items) w =
      writeMapping self options spaces items w := by
  rw [writeContent, writeMapping]

/-- The items are all written, and each after the first starts on a line of its own, behind the
inner spaces. -/
structure ItemsPlaced (options : WriteOptions) (spaces : Spaces) (notFirst : Bool)
    (items : List MappingItem) (w : Output) : Prop where
  all : ∃ w', writeItems self options spaces notFirst items w = .ok w'
  starts : ∀ k, 0 < k → k < items.length →
    ∃ w' front, writeItems self options spaces notFirst (items.take k) w = .ok w' ∧
      w'.os ++ (if notFirst || (items.take k).any (!·.isComplex) then spaces.innerStr else []) =
        front ++ options.newline ++ spaces.innerStr

/-- Nothing stops the writing, and behind each item but the last, the spaces on its last line and
the inner spaces, which are only written once an item had no question mark, are the inner ones. -/
def InColumn (options : WriteOptions) (spaces : Spaces) : Bool → List MappingItem → Prop
  | _, [] => True
  | _, [item] => (itemLeft options spaces item).isSome
  | notFirst, item :: next :: items =>
    (∃ left, itemLeft options spaces item = some left ∧
      left + (if notFirst || !item.isComplex then spaces.inner else 0) = spaces.inner) ∧
    InColumn options spaces (notFirst || !item.isComplex) (next :: items)

theorem spaces_behind_break (hbreak : newlines ∈ yamlBreaks) (front : Bytes) (n : Nat) :
    ((front ++ newlines ++ List.replicate n 0x20).rtakeWhile (· = 0x20)).length = n := by
  induction n with
  | zero =>
    rw [List.replicate_zero, List.append_nil]
    simp only [yamlBreaks, List.mem_cons, List.not_mem_nil, or_false] at hbreak
    have hpair : front ++ [carriageReturn, newline] = front ++ [carriageReturn] ++ [newline] := by
      rw [List.append_assoc]
      rfl
    rcases hbreak with rfl | rfl | rfl
    · rw [List.rtakeWhile_concat_neg _ _ _ (by decide)]
      rfl
    · rw [List.rtakeWhile_concat_neg _ _ _ (by decide)]
      rfl
    · rw [hpair, List.rtakeWhile_concat_neg _ _ _ (by decide)]
      rfl
  | succ n ih =>
    rw [List.replicate_succ', ← List.append_assoc, List.rtakeWhile_concat_pos _ _ _ (by decide),
      List.length_append, ih, List.length_singleton]

theorem starts_iff (hbreak : options.newline ∈ yamlBreaks) (spaces : Spaces) (write : Bool)
    (front : Bytes) (left : Nat) :
    (∃ front', front ++ options.newline ++ List.replicate left 0x20 ++
        (if write then spaces.innerStr else []) = front' ++ options.newline ++ spaces.innerStr) ↔
      left + (if write then spaces.inner else 0) = spaces.inner := by
  have hwrite : (if write then spaces.innerStr else []) =
      List.replicate (if write then spaces.inner else 0) 0x20 := by
    cases write <;> rfl
  rw [hwrite, List.append_assoc, List.replicate_append_replicate]
  constructor
  · rintro ⟨front', hfront⟩
    have hlength := congrArg (fun text => (List.rtakeWhile (· = 0x20) text).length) hfront
    dsimp only [Spaces.innerStr] at hlength
    rw [spaces_behind_break hbreak, spaces_behind_break hbreak] at hlength
    exact hlength
  · intro hcolumn
    exact ⟨front, by rw [hcolumn]; rfl⟩

theorem ItemsPlaced.one (options : WriteOptions) (spaces : Spaces) (notFirst : Bool)
    (item : MappingItem) (w : Output) :
    ItemsPlaced self options spaces notFirst [item] w ↔
      ∃ w', writeItem self options spaces item
        (w.put (if notFirst then spaces.innerStr else [])) = .ok w' := by
  constructor
  · rintro ⟨⟨w', hall⟩, -⟩
    rw [writeItems] at hall
    cases hitem : writeItem self options spaces item
        (w.put (if notFirst = true then spaces.innerStr else [])) with
    | error e =>
      rw [hitem] at hall
      cases hall
    | ok w₁ => exact ⟨w₁, rfl⟩
  · rintro ⟨w', hitem⟩
    refine ⟨⟨w', ?_⟩, fun k hpos hlt => absurd hlt (Nat.not_lt.2 hpos)⟩
    rw [writeItems, hitem]
    rfl

/-- The first item is written, the second starts where it should, and so it goes on from there. -/
theorem ItemsPlaced.cons (options : WriteOptions) (spaces : Spaces) (notFirst : Bool)
    (item next : MappingItem) (items : List MappingItem) (w : Output) :
    ItemsPlaced self options spaces notFirst (item :: next :: items) w ↔
      ∃ w', writeItem self options spaces item
          (w.put (if notFirst then spaces.innerStr else [])) = .ok w' ∧
        (∃ front, w'.os ++ (if notFirst || !item.isComplex then spaces.innerStr else []) =
          front ++ options.newline ++ spaces.innerStr) ∧
        ItemsPlaced self options spaces (notFirst || !item.isComplex) (next :: items) w' := by
  cases hitem : writeItem self options spaces item
      (w.put (if notFirst = true then spaces.innerStr else [])) with
  | error e =>
    constructor
    · rintro ⟨⟨w', hall⟩, -⟩
      rw [writeItems, hitem] at hall
      cases hall
    · rintro ⟨w', hw', -⟩
      cases hw'
  | ok w₁ =>
    have hcons : ∀ rest, writeItems self options spaces notFirst (item :: rest) w =
        writeItems self options spaces (notFirst || !item.isComplex) rest w₁ := fun rest => by
      rw [writeItems, hitem]
      rfl
    have hany : ∀ rest : List MappingItem,
        (notFirst || (item :: rest).any (!·.isComplex)) =
          (notFirst || !item.isComplex || rest.any (!·.isComplex)) := fun rest => by
      rw [List.any_cons, Bool.or_assoc]
    constructor
    · rintro ⟨hall, hstarts⟩
      refine ⟨w₁, rfl, ?_, ?_, ?_⟩
      · obtain ⟨w', front, hw', hfront⟩ := hstarts 1 Nat.one_pos (by simp)
        rw [List.take_succ_cons, List.take_zero, hcons, writeItems] at hw'
        cases hw'
        rw [List.take_succ_cons, List.take_zero, hany, List.any_nil, Bool.or_false] at hfront
        exact ⟨front, hfront⟩
      · simpa only [hcons] using hall
      · intro k hpos hlt
        have hnext := hstarts (k + 1) k.succ_pos (Nat.succ_lt_succ hlt)
        simpa only [List.take_succ_cons, hcons, hany] using hnext
    · rintro ⟨w', hw', hfirst, hall, hstarts⟩
      cases hw'
      refine ⟨by simpa only [hcons] using hall, ?_⟩
      rintro (_ | _ | k) hpos hlt
      · exact absurd hpos (Nat.lt_irrefl 0)
      · obtain ⟨front, hfront⟩ := hfirst
        refine ⟨w₁, front, ?_, ?_⟩
        · rw [List.take_succ_cons, List.take_zero, hcons, writeItems]
        · rw [List.take_succ_cons, List.take_zero, hany, List.any_nil, Bool.or_false, hfront]
      · have hnext := hstarts (k + 1) k.succ_pos (Nat.lt_of_succ_lt_succ hlt)
        rw [show (item :: next :: items).take (k + 1 + 1) = item :: (next :: items).take (k + 1) from rfl,
          hcons, hany]
        exact hnext

/-- A mapping is written to its end with every item in the mapping's column, exactly when nothing
stops the writing and no item leaves the next one elsewhere. -/
theorem mapping_columns (options : WriteOptions) (spaces : Spaces) (notFirst : Bool)
    (items : List MappingItem) (w : Output) (hbreak : options.newline ∈ yamlBreaks)
    (hctx : MatchContext.LeftOver w.ctx) :
    ItemsPlaced self options spaces notFirst items w ↔ InColumn options spaces notFirst items := by
  induction items generalizing notFirst w with
  | nil =>
    refine iff_of_true ⟨⟨w, by rw [writeItems]⟩, fun k hpos hlt => ?_⟩ trivial
    exact absurd hlt (Nat.not_lt_zero k)
  | cons item items ih =>
    have hitem := writeItem_leaves self options spaces item
      (w.put (if notFirst then spaces.innerStr else [])) hctx
    cases items with
    | nil =>
      rw [ItemsPlaced.one, InColumn]
      cases hitem' : writeItem self options spaces item
          (w.put (if notFirst = true then spaces.innerStr else [])) with
      | error e =>
        rw [hitem'] at hitem
        generalize itemLeft options spaces item = left at hitem ⊢
        cases hitem
        exact iff_of_false (fun ⟨w', hw'⟩ => by cases hw') (by decide)
      | ok w₁ =>
        rw [hitem'] at hitem
        generalize itemLeft options spaces item = left at hitem ⊢
        cases hitem
        exact iff_of_true ⟨w₁, rfl⟩ rfl
    | cons next items =>
      rw [ItemsPlaced.cons, InColumn]
      generalize writeItem self options spaces item
        (w.put (if notFirst = true then spaces.innerStr else [])) = result at hitem
      generalize itemLeft options spaces item = left at hitem
      cases hitem with
      | stopped e =>
        exact iff_of_false (fun ⟨w', hw', _⟩ => by cases hw') (fun ⟨⟨n, hn, _⟩, _⟩ => by cases hn)
      | @wrote n w₁ hctx' hends =>
        obtain ⟨front, hfront⟩ := hends hbreak
        have hstarts := starts_iff hbreak spaces (notFirst || !item.isComplex) front n
        rw [← hfront] at hstarts
        constructor
        · rintro ⟨w', hw', hfirst, hrest⟩
          cases hw'
          exact ⟨⟨n, rfl, hstarts.1 hfirst⟩, (ih _ _ hctx').1 hrest⟩
        · rintro ⟨⟨left, hleft, hcolumn⟩, hrest⟩
          cases hleft
          exact ⟨w₁, rfl, hstarts.2 hcolumn, (ih _ _ hctx').2 hrest⟩

theorem mapping_columns_complex : ¬ ItemsPlaced (fun _ => 0) ⟨[newline], 2, false⟩ ⟨0, 2⟩ false
    [⟨⟨[], .sequence false [⟨[], .value (patternBytes "a")⟩]⟩, ⟨[], .value (patternBytes "b")⟩⟩,
      ⟨⟨[], .value (patternBytes "c")⟩, ⟨[], .value (patternBytes "d")⟩⟩] ⟨[], {}, false⟩ := by
  rw [mapping_columns _ _ _ _ _ _ (by decide) .fresh]
  rintro ⟨⟨left, hleft, hcolumn⟩, -⟩
  cases hleft
  cases hcolumn

end Values

end Trieste.Yaml
