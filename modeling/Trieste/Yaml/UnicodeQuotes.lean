import Trieste.Json.EscapedText
import Trieste.Yaml.LastBackslash
import Trieste.Yaml.Writer

namespace Trieste.Yaml
set_option autoImplicit true
open Utf8 Json Library
open Regex hiding backslash

def yamlBreaks : List Bytes := [[newline], [carriageReturn], [carriageReturn, newline]]

def HasBreak (s : Text) : Prop := ∃ b ∈ s, b = newline ∨ b = carriageReturn

/-- Every match of the pattern has a line break. -/
structure DemandsBreak (pattern : String) (t : PatternTree) : Prop where
  parse : PatternTree.parse (fun _ => none) (patternBytes pattern) = some t
  wellFormed : t.tree.WellFormed t.classes
  ok : t.engine.ok = true
  demands : t.tree.demands newline.toNat = true

def breaksTree : Regexp :=
  .cat (.cat (.capture 0 (.classRef 0)) (.capture 1 (.oneOrMore false (.literal 0x0A))))
    (.capture 2 (.classRef 1))

def indentTree : Regexp := .cat (.literal 0x0A) (.capture 0 (.classRef 0))

theorem patterns_parse :
    ((PatternTree.parse (fun _ => none) (patternBytes breaksPattern)).map fun t =>
      (t.tree, t.classes.length, t.engine.ok)) = some (breaksTree, 2, true) ∧
    ((PatternTree.parse (fun _ => none) (patternBytes indentPattern)).map fun t =>
      (t.tree, t.classes.length, t.engine.ok)) = some (indentTree, 1, true) ∧
    ((PatternTree.parse (fun _ => none) (patternBytes newlinePattern)).map fun t =>
      (t.tree, t.classes.length, t.engine.ok)) = some (.literal 0x0A, 0, true) := by
  refine ⟨?_, ?_, ?_⟩
  all_goals decide +kernel

theorem demandsBreak_of_parse {tree : Regexp} {n : Nat}
    (h : ((PatternTree.parse (fun _ => none) (patternBytes pattern)).map fun t =>
      (t.tree, t.classes.length, t.engine.ok)) = some (tree, n, true))
    (hwell : ∀ classes : List RuneClass, classes.length = n → tree.WellFormed classes)
    (hdemands : tree.demands newline.toNat = true) : ∃ t, DemandsBreak pattern t := by
  obtain ⟨t, ht, heq⟩ := Option.map_eq_some_iff.1 h
  rw [Prod.mk.injEq, Prod.mk.injEq] at heq
  obtain ⟨rfl, rfl, hok⟩ := heq
  exact ⟨t, ht, hwell t.classes rfl, hok, hdemands⟩

theorem demandsBreak : ∀ pattern ∈ [breaksPattern, indentPattern, newlinePattern],
    ∃ t, DemandsBreak pattern t := by
  obtain ⟨hbreaks, hindent, hnewline⟩ := patterns_parse
  rw [List.forall_mem_cons, List.forall_mem_cons, List.forall_mem_singleton]
  refine ⟨demandsBreak_of_parse hbreaks ?_ rfl, demandsBreak_of_parse hindent ?_ rfl,
    demandsBreak_of_parse hnewline ?_ rfl⟩
  all_goals intro classes hlength
  all_goals simp only [breaksTree, indentTree, Regexp.WellFormed, hlength]
  all_goals decide

theorem replaceIn_leftOver (self : Nat) (pattern : String) (rewrite : Bytes)
    {s : Bytes × MatchContext} (hctx : MatchContext.LeftOver s.2) :
    MatchContext.LeftOver (replaceIn self pattern rewrite s).2 :=
  globalReplace_leftOver _ self hctx _ _ rewrite

theorem replaceIn_unmatched (hpattern : pattern ∈ [breaksPattern, indentPattern, newlinePattern])
    (self : Nat) (rewrite : Bytes) {s : Bytes × MatchContext} (hctx : MatchContext.LeftOver s.2)
    (hascii : ∀ b ∈ s.1, b.toNat < 0x80) (hno : newline ∉ s.1) :
    (replaceIn self pattern rewrite s).1 = s.1 := by
  obtain ⟨t, ht⟩ := demandsBreak pattern hpattern
  have htext : ∀ p, newline.toNat ∉ runes (s.1.drop p) := by
    intro p hmem
    rw [runes_ascii fun b hb => hascii b (List.mem_of_mem_drop hb)] at hmem
    obtain ⟨b, hb, hvalue⟩ := List.mem_map.1 hmem
    rw [UInt8.toNat_inj.1 hvalue] at hb
    exact hno (List.mem_of_mem_drop hb)
  rw [replaceIn, globalReplace_unmatched ht.parse ht.wellFormed ht.ok ht.demands hctx self rewrite
    htext]
  rfl

theorem replaceIn_hasBreak (self : Nat) (pattern : String) {s : Bytes × MatchContext}
    (hctx : MatchContext.LeftOver s.2) (hs : HasBreak s.1)
    (hrewrite : ∀ p len captures, HasBreak (appendRewrite s.1 p len captures rewrite)) :
    HasBreak (replaceIn self pattern rewrite s).1 := by
  obtain ⟨result, hresult, hbreak⟩ :=
    globalReplace_has (fun _ => none) self hctx (patternBytes pattern) hs hrewrite
  rw [replaceIn, hresult]
  exact hbreak

theorem appendRewrite_cons (h : c ≠ '\\'.toUInt8) (src : Bytes) (p len : Nat)
    (captures : List Capture) (rest : Bytes) : appendRewrite src p len captures (c :: rest) =
      c :: appendRewrite src p len captures rest := by
  cases rest with
  | nil => rw [appendRewrite, appendRewrite]
  | cons next rest => rw [appendRewrite, if_neg h]

theorem hasBreak_newline {options : WriteOptions} (hbreak : options.newline ∈ yamlBreaks) (src : Bytes)
    (p len : Nat) (captures : List Capture) :
    HasBreak (appendRewrite src p len captures options.newline) := by
  simp only [yamlBreaks, List.mem_cons, List.not_mem_nil, or_false] at hbreak
  rcases hbreak with heq | heq | heq
  · rw [heq, appendRewrite_cons (by decide)]
    exact ⟨newline, .head _, .inl rfl⟩
  · rw [heq, appendRewrite_cons (by decide)]
    exact ⟨carriageReturn, .head _, .inr rfl⟩
  · rw [heq, appendRewrite_cons (by decide)]
    exact ⟨carriageReturn, .head _, .inr rfl⟩

theorem hasBreak_breaks (src : Bytes) (p len : Nat) (captures : List Capture) :
    HasBreak (appendRewrite src p len captures (patternBytes "\\1\n\\2\\3")) := by
  have hbytes : patternBytes "\\1\n\\2\\3" =
      '\\'.toUInt8 :: 0x31 :: newline :: patternBytes "\\2\\3" := by decide +kernel
  have hindex : referenceIndex 0 (0x31 :: newline :: patternBytes "\\2\\3") =
      (1, newline :: patternBytes "\\2\\3") := rfl
  rw [hbytes, appendRewrite, if_pos rfl, if_pos (by decide), hindex,
    appendRewrite_cons (by decide)]
  exact ⟨newline, List.mem_append_right _ (.head _), .inl rfl⟩

theorem unescapeLoop_cons (h : c ≠ backslash) (rest : Bytes) :
    unescapeLoop (c :: rest) = c :: unescapeLoop rest := by
  cases rest with
  | nil => rfl
  | cons next rest => rw [unescapeLoop, if_neg h]

theorem unescapeLoop_append (h : backslash ∉ front) (rest : Bytes) :
    unescapeLoop (front ++ rest) = front ++ unescapeLoop rest := by
  induction front with
  | nil => rfl
  | cons c front ih =>
    rw [List.mem_cons, not_or] at h
    rw [List.cons_append, unescapeLoop_cons (Ne.symm h.1), ih h.2, List.cons_append]

theorem piece_cases (c : UInt8) :
    (piece (blockEscape false) c = [c] ∧ c ≠ backslash) ∨
      ∃ letter, piece (blockEscape false) c = [backslash, letter] ∧
        unescapedLetter letter = some c ∧ letter.toNat < 0x80 ∧ c.toNat < 0x80 := by
  by_cases hmem : c ∈ blockEscape false
  · right
    have hcases : c = backslash ∨ c = newline ∨ c = carriageReturn ∨ c = tab ∨ c = quote := by
      simpa [blockEscape] using hmem
    rcases hcases with rfl | rfl | rfl | rfl | rfl
    · exact ⟨backslash, by decide⟩
    · exact ⟨0x6E, by decide⟩
    · exact ⟨0x72, by decide⟩
    · exact ⟨0x74, by decide⟩
    · exact ⟨quote, by decide⟩
  · left
    have hne : c ≠ backslash := by
      rintro rfl
      exact hmem (by decide)
    refine ⟨?_, hne⟩
    rw [piece, if_neg hmem]
    split
    · next hspace =>
      have hcases : c = 0x20 ∨ c = tab ∨ c = carriageReturn ∨ c = newline := by
        simpa [isSpaceChar, or_assoc] using hspace
      rcases hcases with rfl | rfl | rfl | rfl
      · rfl
      all_goals exact absurd (by decide) hmem
    · rfl

theorem unescapeLoop_piece (c : UInt8) (rest : Bytes) :
    unescapeLoop (piece (blockEscape false) c ++ rest) = c :: unescapeLoop rest := by
  rcases piece_cases c with ⟨hpiece, hne⟩ | ⟨letter, hpiece, hletter, -, -⟩
  · rw [hpiece]
    exact unescapeLoop_cons hne rest
  · rw [hpiece, List.cons_append, List.cons_append, unescapeLoop, if_pos rfl, hletter]
    rfl

theorem unescapeLoop_pieces (text : Text) :
    unescapeLoop (text.flatMap (piece (blockEscape false))) = text := by
  induction text with
  | nil => rfl
  | cons c text ih => rw [List.flatMap_cons, unescapeLoop_piece, ih]

def pieceRunes (t : Nat) : List Nat :=
  if 0x7F < t then [t] else (piece (blockEscape false) (.ofNat t)).map UInt8.toNat

theorem piece_ascii (h : c.toNat < 0x80) :
    ∀ b ∈ piece (blockEscape false) c, b.toNat < 0x80 := by
  rcases piece_cases c with ⟨hpiece, -⟩ | ⟨letter, hpiece, -, hletter, -⟩
  · rw [hpiece]
    exact List.forall_mem_singleton.2 h
  · rw [hpiece, List.forall_mem_cons, List.forall_mem_singleton]
    exact ⟨by decide, hletter⟩

theorem piece_high (h : 0x80 ≤ c.toNat) : piece (blockEscape false) c = [c] := by
  rcases piece_cases c with ⟨hpiece, -⟩ | ⟨letter, -, -, -, hlow⟩
  · exact hpiece
  · exact absurd h (Nat.not_le.2 hlow)

theorem pieces_high {text : Text} (h : ∀ b ∈ text, 0x80 ≤ b.toNat) :
    text.flatMap (piece (blockEscape false)) = text := by
  induction text with
  | nil => rfl
  | cons c text ih =>
    rw [List.forall_mem_cons] at h
    rw [List.flatMap_cons, piece_high h.1, ih h.2]
    rfl

theorem sequences_ascii (h : ∀ b ∈ text, b.toNat < 0x80) :
    Sequences text (text.map UInt8.toNat) := by
  induction text with
  | nil => exact .nil
  | cons c text ih =>
    rw [List.forall_mem_cons] at h
    have hwrite : writeRune c.toNat = [c] := by
      rw [writeRune_ascii (Nat.le_of_lt_succ h.1), UInt8.ofNat_toNat]
    have hrune := Sequences.rune (Nat.le_of_lt (Nat.lt_trans h.1 (by decide))) (ih h.2)
    rwa [hwrite] at hrune

theorem sequences_pieces (h : Sequences text ts) :
    Sequences (text.flatMap (piece (blockEscape false))) (ts.flatMap pieceRunes) := by
  induction h with
  | nil => exact .nil
  | @rune value s ts hvalue rest ih =>
    rw [List.flatMap_append, List.flatMap_cons, pieceRunes]
    split
    · next hhigh =>
      have hbytes : ∀ b ∈ writeRune value, 0x80 ≤ b.toNat := fun b hb =>
        UInt8.le_iff_toNat_le.1 (writeRune_high (Nat.not_le.2 hhigh) b hb)
      rw [pieces_high hbytes]
      exact .rune hvalue ih
    · next hlow =>
      have hascii : (UInt8.ofNat value).toNat < 0x80 := by
        rw [toNat_low hlow]
        exact Nat.lt_succ_of_le (Nat.le_of_not_lt hlow)
      rw [writeRune_ascii (Nat.le_of_not_lt hlow), List.flatMap_singleton]
      exact (sequences_ascii (piece_ascii hascii)).append ih
  | @stray c s ts hc rest ih =>
    have hhigh : ∀ c, isContinuation c = true → 0x80 ≤ c.toNat := forall_byte (by decide +kernel)
    rw [List.flatMap_cons, List.flatMap_cons, piece_high (hhigh c hc)]
    exact .stray hc ih

theorem unescapeLoop_unicode (h : Sequences text ts) :
    unescapeLoop (Utf8.escapeUnicode (text.flatMap (piece (blockEscape false)))) =
      ts.flatMap unicodeText := by
  rw [(sequences_pieces h).escapeUnicode, List.flatMap_assoc]
  clear h
  induction ts with
  | nil => rfl
  | cons t ts ih =>
    rw [List.flatMap_cons, List.flatMap_cons, pieceRunes]
    split
    · next hhigh =>
      obtain ⟨form, rest, htail⟩ : ∃ form rest, unicodeTail t = form :: rest := ⟨_, _, rfl⟩
      have hplain := unicodeTail_plain t
      rw [htail, List.forall_mem_cons] at hplain
      have hform : unescapedLetter form = none := by
        have hcase : form = (unicodeForm t).1 := (List.cons.inj htail).1.symm
        rcases unicodeForm_cases t with hu | hU
        · rw [hcase, hu]
          rfl
        · rw [hcase, hU]
          rfl
      have hno : backslash ∉ rest := fun hmem => (hplain.2 _ hmem).2 rfl
      rw [List.flatMap_singleton, unicodeText_high hhigh, htail, List.cons_append, List.cons_append,
        unescapeLoop, if_pos rfl, hform]
      dsimp only
      rw [unescapeLoop_append hno, ih]
      rfl
    · next hlow =>
      have hascii : (UInt8.ofNat t).toNat < 0x80 := by
        rw [toNat_low hlow]
        exact Nat.lt_succ_of_le (Nat.le_of_not_lt hlow)
      have hpiece := flatMap_ascii (piece_ascii hascii) []
      rw [List.append_nil, List.flatMap_nil, List.append_nil] at hpiece
      rw [hpiece, unescapeLoop_piece, ih, unicodeText_low hlow]
      rfl

section Block
variable {options : WriteOptions} {ctx : MatchContext} (self : String → Nat) (indent str : Bytes)

theorem unescapeBlock_line (hctx : MatchContext.LeftOver ctx)
    (hascii : ∀ b ∈ unescapeLoop str, b.toNat < 0x80) (hno : newline ∉ unescapeLoop str) :
    (unescapeBlock self .plain options indent str ctx).1 = unescapeLoop str := by
  have hnot : ¬ (ScalarKind.plain ≠ .literal ∧ unescapeLoop str ≠ [] ∧
      (unescapeLoop str).all (· = newline) = true) := by
    rintro ⟨-, hne, hall⟩
    obtain ⟨c, rest, heq⟩ := List.exists_cons_of_ne_nil hne
    rw [heq] at hno hall
    rw [of_decide_eq_true (List.all_eq_true.1 hall c (.head _))] at hno
    exact hno (.head _)
  rw [unescapeBlock, if_neg hnot]
  generalize unescapeLoop str = result at hascii hno
  have hnewline : newlinePattern ∈ [breaksPattern, indentPattern, newlinePattern] := by decide
  have hindent : indentPattern ∈ [breaksPattern, indentPattern, newlinePattern] := by decide
  have hstart : ∀ s : Bytes × MatchContext, s.1 = result → MatchContext.LeftOver s.2 →
      (replaceIn (self newlinePattern) newlinePattern options.newline
        (replaceIn (self indentPattern) indentPattern ([newline] ++ indent ++ patternBytes "\\1")
          s)).1 = result := by
    rintro ⟨text, ctx'⟩ rfl hctx'
    have hkept := replaceIn_unmatched hindent (self indentPattern)
      ([newline] ++ indent ++ patternBytes "\\1") hctx' hascii hno
    have hleft := replaceIn_leftOver (self indentPattern) indentPattern
      ([newline] ++ indent ++ patternBytes "\\1") hctx'
    rw [replaceIn_unmatched hnewline _ _ hleft (hkept.symm ▸ hascii) (hkept.symm ▸ hno)]
    exact hkept
  dsimp only
  split
  · apply hstart
    · exact replaceIn_unmatched (by decide) _ _ hctx hascii hno
    · exact replaceIn_leftOver _ _ _ hctx
  · exact hstart _ rfl hctx

theorem unescapeBlock_break (hbreak : options.newline ∈ yamlBreaks)
    (hctx : MatchContext.LeftOver ctx) (hmem : newline ∈ unescapeLoop str) :
    HasBreak (unescapeBlock self .plain options indent str ctx).1 := by
  have hresult : HasBreak (unescapeLoop str) := ⟨newline, hmem, .inl rfl⟩
  rw [unescapeBlock]
  generalize unescapeLoop str = result at hresult
  dsimp only
  split
  · apply replaceIn_hasBreak _ _ hctx
    · obtain ⟨b, hb, hP⟩ := hresult
      exact ⟨b, List.mem_append_left _ (List.mem_append_left _ hb), hP⟩
    · exact hasBreak_newline hbreak _
  · have hrest : ∀ s : Bytes × MatchContext, HasBreak s.1 → MatchContext.LeftOver s.2 →
        HasBreak (replaceIn (self newlinePattern) newlinePattern options.newline
          (replaceIn (self indentPattern) indentPattern ([newline] ++ indent ++ patternBytes "\\1")
            s)).1 := by
      intro s hs hctx'
      apply replaceIn_hasBreak _ _ (replaceIn_leftOver _ _ _ hctx')
      · apply replaceIn_hasBreak _ _ hctx' hs
        intro p len captures
        rw [List.append_assoc, List.singleton_append, appendRewrite_cons (by decide)]
        exact ⟨newline, .head _, .inl rfl⟩
      · exact hasBreak_newline hbreak _
    split
    · apply hrest
      · exact replaceIn_hasBreak _ _ hctx hresult (hasBreak_breaks _)
      · exact replaceIn_leftOver _ _ _ hctx
    · exact hrest _ hresult hctx

end Block

theorem text_no_break (item : DoubleChar) :
    ∀ b ∈ item.text, b ≠ newline ∧ b ≠ carriageReturn := by
  have hhex : ∀ d : Hex, d.byte ≠ newline ∧ d.byte ≠ carriageReturn := by
    intro d
    have hspace := d.plain.2.1
    constructor
    · intro heq
      rw [heq] at hspace
      cases hspace
    · intro heq
      rw [heq] at hspace
      cases hspace
  cases item with
  | plain c h =>
    rw [DoubleChar.text, List.forall_mem_singleton]
    constructor
    · rintro rfl
      exact absurd h.1 (by decide)
    · rintro rfl
      exact absurd h.1 (by decide)
  | escape e =>
    rw [DoubleChar.text, List.forall_mem_cons, List.forall_mem_singleton]
    refine ⟨by decide, ?_⟩
    cases e with
    | known e => cases e <;> decide
    | null | escape | nextLine | noBreakSpace | lineSeparator | paragraphSeparator => decide
  | code kind digits hkind hvalid =>
    rw [DoubleChar.text, List.forall_mem_cons, List.forall_mem_cons]
    refine ⟨by decide, ?_, fun b hb => ?_⟩
    · rcases escapeDigits_cases hkind with ⟨rfl, -⟩ | ⟨rfl, -⟩ | ⟨rfl, -⟩ <;> decide
    · obtain ⟨d, -, rfl⟩ := List.mem_map.1 hb
      exact hhex d

theorem DoubleQuoted.no_break (h : DoubleQuoted text string) : ¬ HasBreak text := by
  obtain ⟨items, rfl, -⟩ := h
  rintro ⟨b, hb, hbreak⟩
  have hne : b ≠ newline ∧ b ≠ carriageReturn := by
    rcases List.mem_cons.1 hb with rfl | hb
    · decide
    · rcases List.mem_append.1 hb with hb | hb
      · obtain ⟨item, -, hb⟩ := List.mem_flatMap.1 hb
        exact text_no_break item b hb
      · obtain rfl := List.mem_singleton.1 hb
        decide
  exact hbreak.elim hne.1 hne.2

theorem quoted_injective (h : quoted text = quoted text') : text = text' :=
  List.append_cancel_right (List.cons.inj h).2

theorem doubleQuoted_unicode (hview : Sequences view vs) (hfrom : DecodedFrom vs ts)
    (hts : ∀ t ∈ ts, t ≤ max4) (h : DoubleQuoted (quoted (ts.flatMap unicodeText)) view) :
    0x5C ∉ vs ∧ ∀ t ∈ vs, t < 0x80 → IsPlain t := by
  obtain ⟨items, htext, hstring⟩ := h
  obtain ⟨ds, hden, hds, hdenotes⟩ := denoted_of_items items hts (quoted_injective htext).symm
  rw [hdenotes] at hstring
  subst hstring
  obtain rfl := hview.unique (.of_runes hds)
  have hfrom' : DecodedFrom vs ([] ++ ts ++ []) := by rwa [List.nil_append, List.append_nil]
  have hno := no_backslash hfrom' hden List.not_mem_nil List.not_mem_nil (Nat.zero_le _)
  obtain ⟨rfl, hplain⟩ := hden.plain hno
  exact ⟨hno, hplain⟩

/-- A string with runes beyond ASCII is not denoted by an ASCII text that is decoded from it, even if
that text is in quotes. -/
theorem not_doubleQuoted_ascii (hview : Sequences view vs) (hfrom : DecodedFrom vs ts)
    (htext : Sequences text ts) (hascii : ∀ b ∈ text, b.toNat < 0x80) (hhigh : ∃ v ∈ vs, 0x7F < v) :
    ¬ DoubleQuoted text view := by
  rintro ⟨items, rfl, hstring⟩
  generalize hbody : items.flatMap DoubleChar.text = body at hascii htext
  have hbodyAscii : ∀ b ∈ body, b.toNat < 0x80 := fun b hb =>
    hascii b (List.mem_cons_of_mem _ (List.mem_append_left _ hb))
  obtain rfl := htext.unique (sequences_ascii hascii)
  have hmax : ∀ t ∈ body.map UInt8.toNat, t ≤ max4 := (sequences_ascii hbodyAscii).le
  have hunicode : body = (body.map UInt8.toNat).flatMap unicodeText := by
    have hflat := flatMap_ascii hbodyAscii []
    rw [List.append_nil, List.flatMap_nil, List.append_nil] at hflat
    exact hflat.symm
  obtain ⟨ds, hden, hds, hdenotes⟩ := denoted_of_items items hmax (hbody.trans hunicode)
  rw [hdenotes] at hstring
  subst hstring
  obtain rfl := hview.unique (.of_runes hds)
  have hfrom' : DecodedFrom vs ([0x22] ++ body.map UInt8.toNat ++ [0x22]) := by
    rw [quoted, List.map_cons, List.map_append] at hfrom
    exact hfrom
  have hno := no_backslash hfrom' hden (by decide) (by decide) (by decide)
  obtain ⟨rfl, -⟩ := hden.plain hno
  obtain ⟨v, hv, hlt⟩ := hhigh
  obtain ⟨b, hb, rfl⟩ := List.mem_map.1 hv
  exact absurd (hbodyAscii b hb) (Nat.not_lt.2 hlt)

theorem containsUnicode_iff (h : Sequences s ts) : containsUnicode s = true ↔ ∃ t ∈ ts, 0x7F < t := by
  have hany : containsUnicode s = true ↔ ∃ c ∈ s, 0x7F < c.toNat := by
    simp only [containsUnicode, List.any_eq_true, decide_eq_true_eq, UInt8.lt_iff_toNat_lt]
    rfl
  rw [hany]
  clear hany
  induction h with
  | nil => simp
  | @rune value s ts hvalue rest ih =>
    simp only [List.mem_append, or_and_right, exists_or, List.exists_mem_cons_iff]
    refine or_congr ?_ ih
    by_cases hlow : value ≤ max1
    · have hbyte : (UInt8.ofNat value).toNat = value := toNat_low (Nat.not_lt.2 hlow)
      rw [writeRune_ascii hlow]
      simp only [List.mem_singleton, exists_eq_left, hbyte]
    · refine iff_of_true ?_ (Nat.lt_of_not_le hlow)
      obtain ⟨b, bytes, hb⟩ := List.exists_cons_of_ne_nil (writeRune_ne_nil value)
      have hhigh := writeRune_high hlow b (hb ▸ List.mem_cons_self)
      exact ⟨b, hb ▸ List.mem_cons_self, UInt8.le_iff_toNat_le.1 hhigh⟩
  | @stray c s ts hc rest ih =>
    have hhigh : ∀ c, isContinuation c = true → 0x7F < c.toNat := forall_byte (by decide +kernel)
    exact iff_of_true ⟨c, .head _, hhigh c hc⟩ ⟨bad, .head _, by decide⟩

theorem containsUnicode_pieces (text : Text) :
    containsUnicode (text.flatMap (piece (blockEscape false))) = containsUnicode text := by
  have hpiece : ∀ c, (piece (blockEscape false) c).any (fun c => decide (0x7F < c)) =
      decide (0x7F < c) := by
    intro c
    rcases piece_cases c with ⟨hpiece, -⟩ | ⟨letter, hpiece, -, hletter, hlow⟩
    · rw [hpiece, List.any_cons, List.any_nil, Bool.or_false]
    · have hno : ∀ b : UInt8, b.toNat < 0x80 → decide (0x7F < b) = false := by
        intro b hb
        rw [decide_eq_false_iff_not, UInt8.lt_iff_toNat_lt]
        exact Nat.not_lt.2 (Nat.le_of_lt_succ hb)
      rw [hpiece, List.any_cons, List.any_cons, List.any_nil, hno letter hletter, hno c hlow]
      rfl
  rw [containsUnicode, containsUnicode, List.any_flatMap]
  exact congrArg _ (funext hpiece)

def KeptByQuotes (text : List Char) : Prop :=
  ∀ c ∈ text, c ≠ '"' ∧ c ≠ '\\' ∧ (0x20 ≤ c.toNat ∨ c = '\t')

theorem keptByQuotes_iff (text : List Char) : KeptByQuotes text ↔
    0x5C ∉ text.map Char.toNat ∧ ∀ t ∈ text.map Char.toNat, t < 0x80 → IsPlain t := by
  have hchar : ∀ (c d : Char), c = d ↔ c.toNat = d.toNat := fun c d => Char.toNat_inj.symm
  constructor
  · intro h
    constructor
    · intro hmem
      obtain ⟨c, hc, heq⟩ := List.mem_map.1 hmem
      exact (h c hc).2.1 ((hchar c _).2 heq)
    · intro t ht _
      obtain ⟨c, hc, rfl⟩ := List.mem_map.1 ht
      obtain ⟨hquote, -, hplain⟩ := h c hc
      refine ⟨hplain.imp_right fun htab => ?_, fun heq => hquote ((hchar c _).2 heq)⟩
      rw [htab]
      rfl
  · intro h c hc
    have hmem : c.toNat ∈ text.map Char.toNat := List.mem_map_of_mem hc
    refine ⟨?_, fun heq => ?_, ?_⟩
    · rintro rfl
      exact (h.2 _ hmem (by decide)).2 rfl
    · rw [(hchar c _).1 heq] at hmem
      exact h.1 hmem
    · by_cases hlow : c.toNat < 0x80
      · exact (h.2 _ hmem hlow).1.imp_right fun htab => (hchar c _).2 htab
      · exact .inl (by omega)

theorem doubleQuoted_of_kept (h : KeptByQuotes text) :
    DoubleQuoted (quoted ((text.map Char.toNat).flatMap unicodeText)) (encode text) := by
  suffices hitems : ∃ items : List DoubleChar,
      (text.map Char.toNat).flatMap unicodeText = items.flatMap DoubleChar.text ∧
        encode text = items.flatMap DoubleChar.denotes by
    obtain ⟨items, htext, hstring⟩ := hitems
    exact ⟨items, congrArg quoted htext, hstring⟩
  induction text with
  | nil => exact ⟨[], rfl, rfl⟩
  | cons c text ih =>
    rw [KeptByQuotes, List.forall_mem_cons] at h
    obtain ⟨items, htext, hstring⟩ := ih h.2
    have hone : ∃ item : DoubleChar, unicodeText c.toNat = item.text ∧
        String.utf8EncodeChar c = item.denotes := by
      by_cases hhigh : 0x7F < c.toNat
      · have hmax : c.toNat ≤ max4 := le_max4.2 (toNat_lt c)
        have hcode : codeOf (hexesOf (unicodeForm c.toNat).2 c.toNat) = c.toNat :=
          ofDigits_hexesOf (lt_unicodeForm hmax)
        refine ⟨.code (unicodeForm c.toNat).1 (hexesOf (unicodeForm c.toNat).2 c.toNat) ?_ ?_, ?_, ?_⟩
        · rw [length_hexesOf, escapeDigits_unicodeForm]
        · rw [hcode]
          exact c.valid
        · exact unicodeText_high hhigh
        · rw [DoubleChar.denotes, hcode, encodeUtf8_eq, writeRune_toNat]
      · have hbyte := toNat_low hhigh
        obtain ⟨hquote, hbackslash, hplain⟩ := h.1
        have hne : ∀ d : Char, c ≠ d → c.toNat ≠ d.toNat := fun d hd heq => hd (Char.toNat_inj.1 heq)
        refine ⟨.plain (.ofNat c.toNat) ⟨?_, ?_, ?_⟩, unicodeText_low hhigh, ?_⟩
        · rcases hplain with hge | htab
          · left
            rw [UInt8.le_iff_toNat_le, hbyte]
            exact hge
          · right
            rw [htab]
            rfl
        · intro heq
          apply hne _ hquote
          rw [← hbyte, heq]
          rfl
        · intro heq
          apply hne _ hbackslash
          rw [← hbyte, heq]
          rfl
        · exact if_pos (Nat.le_of_not_lt hhigh)
    obtain ⟨item, hitem, hdenotes⟩ := hone
    refine ⟨item :: items, ?_, ?_⟩
    · rw [List.map_cons, List.flatMap_cons, List.flatMap_cons, hitem, htext]
    · have hcons : encode (c :: text) = String.utf8EncodeChar c ++ encode text := List.flatMap_cons
      rw [hcons, List.flatMap_cons, hdenotes, hstring]

section Scalars
variable {options : WriteOptions} {ctx : MatchContext} (self : String → Nat) (spaces : Spaces)
  (inDocument : Bool)

theorem blockToString_line (line : PlainLine) : blockToString false (.plain line []) =
    (unescapeHexunicode line.view).map (·.flatMap (piece (blockEscape false))) := by
  have hloop : escapeLoop (blockEscape false) false =
      (·.flatMap (piece (blockEscape false))) := funext (escapeLoop_eq (by decide))
  rw [blockToString, plainLines, escapeChars, hloop]

theorem ascii_unicode (ts : List Nat) : ∀ b ∈ ts.flatMap unicodeText, b.toNat < 0x80 := by
  intro b hb
  obtain ⟨t, -, hb⟩ := List.mem_flatMap.1 hb
  by_cases hhigh : 0x7F < t
  · rw [unicodeText_high hhigh] at hb
    rcases List.mem_cons.1 hb with rfl | hb
    · decide
    · exact (unicodeTail_plain t b hb).1
  · rw [unicodeText_low hhigh] at hb
    rw [List.mem_singleton.1 hb, toNat_low hhigh]
    exact Nat.lt_succ_of_le (Nat.le_of_not_lt hhigh)

theorem value_iff (text : List Char) (hunicode : ∃ c ∈ text, 0x80 ≤ c.toNat) :
    DoubleQuoted (valueToString (encode text)) (encode text) ↔ KeptByQuotes text := by
  have hview := Sequences.of_encode text
  have hcontains : containsUnicode (encode text) = true := by
    obtain ⟨c, hc, hhigh⟩ := hunicode
    exact (containsUnicode_iff hview).2 ⟨c.toNat, List.mem_map_of_mem hc, hhigh⟩
  rw [valueToString, if_pos hcontains, hview.escapeUnicode]
  constructor
  · intro h
    exact (keptByQuotes_iff text).2 (doubleQuoted_unicode hview (.refl _) hview.le h)
  · exact doubleQuoted_of_kept

theorem plain_doubleQuoted (hbreak : options.newline ∈ yamlBreaks)
    (hctx : MatchContext.LeftOver ctx) (line : PlainLine) (text : List Char)
    (hline : line.view = encode text) (hunicode : ∃ c ∈ text, 0x80 ≤ c.toNat)
    (hplain : plainToString self options spaces inDocument line [] ctx = .ok result)
    (hquoted : DoubleQuoted result.1 (encode text)) : KeptByQuotes text := by
  have hview := Sequences.of_encode text
  have hhigh : ∃ v ∈ text.map Char.toNat, 0x7F < v := by
    obtain ⟨c, hc, hle⟩ := hunicode
    exact ⟨c.toNat, List.mem_map_of_mem hc, hle⟩
  rw [plainToString, blockToString_line, hline] at hplain
  obtain ⟨str, hstr, rfl⟩ := map_eq_ok.1 hplain
  obtain ⟨decoded, hdecoded, rfl⟩ := map_eq_ok.1 hstr
  obtain ⟨ts, hts, hfrom⟩ := decodedFrom_unescape hview hdecoded
  have hnobreak := hquoted.no_break
  dsimp only at hquoted hnobreak
  split at hquoted
  · next hcontains =>
    rw [if_pos hcontains] at hnobreak
    have hloop := unescapeLoop_unicode hts
    have hno : newline ∉ ts.flatMap unicodeText := by
      intro hmem
      obtain ⟨b, hb, hP⟩ := unescapeBlock_break self (spaces.out.indent options.indent).innerStr _
        hbreak hctx (hloop.symm ▸ hmem)
      exact hnobreak ⟨b, List.mem_cons_of_mem _ (List.mem_append_left _ hb), hP⟩
    rw [unescapeBlock_line self _ _ hctx (hloop.symm ▸ ascii_unicode ts) (hloop.symm ▸ hno), hloop]
      at hquoted
    exact (keptByQuotes_iff text).2 (doubleQuoted_unicode hview hfrom hts.le hquoted)
  · next hcontains =>
    rw [if_neg hcontains] at hnobreak
    split at hquoted
    · obtain ⟨items, htext, -⟩ := hquoted
      cases htext
    · next hsingle =>
      rw [if_neg hsingle] at hnobreak
      have hloop := unescapeLoop_pieces decoded
      rw [containsUnicode_pieces, containsUnicode_iff hts] at hcontains
      have hascii : ∀ b ∈ decoded, b.toNat < 0x80 := by
        intro b hb
        by_contra hge
        have hany : containsUnicode decoded = true := by
          rw [containsUnicode, List.any_eq_true]
          refine ⟨b, hb, decide_eq_true (UInt8.lt_iff_toNat_lt.2 (Nat.le_of_not_lt hge))⟩
        exact hcontains ((containsUnicode_iff hts).1 hany)
      have hno : newline ∉ decoded := by
        intro hmem
        exact hnobreak (unescapeBlock_break self spaces.innerStr _ hbreak hctx (hloop.symm ▸ hmem))
      rw [unescapeBlock_line self _ _ hctx (hloop.symm ▸ hascii) (hloop.symm ▸ hno), hloop] at hquoted
      exact absurd hquoted (not_doubleQuoted_ascii hview hfrom hts hascii hhigh)

theorem plain_of_kept (hctx : MatchContext.LeftOver ctx) (line : PlainLine) (text : List Char)
    (hline : line.view = encode text) (hunicode : ∃ c ∈ text, 0x80 ≤ c.toNat)
    (hkept : KeptByQuotes text) : ∃ result,
      plainToString self options spaces inDocument line [] ctx = .ok result ∧
        DoubleQuoted result.1 (encode text) := by
  have hview := Sequences.of_encode text
  obtain ⟨hno, hplain⟩ := (keptByQuotes_iff text).1 hkept
  have hbackslash : backslash ∉ encode text := fun hmem =>
    hno ((Sequences.mem_backslash hview).1 hmem)
  have hcontains : containsUnicode (encode text) = true := by
    obtain ⟨c, hc, hhigh⟩ := hunicode
    exact (containsUnicode_iff hview).2 ⟨c.toNat, List.mem_map_of_mem hc, hhigh⟩
  have hloop := unescapeLoop_unicode hview
  have hline' : newline ∉ (text.map Char.toNat).flatMap unicodeText := by
    intro hmem
    exact (doubleQuoted_of_kept hkept).no_break
      ⟨newline, List.mem_cons_of_mem _ (List.mem_append_left _ hmem), .inl rfl⟩
  rw [plainToString, blockToString_line, hline, unescape_no_backslash hbackslash]
  refine ⟨_, rfl, ?_⟩
  dsimp only
  rw [if_pos ((containsUnicode_pieces _).trans hcontains)]
  dsimp only
  rw [unescapeBlock_line self _ _ hctx (hloop.symm ▸ ascii_unicode _) (hloop.symm ▸ hline'), hloop]
  exact doubleQuoted_of_kept hkept

end Scalars

/-- A plain scalar on one line with other characters than ASCII ones is written as a double-quoted
scalar that denotes it exactly where it has no quote, no backslash, and no control character but
tabulators. -/
theorem scalarToString_iff (self : String → Nat) (options : WriteOptions) (spaces : Spaces)
    (inDocument : Bool) (hbreak : options.newline ∈ yamlBreaks) (hctx : MatchContext.LeftOver ctx)
    (scalar : PlainScalar) (text : List Char) (hview : scalar.view = encode text)
    (hunicode : ∃ c ∈ text, 0x80 ≤ c.toNat) :
    (∃ out, scalarToString self options spaces inDocument ctx scalar = .ok out ∧
      DoubleQuoted out scalar.view) ↔ KeptByQuotes text := by
  cases scalar with
  | value view =>
    obtain rfl : view = encode text := hview
    rw [← value_iff text hunicode]
    constructor
    · rintro ⟨out, hout, hquoted⟩
      cases hout
      exact hquoted
    · intro hquoted
      exact ⟨_, rfl, hquoted⟩
  | plain line =>
    have hline : line.view = encode text := hview
    rw [hview]
    constructor
    · rintro ⟨out, hout, hquoted⟩
      obtain ⟨result, hresult, rfl⟩ := map_eq_ok.1 hout
      exact plain_doubleQuoted self spaces inDocument hbreak hctx line text hline hunicode hresult
        hquoted
    · intro hkept
      obtain ⟨result, hresult, hquoted⟩ :=
        plain_of_kept self spaces inDocument hctx line text hline hunicode hkept
      refine ⟨result.1, ?_, hquoted⟩
      rw [scalarToString, hresult]
      rfl

/-- The plain scalar `a: é`. -/
theorem scalarToString_accent :
    (∃ out, scalarToString (fun _ => 0) ⟨[newline], 2, false⟩ ⟨0, 2⟩ false {}
        (.plain ⟨false, encode ['a', ':', ' ', 'é']⟩) = .ok out ∧
      DoubleQuoted out (encode ['a', ':', ' ', 'é'])) ↔ KeptByQuotes ['a', ':', ' ', 'é'] :=
  scalarToString_iff (fun _ => 0) ⟨[newline], 2, false⟩ ⟨0, 2⟩ false (.head _) .fresh
    (.plain ⟨false, encode ['a', ':', ' ', 'é']⟩) _ rfl
    ⟨'é', .tail _ (.tail _ (.tail _ (.head _))), by decide⟩

/-- The quote of `"é` is written as it is, and so is the backslash of `\né`. -/
theorem quote_not_kept :
    valueToString (encode ['"', 'é']) = [0x22, 0x22, 0x5C, 0x75, 0x30, 0x30, 0x45, 0x39, 0x22] ∧
      ¬ DoubleQuoted (valueToString (encode ['"', 'é'])) (encode ['"', 'é']) ∧
      ¬ ∃ out, scalarToString (fun _ => 0) ⟨[newline], 2, false⟩ ⟨0, 2⟩ false {}
          (.plain ⟨false, encode ['\\', 'n', 'é']⟩) = .ok out ∧
        DoubleQuoted out (encode ['\\', 'n', 'é']) := by
  refine ⟨?_, ?_, ?_⟩
  · have hcontains : containsUnicode (encode ['"', 'é']) = true := by decide +kernel
    rw [valueToString, if_pos hcontains, (Sequences.of_encode _).escapeUnicode]
    decide +kernel
  · intro hquoted
    have hkept := (value_iff ['"', 'é'] ⟨'é', .tail _ (.head _), by decide⟩).1 hquoted
    exact (hkept '"' (.head _)).1 rfl
  · rintro ⟨out, hout, hquoted⟩
    obtain ⟨result, hresult, rfl⟩ := map_eq_ok.1 hout
    have hkept := plain_doubleQuoted (fun _ => 0) ⟨0, 2⟩ false (.head _) .fresh
      ⟨false, encode ['\\', 'n', 'é']⟩ ['\\', 'n', 'é'] rfl
      ⟨'é', .tail _ (.tail _ (.head _)), by decide⟩ hresult hquoted
    exact (hkept '\\' (.head _)).2.1 rfl

end Trieste.Yaml
