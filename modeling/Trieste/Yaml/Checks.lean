import Trieste.Regex.Groups
import Trieste.Yaml.Rules

namespace Trieste.Yaml
set_option autoImplicit true
open Regex

/-- What the texts of the tokens of a type are like: of certain runes only, with one of certain
runes in front, or one of certain texts. -/
inductive TextShape
  | only (allowed : List Nat)
  | startsIn (allowed : List Nat)
  | words (texts : List (List Nat))

namespace TextShape

def Fits : TextShape → List Nat → Prop
  | only allowed, runes => ∀ r ∈ runes, r ∈ allowed
  | startsIn allowed, runes => ∃ r rest, runes = r :: rest ∧ r ∈ allowed
  | words texts, runes => runes ∈ texts

/-- Whether the empty text does not fit at once. -/
def needsText : TextShape → Bool
  | only _ => false
  | startsIn _ | words _ => true

end TextShape

def codes (s : String) : List Nat := s.toList.map Char.toNat

/-- The runes of the names of tags. -/
def tagRunes : List Nat :=
  codes "0123456789ABCDEFGHIJKLMNOPQRSTUVWXYZabcdefghijklmnopqrstuvwxyz-_#;/?:@&=+$,.!~*'()[]%" ++
    [0x7B, 0x7D]

/-- The types whose tokens have texts of a kind of their own. -/
def shapes : List (Token × TextShape) :=
  [(.yamlNewLine, .only [0x0D, 0x0A]),
    (.yamlComment, .startsIn (codes "#")),
    (.yamlColon, .words [codes ":"]),
    (.yamlComma, .words [codes ",", codes ",#"]),
    (.yamlHyphen, .startsIn (codes "-")),
    (.yamlKey, .startsIn (codes "?")),
    (.yamlAnchor, .startsIn (codes "&")),
    (.yamlVerbatimTag, .startsIn (codes "<")),
    (.yamlShorthandTag, .only tagRunes),
    (.yamlVersionDirective, .startsIn (codes "%")),
    (.yamlUnknownDirective, .startsIn (codes "%")),
    (.yamlMaybeDirective, .startsIn (codes "%")),
    (.yamlDocumentStart, .words [codes "---"]),
    (.yamlDocumentEnd, .words [codes "..."]),
    (.yamlLiteral, .startsIn (codes "|>")),
    (.yamlFolded, .startsIn (codes "|>")),
    (.yamlIndentIndicator, .startsIn (codes "0123456789+-")),
    (.yamlChompIndicator, .startsIn (codes "0123456789+-")),
    (.yamlSingleQuote, .startsIn (codes "'")),
    (.yamlDoubleQuote, .startsIn (codes "\"")),
    (.yamlFlowMappingStart, .words [codes "\x7b", codes ":\x7b"]),
    (.yamlFlowSequenceStart, .words [codes "[", codes ":["]),
    (.yamlFlowSequenceEnd, .words [codes "]"])]

def shapeOf (type : Token) : Option TextShape := shapes.lookup type

/-- What the runes of a token's text have to be. -/
def Fits (type : Token) (runes : List Nat) : Prop := ∀ k, shapeOf type = some k → k.Fits runes

/-- The trees that a tree is an alternative of. -/
def alternatives : Regexp → List Regexp
  | .alt p q => alternatives p ++ alternatives q
  | p => [p]

/-- What an effect needs a group for: the text of a token, the style of a block scalar, what may be
the digit of its header, an alias that may be a key, or what it reports. -/
inductive Purpose
  | token (type : Token)
  | style
  | digit
  | aliasKey
  | fault
  deriving DecidableEq

/-- A character of the header of a block scalar is for its indentation or for its end. -/
def indicator : List Purpose := [.digit, .token .yamlIndentIndicator, .token .yamlChompIndicator]

/-- What the groups of the rules are there for, from the first group on. -/
def parts : Mode → Nat → List (List Purpose)
  | .directives, 3 => [[.token .yamlVersionDirective], [], [], [.fault]]
  | .directives, 5 => [[.token .yamlTagPrefix], [.token .yamlTagHandle]]
  | .directives, 8 => [[.token .yamlDocumentStart], [.token .yamlWhitespace]]
  | .directives, 9 => [[.token .yamlDocumentStart], [.token .yamlNewLine]]
  | .document, 0 => [[.token .yamlWhitespace], [.token .yamlComment]]
  | .document, 2 => [[.token .yamlNewLine], [.token .yamlComment]]
  -- the second group has the blanks in front of the comment, too
  | .document, 4 => [[.token .yamlMaybeDirective], []]
  | .document, 5 => [[.token .yamlDocumentStart], [.token .yamlNewLine, .token .yamlWhitespace]]
  | .document, 6 => [[.token .yamlDocumentEnd], []]
  | .document, 7 => [[.fault]]
  | .document, 10 => [[.token .yamlHyphen], [.token .yamlNewLine]]
  | .document, 12 => [[.token .yamlKey], [.token .yamlNewLine]]
  | .document, 13 => [[.token .yamlFlowMappingStart]]
  | .document, 14 => [[.token .yamlFlowSequenceStart]]
  | .document, 15 => [[.token .yamlValue], [.token .yamlColon], [.token .yamlNewLine]]
  -- the colon ends the alias if the name with it is that of an anchor
  | .document, 16 => [[.aliasKey], [.token .yamlAlias], [.token .yamlColon, .token .yamlAlias],
    [.token .yamlNewLine]]
  | .document, 17 => [[.token .yamlColon], [.token .yamlNewLine]]
  | .document, 19 => [[.token .yamlAnchor], [.token .yamlNewLine]]
  | .document, 20 => [[.token .yamlTagPrefix], [.token .yamlVerbatimTag], [.token .yamlNewLine]]
  | .document, 21 => [[.token .yamlTagPrefix], [.token .yamlShorthandTag], [.token .yamlNewLine]]
  | .document, 22 => [[.token .yamlTagPrefix], [.token .yamlNewLine]]
  | .document, 24 => [[.style], indicator, indicator, [.fault], [.token .yamlNewLine],
    [.token .yamlWhitespace]]
  | .document, 25 => [[.style], indicator, indicator, [.fault]]
  | .document, 26 | .document, 28 => [[.fault]]
  | .flow, 2 | .flow, 4 => [[.token .yamlComment]]
  | .flow, 6 => [[.token .yamlKey]]
  | .flow, 7 => [[.token .yamlColon], [.token .yamlFlowMappingStart]]
  | .flow, 8 => [[.token .yamlColon], [.token .yamlFlowSequenceStart]]
  | .flow, 9 => [[.token .yamlFlowMappingEnd], [.fault]]
  | .flow, 10 => [[.token .yamlFlowSequenceEnd], [.fault]]
  | .flow, 11 => [[.token .yamlComma], [.fault]]
  | .flow, 12 => [[.token .yamlColon], [.token .yamlValue]]
  | .flow, 13 => [[.token .yamlColon], [.token .yamlComma]]
  | .flow, 14 => [[.token .yamlColon], [.token .yamlSingleQuote]]
  | .flow, 15 => [[.token .yamlColon], [.token .yamlDoubleQuote]]
  | .flow, 18 => [[.token .yamlAnchor]]
  | .flow, 19 => [[.token .yamlTagPrefix], [.token .yamlVerbatimTag], [.token .yamlComma]]
  | .flow, 20 => [[.token .yamlTagPrefix], [.token .yamlShorthandTag], [.token .yamlComma]]
  | .flow, 21 => [[.token .yamlTagPrefix]]
  | .block, 0 => [[.token .yamlValue], [.token .yamlNewLine], [.token .yamlWhitespace]]
  | _, _ => []

/-- The group is one that is there for what it is used for. The whole match is always meant. -/
def Means (mode : Mode) (index : Nat) (use : Purpose × Nat) : Prop :=
  use.2 = 0 ∨ use.1 ∈ ((parts mode index)[use.2 - 1]?).getD []

instance : Decidable (Means mode index use) := inferInstanceAs (Decidable (_ ∨ _))

namespace Action

/-- The groups that an action refers to. -/
def groups : Action → List Nat
  | add _ index | push _ index | extend _ index => [index]
  | error _ index | insertAnchor index | setBlockIndent index => [index]
  | _ => []

/-- The token that an action adds, with the group that it takes its text from. -/
def adds : Action → Option (Token × Nat)
  | add type index | push type index | extend type index => some (type, index)
  | _ => none

end Action

section Checks
variable (t : PatternTree)

def fitsTree (p : Regexp) : TextShape → Bool
  | .only allowed => p.only t.classes allowed
  | .startsIn allowed => p.startsIn t.classes allowed
  | .words texts => p.words.any fun ws => ws.all texts.contains

/-- Whether each alternative consists of line breaks or of blanks. -/
def breaksOrBlanks (p : Regexp) : Bool :=
  (alternatives p).all fun q => q.only t.classes [0x0D, 0x0A] || q.only t.classes [0x20, 0x09]

/-- The group exists, and none of the same number is in it. -/
def goodGroup (index : Nat) : Bool :=
  decide (index ≤ t.groups) && (t.tree.bodies (index - 1)).all fun q =>
    (q.bodies (index - 1)).isEmpty

/-- The group is part of every match, or a condition says that it is. -/
def hasText (guards : List Cond) (index : Nat) : Bool :=
  index == 0 || t.tree.sets (index - 1) || guards.contains (.matched index)

/-- The group has a text that is right for tokens of the type. -/
def fitsGroup (guards : List Cond) (type : Token) (index : Nat) : Bool :=
  goodGroup t index && (((shapeOf type).all fun k =>
    (t.body index).all (fitsTree t · k) && (!k.needsText || hasText t guards index)) ||
      (decide (type = .yamlNewLine) && guards.contains (.endsWith index newline) &&
        (t.body index).all (breaksOrBlanks t)))

namespace Effect

/-- All groups can be told, and those that are meant for their tokens have the texts for them. -/
def checked (mode : Mode) (index : Nat) (guards : List Cond) : Effect → Bool
  | skip => true
  | act a => a.groups.all (fun i => decide (t.groups < i) || goodGroup t i) &&
    a.adds.all fun entry => !decide (Means mode index (.token entry.1, entry.2)) ||
      fitsGroup t guards entry.1 entry.2
  | seq e e' => e.checked mode index guards && e'.checked mode index guards
  | branch c yes no => yes.checked mode index (c :: guards) && no.checked mode index guards

end Effect

end Checks

namespace Rule

def tree (rule : Rule) : Option PatternTree := PatternTree.parse (fun _ => none) rule.bytes

def checked (mode : Mode) (index : Nat) (rule : Rule) : Bool :=
  rule.tree.any fun t => decide (t.tree.WellFormed t.classes) &&
    (t.tree.consumes || rule.pattern == "^") &&
    (decide ((parts mode index).length = t.groups) && rule.effect.checked t mode index [])

end Rule

theorem all_of_take_drop {p : α → Bool} (n : Nat) {l : List α} (h : (l.take n).all p = true)
    (h' : (l.drop n).all p = true) : l.all p = true := by
  rw [← List.take_append_drop n l, List.all_append, h, h', Bool.true_and]

/-- All rules pass the checks. -/
theorem rules_checked (mode : Mode) :
    ((rules mode).zipIdx.all fun entry => entry.1.checked mode entry.2) = true := by
  cases mode with
  | start => decide +kernel
  | directives => decide +kernel
  | document =>
    -- the kernel is quicker with a few regexes at a time
    refine all_of_take_drop 14 (by decide +kernel) ?_
    refine all_of_take_drop 7 (by decide +kernel) ?_
    exact all_of_take_drop 1 (by decide +kernel) (by decide +kernel)
  | flow =>
    refine all_of_take_drop 18 (by decide +kernel) ?_
    exact all_of_take_drop 2 (by decide +kernel) (by decide +kernel)
  | block => decide +kernel

/-- A rule fires on a match at the position of the lexer. -/
structure Fired (text : Bytes) (source : SourceDef) (s s' : Lexer) (rule : Rule) (t : PatternTree)
    (k : Nat) (spans : List (Option Nat)) : Prop where
  tree : rule.tree = some t
  wellFormed : t.tree.WellFormed t.classes
  prefixes : t.MatchesPrefix (text.drop s.pos) k spans
  loc : ∀ index, s'.loc index =
    { source := some source, pos := s.pos + (t.group (text.drop s.pos) k spans index).1,
      len := (t.group (text.drop s.pos) k spans index).2 }
  pos : s'.pos = s.pos + offset (text.drop s.pos) k
  make : s'.make = s.make
  mode : s'.mode = s.mode
  shared : s'.shared = s.shared

section Rounds
variable {s s' : Lexer} {mode : Mode} {index : Nat} {rule : Rule}

theorem rule_checked (h : (rules mode)[index]? = some rule) : rule.checked mode index = true := by
  have hmem : (rule, index) ∈ (rules mode).zipIdx := List.mem_zipIdx_iff_getElem?.2 h
  exact List.all_eq_true.1 (rules_checked mode) _ hmem

/-- Every rule has a tree, and only the rules that are anchored may match the empty text. -/
theorem rule_tree (h : (rules mode)[index]? = some rule) : ∃ t, rule.tree = some t ∧
    t.tree.WellFormed t.classes ∧ (t.tree.consumes = true ∨ rule.pattern = "^") ∧
      (parts mode index).length = t.groups ∧
      rule.effect.checked t mode index [] = true := by
  obtain ⟨t, ht, hchecked⟩ := (Option.any_eq_true _ _).1 (rule_checked h)
  obtain ⟨hfirst, hparts⟩ := Bool.and_eq_true_iff.1 hchecked
  obtain ⟨hwf, hconsumes⟩ := Bool.and_eq_true_iff.1 hfirst
  obtain ⟨hlength, hparts⟩ := Bool.and_eq_true_iff.1 hparts
  refine ⟨t, ht, of_decide_eq_true hwf, ?_, of_decide_eq_true hlength, hparts⟩
  rcases Bool.or_eq_true_iff.1 hconsumes with hconsumes | hanchor
  · exact .inl hconsumes
  · exact .inr (beq_iff_eq.1 hanchor)

theorem getElem?_regexes (mode : Mode) (index : Nat) : (regexes mode)[index]? =
    (rules mode)[index]?.map fun rule =>
      { TRegex.init rule.engine with address := 5 * index + mode.number } := by
  rw [regexes, List.getElem?_map, List.getElem?_zipIdx, Option.map_map, Nat.zero_add]
  rfl

theorem regexes_engine {re : SharedRegex} (h : (regexes mode)[index]? = some re) :
    ∃ rule t, (rules mode)[index]? = some rule ∧ rule.tree = some t ∧
      t.tree.WellFormed t.classes ∧ re.toTRegex = .init t.engine := by
  rw [getElem?_regexes] at h
  obtain ⟨rule, hrule, rfl⟩ := Option.map_eq_some_iff.1 h
  obtain ⟨t, ht, hwf, -⟩ := rule_tree hrule
  have hengine : rule.engine = t.engine := RegexEngine.ofPattern_eq ht
  refine ⟨rule, t, hrule, ht, hwf, ?_⟩
  rw [← hengine]

theorem regexes_compiled (mode : Mode) : ∀ re ∈ regexes mode, re.Compiled := by
  intro re hre
  obtain ⟨index, hindex⟩ := List.mem_iff_getElem?.1 hre
  obtain ⟨rule, t, -, -, -, hengine⟩ := regexes_engine hindex
  rw [hengine]
  exact TRegex.init_compiled t

/-- What is consumed is a match of a rule of the mode. -/
theorem consumeFirstMatch_fired (text : Bytes) (source : SourceDef)
    (hv : s.reMatch.ctx.visited.Valid) (hpos : s.pos < text.length) :
    (s.consumeFirstMatch text source).2.reMatch.ctx.visited.Valid ∧
      ∀ index, (s.consumeFirstMatch text source).1 = some index →
        ∃ rule t k spans, (rules s.mode)[index]? = some rule ∧
          Fired text source s (s.consumeFirstMatch text source).2 rule t k spans := by
  have hview : text.drop s.pos ≠ [] := by simpa using hpos
  obtain ⟨hvalid, hfound⟩ :=
    TRegexSet.matchFirst_found (regexes_compiled s.mode) hv hview source s.pos
  unfold Lexer.consumeFirstMatch
  have hset : ruleSet s.mode = .init (regexes s.mode) := rfl
  rw [hset]
  generalize (TRegexSet.init (regexes s.mode)).matchFirst s.reMatch (text.drop s.pos) source s.pos =
    result at hvalid hfound
  obtain ⟨found, reMatch⟩ := result
  cases found with
  | none => exact ⟨hvalid, fun index hindex => (nomatch hindex)⟩
  | some found =>
    refine ⟨hvalid, fun index hindex => ?_⟩
    cases hindex
    obtain ⟨re, hre, hmatch, hlocation⟩ := hfound found rfl
    obtain ⟨rule, t, hrule, ht, hwf, hengine⟩ := regexes_engine hre
    obtain ⟨k, spans, hfront, hgroups⟩ := PatternTree.tryMatch_groups (m := {}) hwf hengine
      (.fresh 0) source s.pos hmatch
    have hloc : ∀ index, (reMatch.location index).getD {} =
        { source := some source, pos := s.pos + (t.group (text.drop s.pos) k spans index).1,
          len := (t.group (text.drop s.pos) k spans index).2 } := by
      intro index
      rw [hlocation index, hgroups index]
      rfl
    refine ⟨rule, t, k, spans, hrule, ht, hwf, hfront, hloc, ?_, rfl, rfl, rfl⟩
    have hzero := congrArg Location.len (hloc 0)
    exact congrArg (s.pos + ·) hzero

theorem Fired.pos_lt (h : Fired text source s s' rule t k spans) (hpos : s.pos < text.length)
    (hconsumes : t.tree.consumes = true) : s.pos < s'.pos := by
  have hk : 0 < k := h.prefixes.matches.lt hconsumes
  have hlen : (text.drop s.pos).length ≤ 0 → False := by
    rw [List.length_drop]
    omega
  have hruns : 0 < (runes (text.drop s.pos)).length := by
    apply Nat.pos_of_ne_zero
    intro hzero
    exact hlen ((length_le_offset_iff _ 0).2 hzero.le)
  obtain ⟨rune, bytes, hnext⟩ := exists_nextRune hruns
  have hbytes := (nextRune_pos hnext).2
  have hone := offset_mono (text.drop s.pos) (Nat.succ_le_of_lt hk)
  rw [offset_succ hnext] at hone
  rw [h.pos]
  have hpositive : 0 < offset (text.drop s.pos) k := by omega
  omega

end Rounds

end Trieste.Yaml
