import Mathlib.Data.List.Basic
import Trieste.Library.EventTree
import Trieste.Yaml.BlockFolding
import Trieste.Yaml.Folding
import Trieste.Yaml.ValueWriter

namespace Trieste.Yaml
set_option autoImplicit true
open Library Utf8
open Regex hiding backslash

/-- A document with the texts of its marks. -/
structure Document where
  start : Bytes
  value : Node
  finish : Bytes

/-- What is thrown while events are written. -/
inductive EventFault where
  | throws (e : UrlFault)
  | unexpected (property : Property)

/-- The tag that is written for a handle and the name of a tag. -/
def eventTag (handle name : Bytes) : Except UrlFault Bytes :=
  (unescapeUrlChars name).map fun tagname =>
    if 2 ≤ tagname.length ∧ tagname.head? = some 0x3C ∧ tagname.getLast? = some 0x3E then tagname
    else patternBytes "<" ++ handle ++ tagname ++ patternBytes ">"

structure Attributes where
  anchor : Option Bytes
  tag : Option Bytes
  deriving DecidableEq

def optionText (before : Bytes) : Option Bytes → Bytes
  | none => []
  | some text => before ++ text

/-- What `handle_tag_anchor` writes to events. -/
def Attributes.text (attributes : Attributes) : Bytes :=
  optionText (patternBytes " &") attributes.anchor ++ optionText (patternBytes " ") attributes.tag

/-- The properties that `get_type` leaves, which are there where the type is not that of a value. -/
def typeProperties (properties : List Property) : List Property :=
  let properties := (takeAnchor properties).2
  let properties := match properties with
    | .tag .. :: rest => rest
    | properties => properties
  (takeAnchor properties).2

/-- What `handle_tag_anchor` finds around a value. -/
def attributesOf (properties : List Property) : Except EventFault Attributes :=
  ((takeProperties eventTag properties).mapError .throws).map fun ((anchor, tag), _) =>
    ⟨anchor, tag⟩

/-- What is shown of an alias: the text of the outermost node around it. -/
def aliasView (properties : List Property) (name : Bytes) : Bytes :=
  match properties with
  | [] => name
  | .anchor view _ :: _ | .tag view _ _ :: _ => view

def eventText (content : Except Exception Bytes) : Except EventFault Bytes :=
  content.mapError fun e => .throws (.throws e)

/-- The mark and the text of a scalar; there is no text for what is not one. -/
def Content.scalar : Content → UInt8 × Except Exception Bytes
  | .empty | .basic .null _ | .mapping .. | .sequence .. | .alias _ => (0x3A, .ok [])
  | .value view | .basic _ view => (0x3A, escapeChars [Utf8.backslash] view)
  | .plain first rest => (0x3A, blockToString true (.plain first rest))
  | .quoted .double first rest => (0x22, quoteToString .double true (first :: rest))
  | .quoted .single first rest => (0x27, quoteToString .single true (first :: rest))
  | .block scalar => (if scalar.kind = .folded then 0x3E else 0x7C,
      blockToString true (.block scalar.kind scalar.indent scalar.chomp scalar.lines))

/-- What is written behind the mark of a document, or of its end. -/
def markText (mark : Bytes) : Bytes := if mark = [] then [] else patternBytes " " ++ mark

section Write
variable (newline : Bytes)

mutual

/-- `write_event` for a value -/
def writeEvent : Node → Except EventFault Bytes
  | ⟨properties, content⟩ =>
    match typeProperties properties with
    | property :: _ => .error (.unexpected property)
    | [] => writeContentEvent properties content

/-- `write_mapping_event`, `write_sequence_event`, `write_alias_event` and the functions for
scalars -/
def writeContentEvent (properties : List Property) : Content → Except EventFault Bytes
  | .mapping flow items =>
    (attributesOf properties).bind fun attributes => (writeItemEvents items).map fun text =>
      patternBytes "+MAP" ++ (if flow then patternBytes " {}" else []) ++ attributes.text ++
        newline ++ text ++ patternBytes "-MAP" ++ newline
  | .sequence flow items =>
    (attributesOf properties).bind fun attributes => (writeNodeEvents items).map fun text =>
      patternBytes "+SEQ" ++ (if flow then patternBytes " []" else []) ++ attributes.text ++
        newline ++ text ++ patternBytes "-SEQ" ++ newline
  | .alias name => .ok (patternBytes "=ALI *" ++ aliasView properties name ++ newline)
  | content =>
    (attributesOf properties).bind fun attributes => (eventText content.scalar.2).map fun text =>
      patternBytes "=VAL" ++ attributes.text ++ [0x20, content.scalar.1] ++ text ++ newline

def writeItemEvents : List MappingItem → Except EventFault Bytes
  | [] => .ok []
  | ⟨key, value⟩ :: items =>
    (writeEvent key).bind fun key => (writeEvent value).bind fun value =>
      (writeItemEvents items).map fun text => key ++ value ++ text

def writeNodeEvents : List Node → Except EventFault Bytes
  | [] => .ok []
  | node :: nodes =>
    (writeEvent node).bind fun text => (writeNodeEvents nodes).map fun rest => text ++ rest

end

/-- `write_event` for a document; one without children is not written. -/
def writeDocumentEvent : Option Document → Except EventFault Bytes
  | none => .ok []
  | some document => (writeEvent newline document.value).map fun text =>
      patternBytes "+DOC" ++ markText document.start ++ newline ++ text ++
        patternBytes "-DOC" ++ markText document.finish ++ newline

def writeDocumentEvents : List (Option Document) → Except EventFault Bytes
  | [] => .ok []
  | document :: documents =>
    (writeDocumentEvent newline document).bind fun text =>
      (writeDocumentEvents documents).map fun rest => text ++ rest

/-- `write_event` for a stream -/
def writeStreamEvents (documents : List (Option Document)) : Except EventFault Bytes :=
  (writeDocumentEvents newline documents).map fun text =>
    patternBytes "+STR" ++ newline ++ text ++ patternBytes "-STR" ++ newline

end Write

inductive EventLeaf where
  | value (attributes : Attributes) (mark : UInt8) (text : Bytes)
  | alias (name : Bytes)
  deriving DecidableEq

inductive EventStart where
  | stream
  | document (mark : Bytes)
  | mapping (flow : Bool) (attributes : Attributes)
  | sequence (flow : Bool) (attributes : Attributes)
  deriving DecidableEq

inductive EventStop where
  | stream
  | document (mark : Bytes)
  | mapping
  | sequence
  deriving DecidableEq

abbrev YamlEvent := TreeEvent EventLeaf EventStart EventStop

/-- What a stream says without the way in which it is written. -/
abbrev YamlTree := EventTree EventLeaf EventStart EventStop

def EventStart.fits : EventStart → EventStop → Bool
  | stream, .stream | document _, .document _ => true
  | mapping .., .mapping | sequence .., .sequence => true
  | _, _ => false

/-- A scalar on several lines, where an empty line has no text: it is a line feed, and a space is
between two lines with text. -/
def joined : List (Option Text) → Text
  | [] => []
  | [last] => last.getD [newline]
  | line :: next :: rest =>
    line.getD [newline] ++ (if line.isSome ∧ next.isSome then [0x20] else []) ++
      joined (next :: rest)

def PlainLine.text? (line : PlainLine) : Option Text :=
  if line.emptyLine then none else some line.view

def QuoteLine.text? : QuoteLine → Option Text
  | block view => some view
  | empty | error _ => none

/-- The mark of a scalar's style, and the text that it stands for; a null has none. -/
def Content.meant : Content → UInt8 × Text
  | .empty | .basic .null _ | .mapping .. | .sequence .. | .alias _ => (0x3A, [])
  | .value view | .basic _ view => (0x3A, view)
  | .plain first rest => (0x3A, joined ((first :: rest).map PlainLine.text?))
  | .quoted .double first rest => (0x22, joined ((first :: rest).map QuoteLine.text?))
  | .quoted .single first rest => (0x27, joined ((first :: rest).map QuoteLine.text?))
  | .block scalar => (if scalar.kind = .folded then 0x3E else 0x7C,
      yamlContent scalar.kind scalar.indent scalar.chomp scalar.lines)

/-- A tag between `<` and `>`, where the name is not the whole tag itself. -/
def fullTag (handle name : Bytes) : Bytes :=
  let name := percentDecoded name
  if 2 ≤ name.length ∧ name.head? = some 0x3C ∧ name.getLast? = some 0x3E then name
  else 0x3C :: (handle ++ name ++ [0x3E])

def Property.anchor? : Property → Option Bytes
  | anchor _ name => some name
  | tag .. => none

def Property.tag? : Property → Option Bytes
  | anchor .. => none
  | tag _ handle name => some (fullTag handle name)

def meantAttributes (properties : List Property) : Attributes :=
  ⟨properties.findSome? Property.anchor?, properties.findSome? Property.tag?⟩

mutual

def eventTree : Node → YamlTree
  | ⟨properties, content⟩ => contentTree properties content

def contentTree (properties : List Property) : Content → YamlTree
  | .mapping flow items =>
    .node (.mapping flow (meantAttributes properties)) .mapping (itemTrees items)
  | .sequence flow items =>
    .node (.sequence flow (meantAttributes properties)) .sequence (nodeTrees items)
  | .alias name => .leaf (.alias name)
  | content => .leaf (.value (meantAttributes properties) content.meant.1 content.meant.2)

def itemTrees : List MappingItem → List YamlTree
  | [] => []
  | ⟨key, value⟩ :: items => eventTree key :: eventTree value :: itemTrees items

def nodeTrees : List Node → List YamlTree
  | [] => []
  | node :: nodes => eventTree node :: nodeTrees nodes

end

def Document.tree (document : Document) : YamlTree :=
  .node (.document document.start) (.document document.finish) [eventTree document.value]

/-- The tree of a stream, where a document of nothing is left out. -/
def streamTree (documents : List (Option Document)) : YamlTree :=
  .node .stream .stream ((documents.filterMap id).map Document.tree)

def eventEscapes : Bytes := [backslash, tab, carriageReturn, newline]

/-- The spelling of a character in the line of an event. -/
def eventChar (c : UInt8) : Bytes :=
  if c = newline then [backslash, 0x6E]
  else if c = carriageReturn then [backslash, 0x72]
  else if c = tab then [backslash, 0x74]
  else if c = backslash then [backslash, backslash]
  else [c]

def eventSpelled (text : Text) : Bytes := text.flatMap eventChar

def EventLeaf.line : EventLeaf → Bytes
  | .value attributes mark text =>
    patternBytes "=VAL" ++ attributes.text ++ [0x20, mark] ++ eventSpelled text
  | .alias name => patternBytes "=ALI *" ++ name

def EventStart.line : EventStart → Bytes
  | stream => patternBytes "+STR"
  | document mark => patternBytes "+DOC" ++ markText mark
  | mapping flow attributes =>
    patternBytes "+MAP" ++ (if flow then patternBytes " {}" else []) ++ attributes.text
  | sequence flow attributes =>
    patternBytes "+SEQ" ++ (if flow then patternBytes " []" else []) ++ attributes.text

def EventStop.line : EventStop → Bytes
  | stream => patternBytes "-STR"
  | document mark => patternBytes "-DOC" ++ markText mark
  | mapping => patternBytes "-MAP"
  | sequence => patternBytes "-SEQ"

def eventLine : YamlEvent → Bytes
  | .leaf a => a.line
  | .enter b => b.line
  | .leave c => c.line

def eventsText (newline : Bytes) (es : List YamlEvent) : Bytes :=
  es.flatMap fun e => eventLine e ++ newline

theorem eventsText_append (newline : Bytes) (es fs : List YamlEvent) :
    eventsText newline (es ++ fs) = eventsText newline es ++ eventsText newline fs :=
  List.flatMap_append

theorem eventsText_node (newline : Bytes) (b : EventStart) (c : EventStop) (trees : List YamlTree) :
    eventsText newline (EventTree.node b c trees).events = b.line ++ newline ++
      eventsText newline (EventTree.eventsAll trees) ++ c.line ++ newline := by
  rw [EventTree.events, ← List.singleton_append, eventsText_append, eventsText_append]
  simp only [eventsText, List.flatMap_singleton, eventLine, List.append_assoc]

theorem eventsText_leaf (newline : Bytes) (a : EventLeaf) :
    eventsText newline (EventTree.leaf a : YamlTree).events = a.line ++ newline :=
  List.append_nil _

theorem eventsText_cons (newline : Bytes) (tree : YamlTree) (trees : List YamlTree) :
    eventsText newline (EventTree.eventsAll (tree :: trees)) =
      eventsText newline tree.events ++ eventsText newline (EventTree.eventsAll trees) := by
  rw [EventTree.eventsAll, eventsText_append]

def isBreakByte (c : UInt8) : Bool := c = newline || c = carriageReturn

def NoBreak (text : Bytes) : Prop := ∀ c ∈ text, isBreakByte c = false

instance : DecidablePred NoBreak := fun text =>
  decidable_of_iff (text.all fun c => !isBreakByte c) (by simp [NoBreak])

theorem NoBreak.nil : NoBreak [] := fun _ hc => absurd hc List.not_mem_nil

theorem NoBreak.append (h : NoBreak text) (h' : NoBreak text') : NoBreak (text ++ text') :=
  List.forall_mem_append.2 ⟨h, h'⟩

/-- A node has one anchor and one tag at most. -/
def OneEach : List Property → Prop
  | [] | [_] | [.anchor .., .tag ..] | [.tag .., .anchor ..] => True
  | _ => False

/-- The names end where a reader takes them to end. -/
structure Attributes.Clean (attributes : Attributes) : Prop where
  anchor : ∀ anchor ∈ attributes.anchor, NoBreak anchor ∧ 0x20 ∉ anchor
  tag : ∀ tag ∈ attributes.tag, NoBreak tag ∧ 0x3E ∉ tag.dropLast

instance (attributes : Attributes) : Decidable attributes.Clean :=
  decidable_of_iff ((∀ anchor ∈ attributes.anchor, NoBreak anchor ∧ 0x20 ∉ anchor) ∧
      ∀ tag ∈ attributes.tag, NoBreak tag ∧ 0x3E ∉ tag.dropLast)
    ⟨fun h => ⟨h.1, h.2⟩, fun h => ⟨h.anchor, h.tag⟩⟩

structure LegibleProperties (properties : List Property) : Prop where
  oneEach : OneEach properties
  escapes : ∀ view handle name, .tag view handle name ∈ properties → Escapes name
  clean : (meantAttributes properties).Clean

/-- What is escaped in a text is all that has to be. -/
structure Verbatim (toEscape view : Text) : Prop where
  noEscape : NoEscape view
  escaped : ∀ c ∈ view, c ∈ eventEscapes → c ∈ toEscape

structure LegibleLine (kind : QuoteKind) (line : QuoteLine) : Prop where
  accepted : ∀ msg, line ≠ .error msg
  verbatim : Verbatim (quoteEscape kind true) line.view
  unquoted : kind.mark ∉ line.view
  last : line.view.getLast? ≠ some backslash

/-- A line of no text that is not an empty one is the first or the last, beside a line with text. -/
def TextBeside : Bool → List QuoteLine → Prop
  | first, line :: next :: rest =>
    (line = .block [] → first = true ∧ next.view ≠ []) ∧
      (next = .block [] → line.view ≠ []) ∧ TextBeside false (next :: rest)
  | _, _ => True

/-- A scalar that is written as the text that it stands for. -/
def Content.LegibleScalar : Content → Prop
  | .basic .null _ => True
  | .value view | .basic _ view => Verbatim [backslash] view
  | .plain first rest => (∀ line ∈ first :: rest, startsSpace line.view = line.emptyLine ∧
        Verbatim (blockEscape true) line.view) ∧
      ∀ last ∈ (first :: rest).getLast?, last.emptyLine = false
  | .quoted kind first rest =>
    (∀ line ∈ first :: rest, LegibleLine kind line) ∧ TextBeside true (first :: rest)
  | .block scalar => (∀ line ∈ scalar.lines, PlainText line) ∧
      (scalar.kind = .folded → Folds scalar.chomp (gather scalar.indent scalar.lines).2)
  | _ => True

mutual

def LegibleNode : Node → Prop
  | ⟨properties, content⟩ => LegibleContent properties content

def LegibleContent (properties : List Property) : Content → Prop
  | .mapping _ items => LegibleProperties properties ∧ LegibleItems items
  | .sequence _ items => LegibleProperties properties ∧ LegibleNodes items
  | .alias name => properties = [] ∧ NoBreak name
  | content => LegibleProperties properties ∧ content.LegibleScalar

def LegibleItems : List MappingItem → Prop
  | [] => True
  | ⟨key, value⟩ :: items => LegibleNode key ∧ LegibleNode value ∧ LegibleItems items

def LegibleNodes : List Node → Prop
  | [] => True
  | node :: nodes => LegibleNode node ∧ LegibleNodes nodes

end

structure Document.Legible (document : Document) : Prop where
  start : NoBreak document.start
  value : LegibleNode document.value
  finish : NoBreak document.finish

theorem eventSpelled_append (s t : Text) : eventSpelled (s ++ t) = eventSpelled s ++ eventSpelled t :=
  List.flatMap_append

theorem eventSpelled_cons (c : UInt8) (text : Text) :
    eventSpelled (c :: text) = eventChar c ++ eventSpelled text := List.flatMap_cons

theorem mem_eventEscapes :
    c ∈ eventEscapes ↔ c = backslash ∨ c = tab ∨ c = carriageReturn ∨ c = newline := by
  simp only [eventEscapes, List.mem_cons, List.not_mem_nil, or_false]

theorem eventChar_plain (h : c ∉ eventEscapes) : eventChar c = [c] := by
  simp only [mem_eventEscapes, not_or] at h
  rw [eventChar, if_neg h.2.2.2, if_neg h.2.2.1, if_neg h.2.1, if_neg h.1]

theorem mem_eventChar (h : d ∈ eventChar c) :
    d = c ∧ c ∉ eventEscapes ∨ d ∈ [backslash, 0x6E, 0x72, 0x74] := by
  by_cases hc : c ∈ eventEscapes
  · refine .inr ?_
    rcases mem_eventEscapes.1 hc with rfl | rfl | rfl | rfl <;> revert d <;> decide +kernel
  · rw [eventChar_plain hc] at h
    exact .inl ⟨List.mem_singleton.1 h, hc⟩

/-- White space that is not escaped is a space. -/
theorem spaced_plain (h : c ∉ eventEscapes) : (if isSpaceChar c = true then 0x20 else c) = c := by
  simp only [mem_eventEscapes, not_or] at h
  split
  · next hspace =>
    simp only [isSpaceChar, Bool.or_eq_true, decide_eq_true_eq, h.2.1, h.2.2.1, h.2.2.2,
      or_false] at hspace
    exact hspace.symm
  · rfl

theorem escapeLoop_spelled {toEscape view : Text} (hset : ∀ c ∈ toEscape, c ∈ eventEscapes)
    (h : ∀ c ∈ view, c ∈ eventEscapes → c ∈ toEscape) :
    escapeLoop toEscape false view = eventSpelled view := by
  induction view with
  | nil => rfl
  | cons c view ih =>
    obtain ⟨hc, hview⟩ := List.forall_mem_cons.1 h
    rw [escapeLoop, eventSpelled_cons, ih hview]
    by_cases hmem : c ∈ toEscape
    · rw [if_pos hmem]
      rcases mem_eventEscapes.1 (hset c hmem) with rfl | rfl | rfl | rfl <;> rfl
    · have hplain := mt hc hmem
      have hback : c ≠ backslash := fun heq => hplain (mem_eventEscapes.2 (.inl heq))
      rw [if_neg hmem, if_neg hback, eventChar_plain hplain, List.singleton_append]
      conv_rhs => rw [← spaced_plain hplain]
      split <;> rfl

theorem escapeChars_spelled {toEscape view : Text} (hset : ∀ c ∈ toEscape, c ∈ eventEscapes)
    (h : Verbatim toEscape view) : escapeChars toEscape view = .ok (eventSpelled view) := by
  rw [escapeChars, unescapeHexunicode_of_noEscape h.noEscape]
  exact congrArg Except.ok (escapeLoop_spelled hset h.escaped)

theorem plainLines_joined (h : ∀ line ∈ first :: rest,
      startsSpace line.view = line.emptyLine ∧ Verbatim (blockEscape true) line.view)
    (hlast : ∀ last ∈ (first :: rest).getLast?, last.emptyLine = false) :
    plainLines (blockEscape true) first rest =
      .ok (eventSpelled (joined ((first :: rest).map PlainLine.text?))) := by
  have hset : ∀ c ∈ blockEscape true, c ∈ eventEscapes := by simp [blockEscape, eventEscapes]
  induction rest generalizing first with
  | nil =>
    have hline := (h first List.mem_cons_self).2
    rw [plainLines, escapeChars_spelled hset hline, List.map_singleton, PlainLine.text?,
      hlast first rfl]
    rfl
  | cons next rest ih =>
    obtain ⟨⟨hspace, hline⟩, hrest⟩ := List.forall_mem_cons.1 h
    have ih := ih hrest fun last hmem => hlast last (by rwa [List.getLast?_cons_cons])
    have hnext := (hrest next List.mem_cons_self).1
    rw [List.map_cons, List.map_cons, joined, ← List.map_cons, plainLines, ih, eventSpelled_append,
      eventSpelled_append]
    cases hempty : first.emptyLine with
    | true =>
      rw [if_pos rfl, PlainLine.text?, if_pos hempty]
      rfl
    | false =>
      rw [if_neg Bool.false_ne_true, escapeChars_spelled hset hline, hspace, hnext, hempty]
      refine congrArg Except.ok ?_
      dsimp only
      congr 2
      · rw [PlainLine.text?, hempty]
        rfl
      · simp only [PlainLine.text?, hempty]
        cases next.emptyLine <;> rfl

theorem quoteText_spelled {kind : QuoteKind} {line : QuoteLine} (h : LegibleLine kind line) :
    quoteText kind true line.view = .ok (eventSpelled line.view) := by
  have hset : ∀ c ∈ quoteEscape kind true, c ∈ eventEscapes := by
    cases kind <;> simp [quoteEscape, eventEscapes]
  have hmark : kind.mark ∉ eventSpelled line.view := by
    intro hmem
    obtain ⟨c, hc, hmem⟩ := List.mem_flatMap.1 hmem
    rcases mem_eventChar hmem with ⟨heq, -⟩ | hmark
    · exact h.unquoted (heq ▸ hc)
    · cases kind <;> exact absurd hmark (by decide)
  rw [quoteText, escapeChars_spelled hset h.verbatim]
  refine congrArg Except.ok ?_
  cases kind with
  | double => exact replaceAll_of_not_mem (backslash, quote) hmark quote
  | single => exact replaceAll_of_not_mem (0x27, 0x27) hmark 0x27

/-- What the loop writes for a last line of no text, behind another one. -/
def spaceBefore (first : Bool) (lines : List QuoteLine) : Text :=
  if first = false ∧ lines = [.block []] then [0x20] else []

theorem space_between {kind : QuoteKind} (hlast : view.getLast? ≠ some backslash)
    (hnext : LegibleLine kind next) (hrest : TextBeside false (next :: rest)) :
    (if next.view ≠ [] ∧ view.getLast? ≠ some backslash then [0x20] else []) ++
        spaceBefore false (next :: rest) =
      eventSpelled (if (QuoteLine.block view).text?.isSome ∧ next.text?.isSome then [0x20] else []) := by
  cases next with
  | error msg => exact absurd rfl (hnext.accepted msg)
  | empty => rfl
  | block text =>
    cases text with
    | cons c text =>
      have htext : (QuoteLine.block (c :: text)).view ≠ [] := List.cons_ne_nil c text
      have hbefore : spaceBefore false (.block (c :: text) :: rest) = [] := by
        refine if_neg fun hboth => ?_
        cases hboth.2
      rw [hbefore, if_pos ⟨htext, hlast⟩]
      rfl
    | nil =>
      cases rest with
      | nil => rfl
      | cons => exact absurd (hrest.1 rfl).1 Bool.false_ne_true

theorem block_ne_empty (view : Text) : QuoteLine.block view ≠ .empty := by
  intro h
  cases h

theorem quoteLoop_joined {kind : QuoteKind} (first : Bool) {lines : List QuoteLine}
    (h : ∀ line ∈ lines, LegibleLine kind line) (hbeside : TextBeside first lines) :
    quoteLoop kind true first lines =
      .ok (spaceBefore first lines ++ eventSpelled (joined (lines.map QuoteLine.text?))) := by
  induction lines generalizing first with
  | nil => cases first <;> rfl
  | cons line lines ih =>
    obtain ⟨hline, hlines⟩ := List.forall_mem_cons.1 h
    cases lines with
    | nil =>
      rw [quoteLoop, quoteText_spelled hline]
      cases line with
      | error msg => exact absurd rfl (hline.accepted msg)
      | empty => cases first <;> rfl
      | block view =>
        rw [if_neg (block_ne_empty view), spaceBefore]
        cases view with
        | nil => cases first <;> rfl
        | cons c view =>
          rw [if_neg fun hboth => List.cons_ne_nil c view hboth.1,
            if_neg fun hboth => by cases hboth.2]
          rfl
    | cons next rest =>
      obtain ⟨hblank, hnext, hrest⟩ := hbeside
      have ih := ih false hlines hrest
      have hbefore : next.view ≠ [] ∨ line.view = [] → spaceBefore false (next :: rest) = [] := by
        intro hcases
        refine if_neg fun hboth => ?_
        obtain ⟨rfl, rfl⟩ := List.cons.inj hboth.2
        rcases hcases with hview | hview
        · exact hview rfl
        · exact hnext rfl hview
      have hstart : spaceBefore first (line :: next :: rest) = [] :=
        if_neg fun hboth => List.cons_ne_nil next rest (List.cons.inj hboth.2).2
      rw [hstart, List.nil_append, List.map_cons, List.map_cons, joined, ← List.map_cons,
        eventSpelled_append, eventSpelled_append, quoteLoop, ih, quoteText_spelled hline]
      cases line with
      | error msg => exact absurd rfl (hline.accepted msg)
      | empty =>
        rw [if_pos rfl, hbefore (.inr rfl)]
        rfl
      | block view =>
        rw [if_neg (block_ne_empty view)]
        cases view with
        | nil =>
          obtain ⟨rfl, hview⟩ := hblank rfl
          rw [if_pos rfl, hbefore (.inl hview)]
          cases next with
          | block view => rfl
          | empty => exact absurd rfl hview
          | error msg => exact absurd rfl hview
        | cons c view =>
          have hview : (QuoteLine.block (c :: view)).view ≠ [] := List.cons_ne_nil c view
          rw [if_neg hview]
          refine congrArg Except.ok ?_
          have hlast : (c :: view).getLast? ≠ some backslash := hline.last
          rw [← space_between hlast (hlines next List.mem_cons_self) hrest]
          simp only [List.append_assoc]
          rfl

theorem quote_not_mem_lineFeeds (n : Nat) : quote ∉ lineFeeds n :=
  fun hmem => absurd (List.eq_of_mem_replicate hmem) (by decide)

theorem quote_not_mem_yamlLines (kind : BlockKind) (chomp : Chomp)
    (h : ∀ x ∈ content, quote ∉ x.text) : quote ∉ yamlLines kind chomp content := by
  induction content with
  | nil => exact List.not_mem_nil
  | cons x rest ih =>
    obtain ⟨hx, hrest⟩ := List.forall_mem_cons.1 h
    cases rest with
    | nil =>
      have hfinal : quote ∉ yamlFinal chomp x := by
        cases chomp with
        | strip => exact List.not_mem_nil
        | clip => exact quote_not_mem_lineFeeds 1
        | keep => exact quote_not_mem_lineFeeds _
      exact List.not_mem_append hx hfinal
    | cons y rest =>
      have hbetween : quote ∉ yamlBetween kind x y := by
        unfold yamlBetween
        repeat' split
        · exact quote_not_mem_lineFeeds _
        · exact quote_not_mem_lineFeeds _
        · decide
        · exact quote_not_mem_lineFeeds _
      exact List.not_mem_append (List.not_mem_append hx hbetween) (ih hrest)

theorem spelled_eq (h : quote ∉ text) : spelled text = eventSpelled text := by
  refine List.flatMap_congr fun c hc => ?_
  have hquote : c ≠ quote := fun heq => h (heq ▸ hc)
  by_cases hplain : c ∈ eventEscapes
  · rcases mem_eventEscapes.1 hplain with rfl | rfl | rfl | rfl <;> rfl
  · have hmem : c ∉ blockEscape false := by
      simp only [mem_eventEscapes, not_or] at hplain
      simp [blockEscape, hplain, hquote]
    rw [eventChar_plain hplain, piece, if_neg hmem]
    conv_rhs => rw [← spaced_plain hplain]
    split <;> rfl

theorem blockToString_spelled (kind : BlockKind) (indent : Nat) (chomp : Chomp)
    (h : ∀ line ∈ lines, PlainText line)
    (hfolds : kind = .folded → Folds chomp (gather indent lines).2) :
    blockToString true (.block kind indent chomp lines) =
      .ok (eventSpelled (yamlContent kind indent chomp lines)) := by
  have hquote : quote ∉ yamlContent kind indent chomp lines := by
    rw [yamlContent]
    dsimp only
    split
    · exact List.not_mem_nil
    · exact List.not_mem_append (quote_not_mem_lineFeeds _)
        (quote_not_mem_yamlLines kind chomp fun x hx => (plain_gather h x hx).not_mem (by decide))
  rw [blockToString_eq true kind indent chomp h, (writtenContent_iff kind indent chomp h).2 hfolds,
    spelled_eq hquote]

theorem Content.scalar_meant {content : Content} (h : content.LegibleScalar) :
    content.scalar.1 = content.meant.1 ∧ content.scalar.2 = .ok (eventSpelled content.meant.2) := by
  have hset : ∀ c ∈ [backslash], c ∈ eventEscapes := by simp [eventEscapes]
  cases content with
  | mapping flow items => exact ⟨rfl, rfl⟩
  | sequence flow items => exact ⟨rfl, rfl⟩
  | empty => exact ⟨rfl, rfl⟩
  | value view => exact ⟨rfl, escapeChars_spelled hset h⟩
  | basic kind view =>
    cases kind with
    | null => exact ⟨rfl, rfl⟩
    | _ => exact ⟨rfl, escapeChars_spelled hset h⟩
  | plain first rest => exact ⟨rfl, plainLines_joined h.1 h.2⟩
  | quoted kind first rest =>
    have hquoted := quoteLoop_joined true h.1 h.2
    cases kind with
    | double => exact ⟨rfl, hquoted⟩
    | single => exact ⟨rfl, hquoted⟩
  | block scalar => exact ⟨rfl, blockToString_spelled _ _ _ h.1 h.2⟩
  | «alias» name => exact ⟨rfl, rfl⟩

theorem eventTag_full (handle : Bytes) (h : Escapes name) :
    eventTag handle name = .ok (fullTag handle name) := by
  rw [eventTag, unescape_escapes h]
  refine congrArg Except.ok ?_
  dsimp only [fullTag]
  split
  · rfl
  · rw [← List.cons_append, ← List.cons_append]
    rfl

theorem attributesOf_meant (h : LegibleProperties properties) :
    typeProperties properties = [] ∧ attributesOf properties = .ok (meantAttributes properties) := by
  have htag : ∀ view handle name, Property.tag view handle name ∈ properties →
      eventTag handle name = .ok (fullTag handle name) := fun view handle name hmem =>
    eventTag_full handle (h.escapes view handle name hmem)
  have heach := h.oneEach
  match properties with
  | [] => exact ⟨rfl, rfl⟩
  | [.anchor view name] => exact ⟨rfl, rfl⟩
  | [.tag view handle name] =>
    refine ⟨rfl, ?_⟩
    simp only [attributesOf, takeProperties, takeAnchor, takeTag, htag view handle name (by simp)]
    rfl
  | [.anchor _ _, .tag view handle name] =>
    refine ⟨rfl, ?_⟩
    simp only [attributesOf, takeProperties, takeAnchor, takeTag, htag view handle name (by simp)]
    rfl
  | .anchor .. :: .anchor .. :: rest | .tag .. :: .tag .. :: rest =>
    cases rest <;> cases heach
  | [.tag view handle name, .anchor _ _] =>
    refine ⟨rfl, ?_⟩
    simp only [attributesOf, takeProperties, takeAnchor, takeTag, htag view handle name (by simp)]
    rfl

theorem writeEvent_scalar (newline : Bytes) {properties : List Property} {content : Content}
    (hproperties : LegibleProperties properties) (h : content.LegibleScalar) :
    ((attributesOf properties).bind fun attributes => (eventText content.scalar.2).map fun text =>
        patternBytes "=VAL" ++ attributes.text ++ [0x20, content.scalar.1] ++ text ++ newline) =
      .ok (eventsText newline (EventTree.leaf (.value (meantAttributes properties) content.meant.1
        content.meant.2) : YamlTree).events) := by
  obtain ⟨hmark, htext⟩ := Content.scalar_meant h
  rw [(attributesOf_meant hproperties).2, hmark, htext, eventsText_leaf, EventLeaf.line]
  rfl

mutual

theorem writeEvent_tree (newline : Bytes) : ∀ node : Node, LegibleNode node →
    writeEvent newline node = .ok (eventsText newline (eventTree node).events)
  | ⟨properties, content⟩, h => by
    have htypes : typeProperties properties = [] := by
      cases content with
      | «alias» name =>
        obtain ⟨rfl, -⟩ := h
        rfl
      | _ => exact (attributesOf_meant h.1).1
    rw [writeEvent, htypes, eventTree]
    exact writeContentEvent_tree newline properties content h

theorem writeContentEvent_tree (newline : Bytes) (properties : List Property) :
    ∀ content : Content, LegibleContent properties content →
      writeContentEvent newline properties content =
        .ok (eventsText newline (contentTree properties content).events)
  | .mapping flow items, h => by
    rw [writeContentEvent, contentTree, (attributesOf_meant h.1).2,
      writeItemEvents_tree newline items h.2, eventsText_node, EventStart.line, EventStop.line]
    rfl
  | .sequence flow items, h => by
    rw [writeContentEvent, contentTree, (attributesOf_meant h.1).2,
      writeNodeEvents_tree newline items h.2, eventsText_node, EventStart.line, EventStop.line]
    rfl
  | .alias name, h => by
    obtain ⟨rfl, -⟩ := h
    rw [writeContentEvent, contentTree, eventsText_leaf]
    rfl
  | .empty, h | .value _, h | .basic _ _, h | .plain _ _, h | .quoted _ _ _, h | .block _, h => by
    rw [writeContentEvent.eq_def, contentTree.eq_def]
    exact writeEvent_scalar newline h.1 h.2

theorem writeItemEvents_tree (newline : Bytes) : ∀ items : List MappingItem, LegibleItems items →
    writeItemEvents newline items = .ok (eventsText newline (EventTree.eventsAll (itemTrees items)))
  | [], _ => rfl
  | ⟨key, value⟩ :: items, h => by
    rw [writeItemEvents, itemTrees, writeEvent_tree newline key h.1,
      writeEvent_tree newline value h.2.1, writeItemEvents_tree newline items h.2.2,
      eventsText_cons, eventsText_cons, ← List.append_assoc]
    rfl

theorem writeNodeEvents_tree (newline : Bytes) : ∀ nodes : List Node, LegibleNodes nodes →
    writeNodeEvents newline nodes = .ok (eventsText newline (EventTree.eventsAll (nodeTrees nodes)))
  | [], _ => rfl
  | node :: nodes, h => by
    rw [writeNodeEvents, nodeTrees, writeEvent_tree newline node h.1,
      writeNodeEvents_tree newline nodes h.2, eventsText_cons]
    rfl

end

theorem writeDocumentEvents_tree (newline : Bytes) {documents : List (Option Document)}
    (h : ∀ document ∈ documents, ∀ d ∈ document, d.Legible) :
    writeDocumentEvents newline documents = .ok (eventsText newline
      (EventTree.eventsAll ((documents.filterMap id).map Document.tree))) := by
  induction documents with
  | nil => rfl
  | cons document documents ih =>
    obtain ⟨hdocument, hrest⟩ := List.forall_mem_cons.1 h
    rw [writeDocumentEvents, ih hrest]
    cases document with
    | none => rfl
    | some document =>
      have htree : (List.filterMap id (some document :: documents)).map Document.tree =
        document.tree :: (documents.filterMap id).map Document.tree := rfl
      rw [writeDocumentEvent, writeEvent_tree newline document.value (hdocument document rfl).value,
        htree, eventsText_cons, Document.tree, eventsText_node, EventTree.eventsAll,
        EventTree.eventsAll, List.append_nil, EventStart.line, EventStop.line]
      refine congrArg Except.ok ?_
      simp only [List.append_assoc]

/-- For each event of the tree a line is written. -/
theorem writeStreamEvents_tree (newline : Bytes) {documents : List (Option Document)}
    (h : ∀ document ∈ documents, ∀ d ∈ document, d.Legible) :
    writeStreamEvents newline documents =
      .ok (eventsText newline (streamTree documents).events) := by
  rw [writeStreamEvents, writeDocumentEvents_tree newline h, streamTree, eventsText_node,
    EventStart.line, EventStop.line]
  rfl

end Trieste.Yaml
