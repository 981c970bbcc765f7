import Trieste.Yaml.Events

namespace Trieste.Yaml
set_option autoImplicit true
open Library Utf8
open Regex hiding backslash

def readLines (text : Bytes) : List Bytes := (text.splitOnP isBreakByte).filter (· ≠ [])

theorem readLines_breaks (h : ∀ c ∈ sep, isBreakByte c = true) (text : Bytes) :
    readLines (sep ++ text) = readLines text := by
  induction sep with
  | nil => rfl
  | cons c sep ih =>
    obtain ⟨hc, hsep⟩ := List.forall_mem_cons.1 h
    rw [← ih hsep, readLines, List.cons_append, ← List.nil_append (c :: (sep ++ text)),
      List.splitOnP_append_cons_of_forall_mem (by simp) c hc, List.filter_cons_of_neg (by simp)]
    rfl

theorem readLines_line (hline : line ≠ []) (hbreak : NoBreak line) (hsep : sep ≠ [])
    (h : ∀ c ∈ sep, isBreakByte c = true) (text : Bytes) :
    readLines (line ++ sep ++ text) = line :: readLines text := by
  obtain ⟨c, rest, rfl⟩ := List.exists_cons_of_ne_nil hsep
  obtain ⟨hc, hrest⟩ := List.forall_mem_cons.1 h
  rw [readLines, List.append_assoc, List.cons_append,
    List.splitOnP_append_cons_of_forall_mem hbreak c hc,
    List.filter_cons_of_pos (by simpa using hline)]
  exact congrArg (line :: ·) (readLines_breaks hrest text)

theorem readLines_eventsText (hsep : sep ≠ []) (h : ∀ c ∈ sep, isBreakByte c = true)
    (hes : ∀ e ∈ es, eventLine e ≠ [] ∧ NoBreak (eventLine e)) :
    readLines (eventsText sep es) = es.map eventLine := by
  induction es with
  | nil => rfl
  | cons e es ih =>
    obtain ⟨⟨hline, hbreak⟩, hes⟩ := List.forall_mem_cons.1 hes
    rw [List.map_cons, ← ih hes]
    exact readLines_line hline hbreak hsep h _

def readAnchor : Bytes → Option Bytes × Bytes
  | 0x20 :: 0x26 :: rest => (some (rest.takeWhile (· ≠ 0x20)), rest.dropWhile (· ≠ 0x20))
  | text => (none, text)

def readTag : Bytes → Option Bytes × Bytes
  | 0x20 :: 0x3C :: rest =>
    (some (0x3C :: (rest.takeWhile (· ≠ 0x3E) ++ [0x3E])), (rest.dropWhile (· ≠ 0x3E)).drop 1)
  | text => (none, text)

def readAttributes (text : Bytes) : Attributes × Bytes :=
  let (anchor, text) := readAnchor text
  let (tag, text) := readTag text
  (⟨anchor, tag⟩, text)

def readFlow (braces text : Bytes) : Bool × Bytes :=
  if braces <+: text then (true, text.drop braces.length) else (false, text)

def eventLetter (c : UInt8) : UInt8 :=
  if c = 0x6E then newline
  else if c = 0x72 then carriageReturn
  else if c = 0x74 then tab
  else c

def eventUnspelled : Bytes → Text
  | [] => []
  | [c] => [c]
  | c :: d :: rest =>
    if c = backslash then eventLetter d :: eventUnspelled rest
    else c :: eventUnspelled (d :: rest)

theorem eventUnspelled_plain (h : c ≠ backslash) (rest : Bytes) :
    eventUnspelled (c :: rest) = c :: eventUnspelled rest := by
  cases rest with
  | nil => rfl
  | cons d rest => rw [eventUnspelled, if_neg h]

theorem eventUnspelled_spelled (text : Text) : eventUnspelled (eventSpelled text) = text := by
  induction text with
  | nil => rfl
  | cons c text ih =>
    rw [eventSpelled_cons]
    by_cases hplain : c ∈ eventEscapes
    · rcases mem_eventEscapes.1 hplain with rfl | rfl | rfl | rfl <;> exact congrArg (_ :: ·) ih
    · have hc : c ≠ backslash := fun heq => hplain (mem_eventEscapes.2 (.inl heq))
      rw [eventChar_plain hplain, List.singleton_append, eventUnspelled_plain hc, ih]

theorem eventChar_noBreak (c : UInt8) : NoBreak (eventChar c) := by
  intro d hd
  rcases mem_eventChar hd with ⟨rfl, hplain⟩ | hmem
  · simp only [mem_eventEscapes, not_or] at hplain
    rw [isBreakByte, decide_eq_false hplain.2.2.2, decide_eq_false hplain.2.2.1]
    rfl
  · clear hd
    revert d
    decide +kernel

theorem eventSpelled_noBreak (text : Text) : NoBreak (eventSpelled text) := by
  intro d hd
  obtain ⟨c, -, hc⟩ := List.mem_flatMap.1 hd
  exact eventChar_noBreak c d hc

def readEvent (line : Bytes) : Option YamlEvent :=
  let rest := line.drop 4
  match line.take 4 with
  -- `+STR`, `+DOC`, `+MAP`, `+SEQ`
  | [0x2B, 0x53, 0x54, 0x52] => some (.enter .stream)
  | [0x2B, 0x44, 0x4F, 0x43] => some (.enter (.document (rest.drop 1)))
  | [0x2B, 0x4D, 0x41, 0x50] =>
    let (flow, rest) := readFlow (patternBytes " {}") rest
    some (.enter (.mapping flow (readAttributes rest).1))
  | [0x2B, 0x53, 0x45, 0x51] =>
    let (flow, rest) := readFlow (patternBytes " []") rest
    some (.enter (.sequence flow (readAttributes rest).1))
  -- `-STR`, `-DOC`, `-MAP`, `-SEQ`
  | [0x2D, 0x53, 0x54, 0x52] => some (.leave .stream)
  | [0x2D, 0x44, 0x4F, 0x43] => some (.leave (.document (rest.drop 1)))
  | [0x2D, 0x4D, 0x41, 0x50] => some (.leave .mapping)
  | [0x2D, 0x53, 0x45, 0x51] => some (.leave .sequence)
  -- `=VAL`, `=ALI`
  | [0x3D, 0x56, 0x41, 0x4C] =>
    match readAttributes rest with
    | (attributes, _ :: mark :: text) =>
      some (.leaf (.value attributes mark (eventUnspelled text)))
    | _ => none
  | [0x3D, 0x41, 0x4C, 0x49] => some (.leaf (.alias (rest.drop 2)))
  | _ => none

def readText (text : Bytes) : Option YamlTree :=
  ((readLines text).mapM readEvent).bind fun es =>
    match EventReader.readAll EventStart.fits {} es with
    | some ⟨[tree], []⟩ => some tree
    | _ => none

def Attributes.Tagged (attributes : Attributes) : Prop :=
  ∀ tag ∈ attributes.tag, ∃ body, tag = 0x3C :: (body ++ [0x3E])

/-- The marks `:`, `"`, `'`, `>` and `|`. -/
def valueMarks : Bytes := [0x3A, 0x22, 0x27, 0x3E, 0x7C]

/-- An event whose line can be read again. -/
def SoundEvent : YamlEvent → Prop
  | .leaf (.value attributes mark _) =>
    attributes.Tagged ∧ attributes.Clean ∧ mark ∈ valueMarks
  | .leaf (.alias name) => NoBreak name
  | .enter (.document mark) | .leave (.document mark) => NoBreak mark
  | .enter (.mapping _ attributes) | .enter (.sequence _ attributes) =>
    attributes.Tagged ∧ attributes.Clean
  | _ => True

def Unmarked (rest : Bytes) : Prop :=
  ∀ c text, rest = 0x20 :: c :: text → c ≠ 0x26 ∧ c ≠ 0x3C

theorem readTag_plain (h : Unmarked rest) : readTag rest = (none, rest) := by
  unfold readTag
  split
  · exact absurd rfl (h _ _ rfl).2
  · rfl

theorem readTag_body (hbody : 0x3E ∉ body) (rest : Bytes) :
    readTag ([0x20, 0x3C] ++ (body ++ [0x3E]) ++ rest) =
      (some (0x3C :: (body ++ [0x3E])), rest) := by
  have hne : ∀ c ∈ body, decide (c ≠ 0x3E) = true := fun c hc =>
    decide_eq_true fun heq => hbody (heq ▸ hc)
  show readTag (0x20 :: 0x3C :: (body ++ [0x3E] ++ rest)) = _
  rw [readTag, List.append_assoc, List.takeWhile_append_of_pos hne,
    List.dropWhile_append_of_pos hne, List.singleton_append,
    List.takeWhile_cons_of_neg (by decide), List.dropWhile_cons_of_neg (by decide),
    List.append_nil, List.drop_one, List.tail_cons]

theorem readAnchor_plain (h : ∀ text, rest ≠ 0x20 :: 0x26 :: text) :
    readAnchor rest = (none, rest) := by
  unfold readAnchor
  split
  · exact absurd rfl (h _)
  · rfl

theorem readAnchor_name (hname : 0x20 ∉ name) (hrest : rest = [] ∨ ∃ text, rest = 0x20 :: text) :
    readAnchor ([0x20, 0x26] ++ name ++ rest) = (some name, rest) := by
  have hne : ∀ c ∈ name, decide (c ≠ 0x20) = true := fun c hc =>
    decide_eq_true fun heq => hname (heq ▸ hc)
  show readAnchor (0x20 :: 0x26 :: (name ++ rest)) = _
  rw [readAnchor, List.takeWhile_append_of_pos hne, List.dropWhile_append_of_pos hne]
  rcases hrest with rfl | ⟨text, rfl⟩
  · rw [List.takeWhile_nil, List.dropWhile_nil, List.append_nil]
  · rw [List.takeWhile_cons_of_neg (by decide), List.dropWhile_cons_of_neg (by decide),
      List.append_nil]

theorem readAttributes_text {attributes : Attributes} (htagged : attributes.Tagged)
    (hclean : attributes.Clean) (hrest : rest = [] ∨ ∃ text, rest = 0x20 :: text)
    (hplain : Unmarked rest) :
    readAttributes (attributes.text ++ rest) = (attributes, rest) := by
  obtain ⟨anchor, tag⟩ := attributes
  -- what is read after the anchor
  have htag : ∃ after, (Attributes.mk none tag).text ++ rest = after ∧ readTag after = (tag, rest) ∧
      (after = [] ∨ ∃ text, after = 0x20 :: text) ∧ ∀ text, after ≠ 0x20 :: 0x26 :: text := by
    refine ⟨_, rfl, ?_⟩
    cases tag with
    | none => exact ⟨readTag_plain hplain, hrest, fun text heq => (hplain _ _ heq).1 rfl⟩
    | some tag =>
      obtain ⟨body, rfl⟩ := htagged tag rfl
      have hbody : 0x3E ∉ body := fun hmem => (hclean.tag _ rfl).2 (by
        rw [← List.cons_append, List.dropLast_concat]
        exact List.mem_cons_of_mem _ hmem)
      refine ⟨readTag_body hbody rest, .inr ⟨_, rfl⟩, fun text heq => ?_⟩
      exact absurd (List.cons.inj (List.cons.inj heq).2).1 (by decide)
  obtain ⟨after, hafter, hread, hstart, hanchor⟩ := htag
  have hname : readAnchor ((Attributes.mk anchor tag).text ++ rest) = (anchor, after) := by
    cases anchor with
    | none => exact hafter ▸ readAnchor_plain (hafter ▸ hanchor)
    | some name =>
      rw [← readAnchor_name (hclean.anchor name rfl).2 hstart, ← hafter, ← List.append_assoc]
      rfl
  rw [readAttributes, hname]
  dsimp only
  rw [hread]

theorem Attributes.text_start {attributes : Attributes} {text : Bytes}
    (htagged : attributes.Tagged) (heq : attributes.text = 0x20 :: c :: text) :
    c = 0x26 ∨ c = 0x3C := by
  obtain ⟨anchor, tag⟩ := attributes
  cases anchor with
  | some name => exact .inl (List.cons.inj (List.cons.inj heq).2).1.symm
  | none =>
    cases tag with
    | none => cases heq
    | some tag =>
      obtain ⟨body, rfl⟩ := htagged tag rfl
      exact .inr (List.cons.inj (List.cons.inj heq).2).1.symm

theorem readFlow_text {attributes : Attributes} (htagged : attributes.Tagged) (hanchor : c ≠ 0x26)
    (htag : c ≠ 0x3C) (flow : Bool) :
    readFlow [0x20, c, d] ((if flow then [0x20, c, d] else []) ++ attributes.text) =
      (flow, attributes.text) := by
  cases flow with
  | true => exact if_pos (List.prefix_append ..)
  | false =>
    refine if_neg fun ⟨text, heq⟩ => ?_
    rcases Attributes.text_start htagged heq.symm with h | h
    · exact hanchor h
    · exact htag h

theorem readMark (mark : Bytes) : (markText mark).drop 1 = mark := by
  unfold markText
  split
  · next h => rw [h]; rfl
  · rfl

theorem readAttributes_all {attributes : Attributes} (htagged : attributes.Tagged)
    (hclean : attributes.Clean) : readAttributes attributes.text = (attributes, []) := by
  have h := readAttributes_text htagged hclean (.inl rfl) fun c text heq => by cases heq
  rwa [List.append_nil] at h

theorem readEvent_value {attributes : Attributes} (htagged : attributes.Tagged)
    (hclean : attributes.Clean) (hmark : mark ∈ valueMarks) (text : Bytes) :
    readEvent (EventLeaf.line (.value attributes mark text)) =
      some (.leaf (.value attributes mark text)) := by
  have hmarks : ∀ c ∈ valueMarks, c ≠ 0x26 ∧ c ≠ 0x3C := by simp [valueMarks]
  have hread : readAttributes (attributes.text ++ ([0x20, mark] ++ eventSpelled text)) =
      (attributes, [0x20, mark] ++ eventSpelled text) :=
    readAttributes_text htagged hclean (.inr ⟨_, rfl⟩) fun c text' heq => by
      cases heq
      exact hmarks _ hmark
  have hline : EventLeaf.line (.value attributes mark text) =
      patternBytes "=VAL" ++ (attributes.text ++ ([0x20, mark] ++ eventSpelled text)) := by
    rw [EventLeaf.line, List.append_assoc, List.append_assoc]
  have hevent : ∀ rest, readEvent (patternBytes "=VAL" ++ rest) =
      match readAttributes rest with
      | (attributes, _ :: mark :: text) =>
        some (.leaf (.value attributes mark (eventUnspelled text)))
      | _ => none := fun _ => rfl
  rw [hline, hevent, hread]
  dsimp only [List.cons_append, List.nil_append]
  rw [eventUnspelled_spelled]

theorem readFlow_attributes {attributes : Attributes} (htagged : attributes.Tagged)
    (hclean : attributes.Clean) (hanchor : c ≠ 0x26) (htag : c ≠ 0x3C) (flow : Bool)
    (start : Bool → Attributes → EventStart) (kind : Bytes)
    (hevent : ∀ rest, readEvent (kind ++ rest) =
      some (.enter (start (readFlow [0x20, c, d] rest).1
        (readAttributes (readFlow [0x20, c, d] rest).2).1))) :
    readEvent (kind ++ (if flow then [0x20, c, d] else []) ++ attributes.text) =
      some (.enter (start flow attributes)) := by
  rw [List.append_assoc, hevent, readFlow_text htagged hanchor htag flow]
  dsimp only
  rw [readAttributes_all htagged hclean]

theorem readEvent_eventLine {e : YamlEvent} (h : SoundEvent e) :
    readEvent (eventLine e) = some e := by
  cases e with
  | leaf a =>
    cases a with
    | value attributes mark text => exact readEvent_value h.1 h.2.1 h.2.2 text
    | «alias» name => rfl
  | enter b =>
    cases b with
    | stream => rfl
    | document mark =>
      have hmark : readEvent (patternBytes "+DOC" ++ markText mark) =
        some (.enter (.document ((markText mark).drop 1))) := rfl
      rw [eventLine, EventStart.line, hmark, readMark]
    | mapping flow attributes =>
      exact readFlow_attributes (c := 0x7B) h.1 h.2 (by decide) (by decide) flow .mapping
        (patternBytes "+MAP") fun _ => rfl
    | sequence flow attributes =>
      exact readFlow_attributes (c := 0x5B) h.1 h.2 (by decide) (by decide) flow .sequence
        (patternBytes "+SEQ") fun _ => rfl
  | leave c =>
    cases c with
    | document mark =>
      have hmark : readEvent (patternBytes "-DOC" ++ markText mark) =
        some (.leave (.document ((markText mark).drop 1))) := rfl
      rw [eventLine, EventStop.line, hmark, readMark]
    | _ => rfl

theorem Attributes.text_noBreak {attributes : Attributes} (h : attributes.Clean) :
    NoBreak attributes.text := by
  have hoption : ∀ (before : Bytes) (text : Option Bytes), NoBreak before →
      (∀ t ∈ text, NoBreak t) → NoBreak (optionText before text) := by
    intro before text hbefore htext
    cases text with
    | none => exact .nil
    | some t => exact hbefore.append (htext t rfl)
  exact (hoption _ _ (by decide) fun anchor hanchor => (h.anchor anchor hanchor).1).append
    (hoption _ _ (by decide) fun tag htag => (h.tag tag htag).1)

theorem markText_noBreak (h : NoBreak mark) : NoBreak (markText mark) := by
  unfold markText
  split
  · exact .nil
  · exact NoBreak.append (by decide) h

theorem eventLine_noBreak {e : YamlEvent} (h : SoundEvent e) : NoBreak (eventLine e) := by
  have hflow : ∀ (flow : Bool) (braces : Bytes), NoBreak braces →
      NoBreak (if flow then braces else []) := fun flow braces h => by
    cases flow with
    | true => exact h
    | false => exact .nil
  cases e with
  | leaf a =>
    cases a with
    | value attributes mark text =>
      have hmarks : ∀ c ∈ valueMarks, NoBreak [0x20, c] := by
        simp [valueMarks, NoBreak, isBreakByte, newline, carriageReturn]
      exact NoBreak.append (.append (.append (by decide) (Attributes.text_noBreak h.2.1))
        (hmarks _ h.2.2)) (eventSpelled_noBreak text)
    | «alias» name => exact NoBreak.append (by decide) h
  | enter b =>
    cases b with
    | stream => exact (by decide : NoBreak (patternBytes "+STR"))
    | document mark => exact NoBreak.append (by decide) (markText_noBreak h)
    | mapping flow attributes =>
      exact NoBreak.append (.append (by decide) (hflow flow _ (by decide)))
        (Attributes.text_noBreak h.2)
    | sequence flow attributes =>
      exact NoBreak.append (.append (by decide) (hflow flow _ (by decide)))
        (Attributes.text_noBreak h.2)
  | leave c =>
    cases c with
    | stream => exact (by decide : NoBreak (patternBytes "-STR"))
    | document mark => exact NoBreak.append (by decide) (markText_noBreak h)
    | mapping => exact (by decide : NoBreak (patternBytes "-MAP"))
    | sequence => exact (by decide : NoBreak (patternBytes "-SEQ"))

theorem eventLine_ne_nil (e : YamlEvent) : eventLine e ≠ [] := by
  rcases e with (_ | _) | (_ | _ | _ | _) | (_ | _ | _ | _) <;>
    simp [eventLine, EventLeaf.line, EventStart.line, EventStop.line, patternBytes]

theorem fullTag_tagged (handle name : Bytes) :
    ∃ body, fullTag handle name = 0x3C :: (body ++ [0x3E]) := by
  unfold fullTag
  dsimp only
  generalize percentDecoded name = text
  split
  · next h =>
    obtain ⟨hlength, hhead, hlast⟩ := h
    cases text with
    | nil => cases hhead
    | cons c rest =>
      cases hhead
      obtain ⟨body, d, rfl⟩ := List.eq_nil_or_concat rest |>.resolve_left fun h => by
        rw [h] at hlength
        exact absurd hlength (by decide)
      rw [List.concat_eq_append, ← List.cons_append, List.getLast?_concat] at hlast
      cases hlast
      exact ⟨body, by rw [List.concat_eq_append]⟩
  · exact ⟨handle ++ text, rfl⟩

theorem meantAttributes_tagged (properties : List Property) :
    (meantAttributes properties).Tagged := by
  intro tag htag
  obtain ⟨property, -, hproperty⟩ := List.exists_of_findSome?_eq_some htag
  cases property with
  | anchor view name => cases hproperty
  | tag view handle name =>
    cases hproperty
    exact fullTag_tagged handle name

/-- Trees whose labels fit, with events that can be read again. -/
structure SoundTrees (trees : List YamlTree) : Prop where
  fits : EventTree.FitsAll EventStart.fits trees
  sound : ∀ e ∈ EventTree.eventsAll trees, SoundEvent e

theorem SoundTrees.nil : SoundTrees [] := ⟨trivial, fun _ he => absurd he List.not_mem_nil⟩

theorem SoundTrees.cons (h : SoundTrees [tree]) (h' : SoundTrees trees) :
    SoundTrees (tree :: trees) where
  fits := ⟨h.fits.1, h'.fits⟩
  sound := List.forall_mem_append.2
    ⟨fun e he => h.sound e (List.mem_append_left _ he), h'.sound⟩

theorem SoundTrees.leaf (h : SoundEvent (.leaf a)) : SoundTrees [.leaf a] :=
  ⟨⟨trivial, trivial⟩, fun _ he => List.mem_singleton.1 he ▸ h⟩

theorem SoundTrees.node (h : SoundTrees trees) (hfits : EventStart.fits b c = true)
    (hstart : SoundEvent (.enter b)) (hstop : SoundEvent (.leave c)) :
    SoundTrees [.node b c trees] where
  fits := ⟨⟨hfits, h.fits⟩, trivial⟩
  sound := by
    rw [EventTree.eventsAll, EventTree.events]
    refine List.forall_mem_append.2 ⟨List.forall_mem_cons.2 ⟨hstart, ?_⟩, fun _ he =>
      absurd he List.not_mem_nil⟩
    exact List.forall_mem_append.2 ⟨h.sound, fun _ he => List.mem_singleton.1 he ▸ hstop⟩

theorem Content.meant_mark (content : Content) : content.meant.1 ∈ valueMarks := by
  unfold meant valueMarks
  split
  case h_11 => dsimp only; split <;> simp
  all_goals simp

mutual

theorem eventTree_sound : ∀ node : Node, LegibleNode node → SoundTrees [eventTree node]
  | ⟨properties, content⟩, h => contentTree_sound properties content h

theorem contentTree_sound (properties : List Property) : ∀ content : Content,
    LegibleContent properties content → SoundTrees [contentTree properties content]
  | .mapping flow items, h => by
    have hitems := itemTrees_sound items h.2
    exact hitems.node rfl ⟨meantAttributes_tagged properties, h.1.clean⟩ trivial
  | .sequence flow items, h => by
    have hitems := nodeTrees_sound items h.2
    exact hitems.node rfl ⟨meantAttributes_tagged properties, h.1.clean⟩ trivial
  | .alias name, h => .leaf h.2
  | .empty, h | .value _, h | .basic _ _, h | .plain _ _, h | .quoted _ _ _, h | .block _, h => by
    rw [contentTree.eq_def]
    exact .leaf ⟨meantAttributes_tagged properties, h.1.clean, Content.meant_mark _⟩

theorem itemTrees_sound : ∀ items : List MappingItem, LegibleItems items →
    SoundTrees (itemTrees items)
  | [], _ => .nil
  | ⟨key, value⟩ :: items, h =>
    (eventTree_sound key h.1).cons ((eventTree_sound value h.2.1).cons (itemTrees_sound items h.2.2))

theorem nodeTrees_sound : ∀ nodes : List Node, LegibleNodes nodes → SoundTrees (nodeTrees nodes)
  | [], _ => .nil
  | node :: nodes, h => (eventTree_sound node h.1).cons (nodeTrees_sound nodes h.2)

end

theorem streamTree_sound {documents : List (Option Document)}
    (h : ∀ document ∈ documents, ∀ d ∈ document, d.Legible) :
    SoundTrees [streamTree documents] := by
  have hall : ∀ d ∈ documents.filterMap id, d.Legible := by
    intro d hd
    obtain ⟨document, hmem, heq⟩ := List.mem_filterMap.1 hd
    exact h document hmem d heq
  have htrees : SoundTrees ((documents.filterMap id).map Document.tree) := by
    generalize documents.filterMap id = ds at hall
    induction ds with
    | nil => exact .nil
    | cons d ds ih =>
      obtain ⟨hd, hds⟩ := List.forall_mem_cons.1 hall
      have htree := (eventTree_sound d.value hd.value).node
        (b := .document d.start) (c := .document d.finish) rfl hd.start hd.finish
      exact htree.cons (ih hds)
  exact htrees.node rfl trivial trivial

theorem mapM_readEvent {es : List YamlEvent} (h : ∀ e ∈ es, readEvent (eventLine e) = some e) :
    (es.map eventLine).mapM readEvent = some es := by
  induction es with
  | nil => rfl
  | cons e es ih =>
    obtain ⟨he, hes⟩ := List.forall_mem_cons.1 h
    rw [List.map_cons, List.mapM_cons, he, ih hes]
    rfl

/-- What is written for a stream is a line for each event of its tree, without a line break in it,
and is read as that tree again. -/
theorem readText_writeStreamEvents {sep : Bytes} (hsep : sep ≠ [])
    (hbreaks : ∀ c ∈ sep, isBreakByte c = true) {documents : List (Option Document)}
    (h : ∀ document ∈ documents, ∀ d ∈ document, d.Legible) :
    ∃ text, writeStreamEvents sep documents = .ok text ∧
      text = (streamTree documents).events.flatMap (fun e => eventLine e ++ sep) ∧
      (∀ e ∈ (streamTree documents).events, NoBreak (eventLine e)) ∧
      readLines text = (streamTree documents).events.map eventLine ∧
      readText text = some (streamTree documents) := by
  have htrees := streamTree_sound h
  have hsound : ∀ e ∈ (streamTree documents).events, SoundEvent e := fun e he =>
    htrees.sound e (List.mem_append_left _ he)
  have hnobreak : ∀ e ∈ (streamTree documents).events, NoBreak (eventLine e) := fun e he =>
    eventLine_noBreak (hsound e he)
  have hlines : readLines (eventsText sep (streamTree documents).events) =
      (streamTree documents).events.map eventLine :=
    readLines_eventsText hsep hbreaks fun e he => ⟨eventLine_ne_nil e, hnobreak e he⟩
  have hevents := mapM_readEvent fun e he => readEvent_eventLine (hsound e he)
  refine ⟨_, writeStreamEvents_tree sep h, rfl, hnobreak, hlines, ?_⟩
  rw [readText, hlines, hevents, Option.bind_some,
    EventReader.readAll_events _ _ htrees.fits.1]
  rfl

def foldedScalar : BlockScalar where
  kind := .folded
  indent := 1
  chomp := .clip
  lines := [[0x20, 0x61], [0x20, 0x62]]
  lines_apart := by decide +kernel

/-- A stream with a value that has an anchor and a tag and holds scalars on several lines and its
own alias, and with a document of nothing. -/
def someDocuments : List (Option Document) :=
  [some ⟨patternBytes "---", ⟨[.anchor (patternBytes "&a !%21 [..]") (patternBytes "a"),
      .tag (patternBytes "!%21 [..]") (patternBytes "!") (patternBytes "%21")],
      .sequence true [
        ⟨[], .plain ⟨false, patternBytes "x"⟩ [⟨true, [newline]⟩, ⟨false, patternBytes "y"⟩]⟩,
        ⟨[], .quoted .double (.block [0x70, tab]) [.block []]⟩,
        ⟨[], .block foldedScalar⟩, ⟨[], .alias (patternBytes "a")⟩]⟩, []⟩, none]

theorem readText_writeStreamEvents_some : ∃ text,
    writeStreamEvents [newline] someDocuments = .ok text ∧
      text = (streamTree someDocuments).events.flatMap (fun e => eventLine e ++ [newline]) ∧
      (∀ e ∈ (streamTree someDocuments).events, NoBreak (eventLine e)) ∧
      readLines text = (streamTree someDocuments).events.map eventLine ∧
      readText text = some (streamTree someDocuments) := by
  have hfolds : Folds .clip (gather 1 [[0x20, 0x61], [0x20, 0x62]]).2 :=
    ⟨.inr (.inl ⟨by decide, by decide⟩), .inl ⟨rfl, nofun⟩⟩
  have hnone : LegibleProperties [] := ⟨trivial, by simp, by decide⟩
  have hplain : (Content.plain ⟨false, patternBytes "x"⟩ [⟨true, [newline]⟩,
      ⟨false, patternBytes "y"⟩]).LegibleScalar := by
    refine ⟨?_, by simp⟩
    simp only [List.forall_mem_cons]
    exact ⟨⟨rfl, .of_not_mem (by decide), by decide +kernel⟩,
      ⟨rfl, .of_not_mem (by decide), by decide +kernel⟩,
      ⟨rfl, .of_not_mem (by decide), by decide +kernel⟩, by simp⟩
  have hquoted : (Content.quoted .double (.block [0x70, tab]) [.block []]).LegibleScalar := by
    refine ⟨?_, by decide, by decide, trivial⟩
    simp only [List.forall_mem_cons]
    exact ⟨⟨nofun, ⟨.of_not_mem (by decide), by decide +kernel⟩, by decide, by decide⟩,
      ⟨nofun, ⟨.of_not_mem (by decide), by decide +kernel⟩, by decide, by decide⟩, by simp⟩
  have hblock : (Content.block foldedScalar).LegibleScalar :=
    ⟨by unfold PlainText; decide +kernel, fun _ => hfolds⟩
  have hescapes : Escapes (patternBytes "%21") :=
    PercentsFollowed.cons_iff.2 ⟨fun _ => ⟨0x32, 0x31, [], rfl, rfl, rfl⟩,
      (PercentsFollowed.cons_plain (by decide)).2 ((PercentsFollowed.cons_plain (by decide)).2 .nil)⟩
  have hproperties : LegibleProperties [.anchor (patternBytes "&a !%21 [..]") (patternBytes "a"),
      .tag (patternBytes "!%21 [..]") (patternBytes "!") (patternBytes "%21")] := by
    refine ⟨trivial, fun view handle name hmem => ?_, by decide⟩
    rcases List.mem_pair.1 hmem with h | h <;> cases h
    exact hescapes
  refine readText_writeStreamEvents (by decide) (by simp [isBreakByte]) ?_
  intro document hdocument d hd
  have hsome : some d ∈ someDocuments := Option.mem_def.1 hd ▸ hdocument
  obtain rfl : d = _ := by simpa [someDocuments] using hsome
  exact ⟨by decide, ⟨hproperties, ⟨hnone, hplain⟩, ⟨hnone, hquoted⟩,
    ⟨hnone, hblock⟩, ⟨rfl, by decide⟩, trivial⟩, by decide⟩

end Trieste.Yaml
