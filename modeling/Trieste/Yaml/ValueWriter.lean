import Trieste.Yaml.Lines
import Trieste.Yaml.TagName
import Trieste.Yaml.Writer

namespace Trieste.Yaml
set_option autoImplicit true
open Utf8
open Regex hiding backslash

namespace Spaces

/-- `in` -/
def into (spaces : Spaces) : Spaces := ⟨spaces.inner, spaces.inner⟩

def outerStr (spaces : Spaces) : Bytes := List.replicate spaces.outer 0x20

end Spaces

/-- What may stand around a value, with the text at the location of the node that holds both. A tag
comes with the handle that its prefix refers to. -/
inductive Property where
  | anchor (view name : Bytes)
  | tag (view handle name : Bytes)
  deriving DecidableEq

inductive BasicKind where
  | int
  | float
  | hex
  | true
  | false
  | null
  deriving DecidableEq

/-- A block scalar. A line holds no line break unless it is one. -/
structure BlockScalar where
  kind : BlockKind
  indent : Nat
  chomp : Chomp
  lines : List Bytes
  lines_apart : ∀ line ∈ lines, newline ∈ line → line = [newline]

/-- A value with the properties around it, the outermost first. -/
structure Tagged (γ : Type) where
  properties : List Property
  content : γ

structure KeyValue (ν : Type) where
  key : ν
  value : ν

/-- The values of a document. Whether a collection is one in flow style is only written to events. -/
inductive Content where
  | mapping (flow : Bool) (items : List (KeyValue (Tagged Content)))
  | sequence (flow : Bool) (items : List (Tagged Content))
  | empty
  | value (view : Bytes)
  | basic (kind : BasicKind) (view : Bytes)
  | plain (first : PlainLine) (rest : List PlainLine)
  | quoted (kind : QuoteKind) (first : QuoteLine) (rest : List QuoteLine)
  | block (scalar : BlockScalar)
  | alias (name : Bytes)

abbrev Node := Tagged Content

abbrev MappingItem := KeyValue Node

namespace Content

def isEmpty : Content → Bool
  | empty => true
  | _ => false

def isNull : Content → Bool
  | basic .null _ => true
  | _ => false

end Content

/-- `is_complex` -/
def KeyValue.isComplex (item : MappingItem) : Bool :=
  match item.key.content with
  | .mapping _ items => !items.isEmpty
  | .sequence _ items => !items.isEmpty
  | .block _ => true
  | .quoted .double first rest => (first :: rest).any fun line => line.view.contains 0x3A
  | _ => false

/-- Whether the node is an `Empty` itself. -/
def Tagged.isEmpty (node : Node) : Bool := node.properties.isEmpty && node.content.isEmpty

def Tagged.isNull (node : Node) : Bool := node.properties.isEmpty && node.content.isNull

/-- What holds a value. -/
inductive Place where
  | document
  | sequence (inItem : Bool)
  | item (complex : Bool)
  deriving DecidableEq

/-- `is_in` for the items of mappings -/
def Place.inItem : Place → Bool
  | document => false
  | sequence inItem => inItem
  | item _ => true

/-- `is_sequence_out`, which looks behind two properties only. -/
def isSequenceOut (place : Place) (properties : List Property) : Bool :=
  if 2 < properties.length then true
  else
    match place with
    | .document => !properties.isEmpty
    | .sequence _ => false
    | .item complex => !properties.isEmpty || !complex

/-- The tag that is written for a handle and the name of a tag. -/
def tagText (handle name : Bytes) : Except UrlFault Bytes :=
  (unescapeUrlChars name).map fun tagname =>
    if handle = patternBytes "!" then
      let tagname :=
        if patternBytes "<tag:yaml.org,2002:" <+: tagname then
          patternBytes "!" ++ (tagname.drop 19).dropLast
        else if patternBytes "<!" <+: tagname then (tagname.drop 2).dropLast
        else tagname
      patternBytes "!" ++ tagname
    else if handle = patternBytes "tag:yaml.org,2002:" then patternBytes "!!" ++ tagname
    else
      patternBytes "!" ++
        if 2 ≤ tagname.length ∧ tagname.head? = some 0x3C ∧ tagname.getLast? = some 0x3E then tagname
        else patternBytes "<" ++ handle ++ tagname ++ patternBytes ">"

def takeAnchor : List Property → Option Bytes × List Property
  | .anchor _ name :: rest => (some name, rest)
  | properties => (none, properties)

/-- The outermost tag, as it is written for its handle and its name. -/
def takeTag (tagText : Bytes → Bytes → Except UrlFault Bytes) :
    List Property → Except UrlFault (Option Bytes × List Property)
  | .tag _ handle name :: rest => (tagText handle name).map fun text => (some text, rest)
  | properties => .ok (none, properties)

/-- The anchor and the tag of `handle_tag_anchor`, and the properties that it leaves. -/
def takeProperties (tagText : Bytes → Bytes → Except UrlFault Bytes) (properties : List Property) :
    Except UrlFault ((Option Bytes × Option Bytes) × List Property) :=
  let (anchor, properties) := takeAnchor properties
  (takeTag tagText properties).map fun (tag, properties) =>
    let (inner, properties) := takeAnchor properties
    ((inner.or anchor, tag), properties)

/-- `handle_tag_anchor`: what it writes, and the properties of the value that it returns. -/
def handleTagAnchor (options : WriteOptions) (place : Place) (spaces : Spaces) (node : Node) :
    Except UrlFault (Bytes × List Property) :=
  (takeProperties tagText node.properties).map fun ((anchor, tag), left) =>
    let text :=
      match anchor, tag with
      | none, none => []
      | some anchor, none => patternBytes "&" ++ anchor
      | none, some tag => tag
      | some anchor, some tag => patternBytes "&" ++ anchor ++ patternBytes " " ++ tag
    let next :=
      match left, node.content with
      | [], .mapping .. => options.newline ++ spaces.innerStr
      | [], .sequence .. =>
        options.newline ++
          if isSequenceOut place node.properties then spaces.outerStr else spaces.innerStr
      | [], .empty => []
      | _, _ => patternBytes " "
    (text ++ next, left)

/-- What is written so far, the context of the thread, and whether the document ends with a mark. -/
structure Output where
  os : Bytes
  ctx : MatchContext
  emitDocend : Bool

def Output.put (w : Output) (text : Bytes) : Output := { w with os := w.os ++ text }

/-- How writing stops: with an exception, or at a value that is not recognized, where the functions
return true. -/
inductive Stop where
  | throws (e : UrlFault)
  | unrecognized (w : Output)

def decimal (n : Nat) : Bytes := (Nat.toDigits 10 n).map Char.toUInt8

section Write
variable (self : String → Nat)

/-- The indicator for the indentation in the header of a block scalar. -/
def blockIndicator (options : WriteOptions) (inItem : Bool) (str : Bytes) : Bytes :=
  let start :=
    if options.newline <+: str then
      (str.findIdx? fun c => !options.newline.contains c).map (· + options.indent)
    else some 0
  match start with
  | none => if inItem then decimal options.indent else []
  | some start =>
    if str[start]? = some 0x20 ∨ 0 < start ∧ str[start]? = some 0x23 then decimal options.indent
    else []

/-- Whether the text of a block scalar ends with a line break that its header has to keep. -/
def keepsBreaks (options : WriteOptions) (str : Bytes) : Bool :=
  let len := options.newline.length
  (2 * len ≤ str.length && (str.drop (str.length - 2 * len)).take len == options.newline) ||
    str == options.newline

/-- `write_block` -/
def writeBlock (options : WriteOptions) (inItem : Bool) (spaces : Spaces) (block : BlockScalar)
    (w : Output) : Except Stop Output :=
  match blockToString false (.block block.kind block.indent block.chomp block.lines) with
  | .error e => .error (.throws (.throws e))
  | .ok text =>
    let indent := (spaces.out.indent options.indent).innerStr
    let kind : ScalarKind := if block.kind = .folded then .folded else .literal
    let (str, ctx) := unescapeBlock self kind options indent text w.ctx
    let w := { w with ctx }
    if str = [] then .ok (w.put (patternBytes "\"\"" ++ options.newline))
    else
      let keeps : Bool := block.chomp = .keep && keepsBreaks options str
      let header :=
        (if block.kind = .folded then patternBytes ">" else patternBytes "|") ++
          blockIndicator options inItem str ++
          (if block.chomp = .strip then patternBytes "-" else []) ++
          if keeps then patternBytes "+" else []
      let w := { w with emitDocend := keeps }
      let w := w.put (header ++ options.newline)
      let w := if options.newline <+: str then w else w.put indent
      let w := w.put str
      .ok (if block.chomp = .strip then w.put options.newline else w)

/-- What `write_value` writes for a quoted scalar. -/
def quotedToString (options : WriteOptions) (spaces : Spaces) (kind : QuoteKind)
    (lines : List QuoteLine) (ctx : MatchContext) : Except Utf8.Exception (Bytes × MatchContext) :=
  (quoteToString kind false lines).map fun text =>
    match kind with
    | .single =>
      let indent := (spaces.out.indent options.indent).innerStr
      let s := unescapeBlock self .singleQuote options indent text ctx
      let s := replaceIn (self "'") "'" (patternBytes "''") s
      ([0x27] ++ s.1 ++ [0x27], s.2)
    | .double => (quoted (escapeUnicode text), ctx)

def writeText (options : WriteOptions) (w : Output)
    (text : Except Utf8.Exception (Bytes × MatchContext)) : Except Stop Output :=
  match text with
  | .error e => .error (.throws (.throws e))
  | .ok (text, ctx) => .ok ({ w with ctx }.put (text ++ options.newline))

def beforeValue (options : WriteOptions) (spaces : Spaces) (value : Node) : Bytes :=
  match value.properties, value.content with
  | [], .mapping _ (_ :: _) => options.newline ++ spaces.innerStr
  | [], .sequence _ (_ :: _) =>
    options.newline ++
      if isSequenceOut (.item false) [] then spaces.outerStr else spaces.innerStr
  | [], .empty => []
  | _, _ => patternBytes " "

/-- The text of a key that is not written as a value. -/
def keyText (options : WriteOptions) (spaces : Spaces) (key : Node) : Option (Except UrlFault Bytes) :=
  match key.properties, key.content with
  | [], .alias name => some (.ok (patternBytes "*" ++ name ++ patternBytes " "))
  | [], .value view =>
    if view.getLast? = some 0x3A then some (.ok ([0x27] ++ view ++ [0x27])) else none
  | _ :: _, .empty =>
    some ((handleTagAnchor options (.item false) spaces key).map fun result =>
      result.1 ++ patternBytes " ")
  | _, _ => none

/-- The properties of a value that `write_value` is called for. -/
def writeProperties (options : WriteOptions) (place : Place) (spaces : Spaces) (node : Node)
    (w : Output) : Except Stop Output :=
  if node.properties = [] then .ok w
  else
    match handleTagAnchor options place spaces node with
    | .error e => .error (.throws e)
    | .ok (text, []) => .ok (w.put text)
    | .ok (text, property :: _) =>
      let name := match property with
        | .anchor .. => patternBytes "yaml-anchorvalue"
        | .tag .. => patternBytes "yaml-tagvalue"
      .error (.unrecognized (w.put (text ++ patternBytes "<error: unrecognized value node type: " ++
        name ++ patternBytes ">")))

mutual

/-- `write_value` -/
def writeValue (options : WriteOptions) (place : Place) (spaces : Spaces) :
    Node → Output → Except Stop Output
  | ⟨properties, content⟩, w =>
    (writeProperties options place spaces ⟨properties, content⟩ w).bind fun w =>
      writeContent options place spaces properties content w

/-- `write_value` behind the properties -/
def writeContent (options : WriteOptions) (place : Place) (spaces : Spaces)
    (properties : List Property) : Content → Output → Except Stop Output
  | .mapping _ items, w =>
    if items.isEmpty then .ok (w.put (patternBytes "{}" ++ options.newline))
    else writeItems options spaces false items w
  | .sequence _ items, w =>
    let spaces := if isSequenceOut place properties then spaces.out else spaces
    if items.isEmpty then .ok (w.put (patternBytes "[]" ++ options.newline))
    else writeSequence options place.inItem (spaces.into.indent 2) false items w
  | .empty, w => .ok (w.put options.newline)
  | .value view, w => .ok (w.put (valueToString view ++ options.newline))
  | .basic _ view, w => .ok (w.put (view ++ options.newline))
  | .plain first rest, w =>
    writeText options w (plainToString self options spaces
      (decide (place = .document ∧ properties = [])) first rest w.ctx)
  | .quoted kind first rest, w =>
    writeText options w (quotedToString self options spaces kind (first :: rest) w.ctx)
  | .block scalar, w =>
    writeBlock self options place.inItem (spaces.indent options.indent) scalar w
  | .alias name, w => .ok (w.put (patternBytes "*" ++ name ++ options.newline))

/-- The loop of `write_sequence`. -/
def writeSequence (options : WriteOptions) (inItem : Bool) (spaces : Spaces) :
    Bool → List Node → Output → Except Stop Output
  | _, [], w => .ok w
  | notFirst, item :: items, w =>
    let w := w.put ((if notFirst then spaces.outerStr else []) ++ patternBytes "-" ++
      if item.isEmpty then [] else patternBytes " ")
    (writeValue options (.sequence inItem) spaces item w).bind fun w =>
      writeSequence options inItem spaces true items w

/-- The loop of `write_mapping`. An item with a question mark does not count as the first one. -/
def writeItems (options : WriteOptions) (spaces : Spaces) :
    Bool → List MappingItem → Output → Except Stop Output
  | _, [], w => .ok w
  | notFirst, item :: items, w =>
    (writeItem options spaces item (w.put (if notFirst then spaces.innerStr else []))).bind fun w =>
      writeItems options spaces (notFirst || !item.isComplex) items w

/-- An item behind its indentation: `write_complex`, or a key and its value on a line. -/
def writeItem (options : WriteOptions) (spaces : Spaces) :
    MappingItem → Output → Except Stop Output
  | ⟨key, value⟩, w =>
    if KeyValue.isComplex ⟨key, value⟩ then
      let w := w.put (patternBytes "? ")
      (writeValue options (.item true) (spaces.into.indent 2) key w).bind fun w =>
        if value.isNull then .ok w
        else
          let w := w.put (spaces.innerStr ++ patternBytes ":" ++
            if value.isEmpty then [] else patternBytes " ")
          writeValue options (.item true) (spaces.into.indent 2) value w
    else
      let newSpaces := spaces.into.indent options.indent
      let written : Except Stop Output :=
        match keyText options spaces key with
        | some (.error e) => .error (.throws e)
        | some (.ok text) => .ok (w.put text)
        | none => writeValue ⟨[], 0, false⟩ (.item false) spaces key w
      written.bind fun w =>
        writeValue options (.item false) newSpaces value
          (w.put (patternBytes ":" ++ beforeValue options newSpaces value))

end

/-- `write_mapping` -/
def writeMapping (options : WriteOptions) (spaces : Spaces) (items : List MappingItem) (w : Output) :
    Except Stop Output :=
  if items.isEmpty then .ok (w.put (patternBytes "{}" ++ options.newline))
  else writeItems self options spaces false items w

end Write

end Trieste.Yaml
