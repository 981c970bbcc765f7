import Trieste.Parse.Make
import Trieste.Regex.RegexSet
import Trieste.Regex.Tree
import Trieste.Yaml.Scalar

namespace Trieste
set_option autoImplicit true

namespace Token

def yamlStream : Token := ⟨"yaml-stream", Flag.symtab ||| Flag.defbeforeuse⟩
def yamlUnknownDirective : Token := ⟨"yaml-unknowndirective", Flag.print⟩
def yamlVersionDirective : Token := ⟨"yaml-versiondirective", Flag.print⟩
def yamlTagDirective : Token := ⟨"yaml-tagdirective", Flag.lookup ||| Flag.shadowing⟩
def yamlTagPrefix : Token := ⟨"yaml-tagprefix", Flag.print⟩
def yamlTagHandle : Token := ⟨"yaml-taghandle", Flag.print⟩
def yamlDocument : Token := ⟨"yaml-document", Flag.symtab ||| Flag.defbeforeuse⟩
def yamlDocumentStart : Token := ⟨"yaml-docstart", Flag.print⟩
def yamlDocumentEnd : Token := ⟨"yaml-docend", Flag.print⟩
def yamlKey : Token := ⟨"yaml-key", 0⟩
def yamlValue : Token := ⟨"yaml-value", Flag.print⟩
def yamlSingleQuote : Token := ⟨"yaml-singlequote", 0⟩
def yamlDoubleQuote : Token := ⟨"yaml-doublequote", 0⟩
def yamlLiteral : Token := ⟨"yaml-literal", 0⟩
def yamlFolded : Token := ⟨"yaml-folded", 0⟩
def yamlChompIndicator : Token := ⟨"yaml-chomp-indicator", Flag.print⟩
def yamlAnchor : Token := ⟨"yaml-anchor", Flag.print⟩
def yamlAlias : Token := ⟨"yaml-alias", Flag.print⟩
def yamlFlowMapping : Token := ⟨"yaml-flowmapping", 0⟩
def yamlFlowSequence : Token := ⟨"yaml-flowsequence", 0⟩
def yamlWhitespace : Token := ⟨"yaml-whitespace", Flag.print⟩
def yamlHyphen : Token := ⟨"yaml-hyphen", 0⟩
def yamlColon : Token := ⟨"yaml-colon", 0⟩
def yamlComma : Token := ⟨"yaml-comma", 0⟩
def yamlNewLine : Token := ⟨"yaml-newline", 0⟩
def yamlComment : Token := ⟨"yaml-comment", Flag.print⟩
def yamlVerbatimTag : Token := ⟨"yaml-verbatimtag", Flag.print⟩
def yamlShorthandTag : Token := ⟨"yaml-shorthandtag", Flag.print⟩
def yamlTag : Token := ⟨"yaml-tag", 0⟩
def yamlIndentIndicator : Token := ⟨"yaml-indentation-indicator", Flag.print⟩
def yamlFlowSequenceStart : Token := ⟨"yaml-flowseqstart", Flag.print⟩
def yamlFlowSequenceEnd : Token := ⟨"yaml-flowseqend", Flag.print⟩
def yamlFlowMappingStart : Token := ⟨"yaml-flowmapstart", Flag.print⟩
def yamlFlowMappingEnd : Token := ⟨"yaml-flowmapend", Flag.print⟩
def yamlMaybeDirective : Token := ⟨"yaml-maybedirective", Flag.print⟩

end Token

namespace Yaml
open Regex

inductive Mode
  | start
  | directives
  | document
  | flow
  | block
  deriving DecidableEq

/-- What the effects of one parser share, also between its parses. -/
structure Shared where
  anchors : List Bytes := []
  flowLevel : UInt64 := 0
  blockIndent : Nat := 0

/-- A parse: `Make`, its mode and its match, and the position of its iterator. -/
structure Lexer where
  make : Make
  mode : Mode := .start
  reMatch : TRegexMatch
  pos : Nat := 0
  shared : Shared

namespace Lexer

/-- `match` -/
def loc (s : Lexer) (index : Nat) : Location := (s.reMatch.location index).getD {}

/-- The bytes of a location of the source with the given text. -/
def view (text : Bytes) (l : Location) : Bytes := (text.drop l.pos).take l.len

end Lexer

/-- `is_ws` -/
def isWs (c : UInt8) : Bool := c = 0x20 || c = tab || c = newline || c = carriageReturn

/-- `is_alias_key` -/
def isAliasKey (anchors : List Bytes) (query : Bytes) : Bool :=
  anchors.contains (('&'.toUInt8 :: query.tail).reverse.dropWhile isWs).reverse

/-- What an effect tests of the groups of its match. -/
inductive Cond
  | matched (index : Nat)
  | startsWith (index : Nat) (c : UInt8)
  | endsWith (index : Nat) (c : UInt8)
  | startsWithDigit (index : Nat)
  | isLong (index : Nat)
  | isAliasKey (index : Nat)
  | dedented (index : Nat)
  deriving DecidableEq

def Cond.holds (text : Bytes) (s : Lexer) : Cond → Bool
  | matched index => 0 < (s.loc index).len
  | startsWith index c => (Lexer.view text (s.loc index)).head? == some c
  | endsWith index c => (Lexer.view text (s.loc index)).getLast? == some c
  | startsWithDigit index => isAsciiDigitAt (Lexer.view text (s.loc index))
  | isLong index => 1 < (Lexer.view text (s.loc index)).length
  | isAliasKey index => Yaml.isAliasKey s.shared.anchors (Lexer.view text (s.loc index))
  | dedented index => (s.loc index).len < s.shared.blockIndent

/-- A call in an effect. -/
inductive Action
  | add (type : Token) (index : Nat)
  | push (type : Token) (index : Nat)
  | extend (type : Token) (index : Nat)
  | pop (type : Token)
  | term
  | error (msg : String) (index : Nat)
  | mode (next : Mode)
  | insertAnchor (index : Nat)
  | setFlowLevel (level : UInt64)
  | addFlowLevel
  | subFlowLevel
  | setBlockIndent (index : Nat)

namespace Action

/-- What an action asks of `Make`. -/
def op (reMatch : Nat → Location) : Action → Option MakeOp
  | add type index => some (.add type index)
  | push type index => some (.push type index)
  | extend type index => some (.extend type index)
  | pop type => some (.popType type)
  | term => some (.term [])
  | error msg index => some (.error msg (reMatch index))
  | _ => none

/-- What an action does to the rest of the lexer. -/
def update (text : Bytes) (s : Lexer) : Action → Lexer
  | mode next => { s with mode := next }
  | insertAnchor index =>
    { s with shared.anchors := Lexer.view text (s.loc index) :: s.shared.anchors }
  | setFlowLevel level => { s with shared.flowLevel := level }
  | addFlowLevel => { s with shared.flowLevel := s.shared.flowLevel + 1 }
  | subFlowLevel =>
    let level := s.shared.flowLevel - 1
    { s with shared.flowLevel := level, mode := if level = 0 then .document else s.mode }
  | setBlockIndent index => { s with shared.blockIndent := (s.loc index).len }
  | _ => s

def perform (text : Bytes) (s : Lexer) (a : Action) : Except Fault Lexer :=
  match a.op s.loc with
  | none => .ok (a.update text s)
  | some op => (op.perform s.loc s.make).map fun make => { s with make }

end Action

/-- The body of an effect. -/
inductive Effect
  | skip
  | act (a : Action)
  | seq (e e' : Effect)
  | branch (c : Cond) (yes no : Effect)

namespace Effect

def perform (text : Bytes) (s : Lexer) : Effect → Except Fault Lexer
  | skip => .ok s
  | act a => a.perform text s
  | seq e e' => (e.perform text s).bind fun s => e'.perform text s
  | branch c yes no => if c.holds text s then yes.perform text s else no.perform text s

/-- The actions that an effect performs, up to one that fails. -/
def actions (text : Bytes) (s : Lexer) : Effect → List Action
  | skip => []
  | act a => [a]
  | seq e e' =>
    e.actions text s ++ match e.perform text s with
      | .error _ => []
      | .ok s => e'.actions text s
  | branch c yes no => if c.holds text s then yes.actions text s else no.actions text s

def block (es : List Effect) : Effect := es.foldr seq skip

def when (c : Cond) (es : List Effect) : Effect := branch c (block es) skip

def add (type : Token) (index : Nat := 0) : Effect := act (.add type index)

def push (type : Token) (index : Nat := 0) : Effect := act (.push type index)

def extend (type : Token) (index : Nat := 0) : Effect := act (.extend type index)

def pop (type : Token) : Effect := act (.pop type)

def term : Effect := act .term

def error (msg : String) (index : Nat := 0) : Effect := act (.error msg index)

def mode (next : Mode) : Effect := act (.mode next)

end Effect

end Yaml

end Trieste
