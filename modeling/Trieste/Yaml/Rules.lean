import Trieste.Yaml.Effect
import Trieste.Library.Fuel

namespace Trieste.Yaml
set_option autoImplicit true
open Regex

namespace Effect

/-- `handle_indent_chomp` -/
def handleIndentChomp (index : Nat) : Effect :=
  when (.matched index) [branch (.startsWithDigit index)
    (branch (.isLong index) (error "Invalid indent")
      (branch (.startsWith index '0'.toUInt8) (error "Invalid indent")
        (add .yamlIndentIndicator index)))
    (add .yamlChompIndicator index)]

def blockScalar : Effect :=
  block [branch (.startsWith 1 '|'.toUInt8) (add .yamlLiteral) (add .yamlFolded),
    handleIndentChomp 2,
    handleIndentChomp 3,
    when (.matched 4) [error "Comment without whitespace after block scalar indicator" 4]]

def tag (parts : List Effect) : Effect :=
  block [push .yamlTag, block parts, term, pop .yamlTag]

end Effect

/-- A pattern with its effect. -/
structure Rule where
  pattern : String
  effect : Effect

section Rules
open Yaml.Effect

def startRules : List Rule :=
  [⟨"^", block [push .yamlStream, mode .directives]⟩]

def directivesRules : List Rule :=
  [⟨"[ \\t]+", skip⟩,
    ⟨"\\r?\\n", skip⟩,
    ⟨"#[^\\r\\n]*", skip⟩,
    ⟨"(%YAML[ \\t]+([0-9])\\.([0-9]))([ \\t]+[^#\\r\\n]+)?(?:[ \\t]|\\r?\\n)",
    branch (.matched 4) (error "Extra words on %YAML directive" 4) (add .yamlVersionDirective 1)⟩,
    ⟨"%YAML [^\\r\\n]*\\r?\\n", error "Invalid %YAML directive"⟩,
    ⟨"%TAG ([^\\s]+) ([^\\s]+)",
    block [push .yamlTagDirective, add .yamlTagPrefix 1, add .yamlTagHandle 2, term,
      pop .yamlTagDirective]⟩,
    ⟨"%[[:alpha:]]+[^#\\r\\n]*", add .yamlUnknownDirective 1⟩,
    ⟨"[ \\t]*\\.\\.\\.(?:\\r?\\n| )+", skip⟩,
    ⟨"[ \\t]*(---)([ \\t]+)",
    block [push .yamlDocument, add .yamlDocumentStart 1, add .yamlWhitespace 2, mode .document]⟩,
    ⟨"[ \\t]*(---)(\\r?\\n)",
    block [push .yamlDocument, add .yamlDocumentStart 1, add .yamlNewLine 2, mode .document]⟩,
    ⟨"^", block [push .yamlDocument, mode .document]⟩]

def documentRules : List Rule :=
  [⟨"([ \\t]*)(#[^\\r\\n]*)",
    block [when (.matched 1) [add .yamlWhitespace 1], add .yamlComment 2]⟩,
    ⟨"[ \\t]+", add .yamlWhitespace⟩,
    ⟨"(\\r?\\n)(#[^\\r\\n]*)", block [add .yamlNewLine 1, add .yamlComment 2]⟩,
    ⟨"\\r?\\n", add .yamlNewLine⟩,
    ⟨"(%[[:alpha:]]+(?:[ \\t]+[^\\s]+))([ \\t]+#[^\\r\\n]*)?",
    block [add .yamlMaybeDirective 1, when (.matched 2) [add .yamlComment 2]]⟩,
    ⟨"(---)(\\r?\\n|[ \\t]+)",
    block [term, pop .yamlDocument, push .yamlDocument, add .yamlDocumentStart 1,
      branch (.endsWith 2 newline) (add .yamlNewLine 2) (add .yamlWhitespace 2)]⟩,
    ⟨"(\\.\\.\\.)([ \\t]*|[ \\t]+#[^\\r\\n]*)?\\r?\\n",
    block [add .yamlDocumentEnd 1, term, pop .yamlDocument, mode .directives]⟩,
    ⟨"\\.\\.\\.\\s+([^\\r\\n]+)", error "Invalid content after document end marker" 1⟩,
    ⟨"-[ \\t]+", add .yamlHyphen⟩,
    ⟨"-$", add .yamlHyphen⟩,
    ⟨"(-)\\r?(\\n)", block [add .yamlHyphen 1, add .yamlNewLine 2]⟩,
    ⟨"\\?[ \\t]", add .yamlKey⟩,
    ⟨"(\\?)\\r?(\\n)", block [add .yamlKey 1, add .yamlNewLine 2]⟩,
    ⟨"(\\\x7b)",
    block [push .yamlFlowMapping, add .yamlFlowMappingStart, mode .flow,
      act (.setFlowLevel 1)]⟩,
    ⟨"(\\[)",
    block [push .yamlFlowSequence, add .yamlFlowSequenceStart, mode .flow,
      act (.setFlowLevel 1)]⟩,
    ⟨"([[a-zA-Z0-9\\?:-](?:[^\\s]|[^:\\r\\n] [^\\s#])*) *(:)(?:[ \\t]+|\\r?(\\n))",
    block [add .yamlValue 1, add .yamlColon 2, when (.matched 3) [add .yamlNewLine 3]]⟩,
    ⟨"(\\*([^\\[\\]\\\x7b\\\x7d\\, \\r\\n]+)(:))(?:[ \\t]+|\\r?(\\n))",
    block [branch (.isAliasKey 1) (block [add .yamlAlias 2, extend .yamlAlias 3])
        (block [add .yamlAlias 2, add .yamlColon 3]),
      when (.matched 3) [add .yamlNewLine 3]]⟩,
    ⟨"(:)(?:[ \\t]+|\\r?(\\n))", block [add .yamlColon 1, when (.matched 2) [add .yamlNewLine 2]]⟩,
    ⟨":$", add .yamlColon⟩,
    ⟨"(&[^\\[\\]\\\x7b\\\x7d\\, \\r\\n]+)(?:[ \\t]+|\\r?(\\n))",
    block [add .yamlAnchor 1, act (.insertAnchor 1),
      when (.matched 2) [add .yamlNewLine 2]]⟩,
    ⟨"(![0-9A-Za-z\\-]+!|!!|!)(<(?:[\\w#;\\/\\?:@&=+$,_.!~*'()[\\]\x7b\x7d]|%\\d+)+>)(?:" ++
      "[ \\t]+|\\r?(\\n))",
    block [tag [add .yamlTagPrefix 1, add .yamlVerbatimTag 2],
      when (.matched 3) [add .yamlNewLine 3]]⟩,
    ⟨"(![0-9A-Za-z\\-]+!|!!|!)((?:[\\w#;\\/\\?:@&=+$,_.!~*'()[\\]\x7b\x7d]|%\\d+)+)(?:[ \\t]+" ++
      "|\\r?(\\n))",
    block [tag [add .yamlTagPrefix 1, add .yamlShorthandTag 2],
      when (.matched 3) [add .yamlNewLine 3]]⟩,
    ⟨"(!)(?:[ \\t]+|\\r?(\\n))",
    block [tag [add .yamlTagPrefix 1], when (.matched 2) [add .yamlNewLine 3]]⟩,
    ⟨"\\*[^\\[\\]\\\x7b\\\x7d\\, \\r\\n]+", add .yamlAlias⟩,
    ⟨"([>|\\|])([0-9]|[+-])?([0-9]|[+-])?(#)?(\\r?\\n)( +)",
    block [blockScalar, add .yamlNewLine 5, act (.setBlockIndent 6), add .yamlWhitespace 6,
      mode .block]⟩,
    ⟨"([>|\\|])([0-9]|[+-])?([0-9]|[+-])?(#)?", blockScalar⟩,
    ⟨"'(?:''|[^'])*'(#)?",
    block [when (.matched 1) [error "Comment without whitespace after singlequoted scalar" 1],
      add .yamlSingleQuote]⟩,
    ⟨"\"[^\"]*\\n\\-\\-\\-[^\"]*\"", error "Invalid document marker in double quoted scalar"⟩,
    ⟨"\"(?:\\\\\\\\|\\\\\"|[^\"])*\"(#)?",
    block [when (.matched 1) [error "Comment without whitespace after doublequoted scalar" 1],
      add .yamlDoubleQuote]⟩,
    ⟨"\"", error "Double quoted string without closing quote"⟩,
    ⟨"'", error "Single quoted string without closing quote"⟩,
    ⟨"(?:[^\\s:\\?-]|:[^\\s]|\\?[^\\s]|-[^\\s])(?:[^\\s:#]|:[^\\s]|#[^\\s]|[ \\t][^\\s:#])*",
    add .yamlValue⟩]

def flowRules : List Rule :=
  [⟨"---", error "Invalid document marker in flow style"⟩,
    ⟨"\\.\\.\\.", error "Invalid document marker in flow style"⟩,
    ⟨"[ ][ \\t]*(#[^\\r\\n]*)", add .yamlComment 2⟩,
    ⟨"[ ][ \\t]*", skip⟩,
    ⟨"[ \\t]*\\r?\\n(#[^\\r\\n]*)", add .yamlComment 2⟩,
    ⟨"[ \\t]*\\r?\\n", term⟩,
    ⟨"(\\?)\\s+", add .yamlKey 1⟩,
    ⟨"(:)?(\\\x7b)",
    block [when (.matched 1) [add .yamlColon 1], push .yamlFlowMapping, add .yamlFlowMappingStart,
      act .addFlowLevel]⟩,
    ⟨"(:)?(\\[)",
    block [when (.matched 1) [add .yamlColon 1], push .yamlFlowSequence, add .yamlFlowSequenceStart,
      act .addFlowLevel]⟩,
    ⟨"[ \\t]*(\\\x7d)(#)?",
    block [when (.matched 2) [error "Invalid comment after end of flow sequence" 2],
      add .yamlFlowMappingEnd, term, pop .yamlFlowMapping, act .subFlowLevel]⟩,
    ⟨"[ \\t]*(\\])(#)?",
    block [when (.matched 2) [error "Invalid comment after end of flow sequence" 2],
      add .yamlFlowSequenceEnd 1, term, pop .yamlFlowSequence, act .subFlowLevel]⟩,
    ⟨"(,)(#)?", block [add .yamlComma, when (.matched 2) [error "Invalid comment after comma" 2]]⟩,
    ⟨"(:)\\s+(:)?", block [add .yamlColon 1, when (.matched 2) [add .yamlValue 2]]⟩,
    ⟨"(:)(,)", block [add .yamlColon 1, add .yamlComma 2]⟩,
    ⟨"(:)?('(?:''|[^'])*')", block [when (.matched 1) [add .yamlColon 1], add .yamlSingleQuote 2]⟩,
    ⟨"(:)?(\"(?:\\\\\\\\|\\\\\"|[^\"])*\")",
    block [when (.matched 1) [add .yamlColon 1], add .yamlDoubleQuote 2]⟩,
    ⟨"\"", error "Double quoted string without closing quote"⟩,
    ⟨"'", error "Single quoted string without closing quote"⟩,
    ⟨"(&[^\\[\\]\\\x7b\\\x7d\\, \\r\\n]+)(?:[ \\t]+|\\r?\\n)",
    block [add .yamlAnchor 1, act (.insertAnchor 1)]⟩,
    ⟨"(![0-9A-Za-z\\-]*!|!!|!)(<(?:[\\w#;\\/\\?:@&=+$,_.!~*'()]|%\\d+)+>)(?:[ \\t]+|\\r?\\n|(,))",
    block [tag [add .yamlTagPrefix 1, add .yamlVerbatimTag 2],
      when (.matched 3) [add .yamlComma 3]]⟩,
    ⟨"(![0-9A-Za-z\\-]*!|!!|!)((?:[\\w#;\\/\\?:@&=+$_.~*'()]|%\\d\\d)+)(?:[ \\t]+|\\r?\\n|(,))",
    block [tag [add .yamlTagPrefix 1, add .yamlShorthandTag 2],
      when (.matched 3) [add .yamlComma 3]]⟩,
    ⟨"(!)(?:[ \\t]+|\\r?\\n)", tag [add .yamlTagPrefix 1]⟩,
    ⟨"\\*[^\\[\\]\\\x7b\\\x7d\\, \\r\\n]+", add .yamlAlias⟩,
    ⟨"(?:\\d+-)+\\d*", add .yamlValue⟩,
    ⟨"(?:[^\\s:\\?\\-,\x7b\x7d[\\]]|:[^\\s,]|\\?[^\\s,\x7b\x7d[\\]]|-[^\\s,\x7b\x7d[\\]])(?:[" ++
      "^\\s:#,\x7b\x7d[\\]]|:[^\\s,\x7b\x7d[\\]]|#[^\\s,\x7b\x7d[\\]]|[ \\t][^\\s:#,\x7b\x7d[\\]])*",
    extend .yamlValue⟩,
    ⟨".", error "Invalid character in flow mode"⟩]

def blockRules : List Rule :=
  [⟨"([^\\r\\n]*)((?:\\r?\\n)+)( *)",
    block [add .yamlValue 1, add .yamlNewLine 2, when (.matched 3) [add .yamlWhitespace 3],
      when (.dedented 3) [mode .document]]⟩,
    ⟨"[^\\r\\n]+", block [add .yamlValue, mode .document]⟩]

end Rules

def rules : Mode → List Rule
  | .start => startRules
  | .directives => directivesRules
  | .document => documentRules
  | .flow => flowRules
  | .block => blockRules

open Library

namespace Rule

/-- The bytes of a pattern, whose characters are all below 128. -/
def bytes (rule : Rule) : Bytes := rule.pattern.toList.map Char.toUInt8

def engine (rule : Rule) : RegexEngine := .ofPattern (fun _ => none) rule.bytes

end Rule

def Mode.number : Mode → Nat
  | .start => 0
  | .directives => 1
  | .document => 2
  | .flow => 3
  | .block => 4

/-- The regexes of a mode, which all have engines of their own. -/
def regexes (mode : Mode) : List SharedRegex :=
  (rules mode).zipIdx.map fun entry =>
    { TRegex.init entry.1.engine with address := 5 * entry.2 + mode.number }

def ruleSet (mode : Mode) : TRegexSet := .init (regexes mode)

section Parse
variable (text : Bytes) (source : SourceDef) (maxErrors : Nat)

namespace Lexer

/-- `consume_first_match` -/
def consumeFirstMatch (s : Lexer) : Option Nat × Lexer :=
  match (ruleSet s.mode).matchFirst s.reMatch (text.drop s.pos) source s.pos with
  | (none, reMatch) => (none, { s with reMatch })
  | (some index, reMatch) =>
    let s := { s with reMatch }
    (some index, { s with pos := s.pos + (s.loc 0).len })

/-- A round of the loop of `parse_source`. -/
def round (s : Lexer) : Except Fault Lexer :=
  match consumeFirstMatch text source s with
  | (some index, s') =>
    match (rules s.mode)[index]? with
    | none => .ok s'
    | some rule => rule.effect.perform text s'
  | (none, s') => (s'.make.invalid s'.loc).map fun make =>
    { s' with make, pos := min text.length (s'.pos + 1) }

/-- The loop of `parse_source` goes on while there is text left and not too many errors. -/
def step (s : Lexer) : Except Fault (Option Lexer) :=
  if s.pos < text.length ∧ s.make.errorCount < maxErrors then (round text source s).map some
  else .ok none

end Lexer

/-- The loop of the done hook, which goes on until the node is a stream. -/
def closeStep (m : Make) : Except Fault (Option Make) := do
  if ← m.isIn .yamlStream then return none
  else return some (← m.term [.yamlDocument, .yamlFlowMapping, .yamlFlowSequence])

/-- The state that `parse_source` starts in. -/
def initial (shared : Shared) : Lexer where
  make := .create .file { source := some source, pos := 0, len := text.length }
  reMatch := { locations := List.replicate 11 {} }
  shared := shared

/-- What `parse_source` does after the loop of the done hook. -/
def finish (shared : Shared) (closed : Except Fault Make) : Except Fault (Make × Node × Shared) := do
  let m ← closed
  let m ← m.term [.yamlStream]
  let (m, root) ← m.done
  return (m, root, { shared with anchors := [] })

/-- The root that `parse_source` returns, and what its effects share with the next parse. -/
def parse (shared : Shared) (fuel : Nat) : Option (Except Fault (Make × Node × Shared)) :=
  (loop (Lexer.step text source maxErrors) fuel (initial text source shared)).bind fun
    | .error fault => some (.error fault)
    | .ok s => (loop closeStep fuel s.make).bind fun closed => some (finish s.shared closed)

end Parse

end Trieste.Yaml
