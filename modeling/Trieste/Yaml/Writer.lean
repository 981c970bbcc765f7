import Trieste.Regex.Unmatched
import Trieste.Utf8.EscapeUnicode
import Trieste.Yaml.Scalar

namespace Trieste.Yaml
set_option autoImplicit true
open Utf8
open Regex hiding backslash

structure WriteOptions where
  newline : Bytes
  indent : Nat
  canonical : Bool

structure Spaces where
  outer : Nat
  inner : Nat

namespace Spaces

def out (spaces : Spaces) : Spaces := ⟨spaces.outer, spaces.outer⟩

def indent (spaces : Spaces) (n : Nat) : Spaces := ⟨spaces.outer, spaces.inner + n⟩

def innerStr (spaces : Spaces) : Bytes := List.replicate spaces.inner 0x20

end Spaces

/-- The scalars that `unescape_block` is called for. -/
inductive ScalarKind where
  | plain
  | singleQuote
  | doubleQuote
  | literal
  | folded
  deriving DecidableEq

def patternBytes (pattern : String) : Bytes := pattern.toList.map Char.toUInt8

/-- `TRegex::GlobalReplace` on a text, with the context of the thread. -/
def replaceIn (self : Nat) (pattern : String) (rewrite : Bytes) (s : Bytes × MatchContext) :
    Bytes × MatchContext :=
  let result := globalReplace (fun _ => none) self s.2 (some s.1) (patternBytes pattern) rewrite
  (result.1.getD s.1, result.2.2)

/-- The character that a letter behind a backslash stands for. -/
def unescapedLetter (c : UInt8) : Option UInt8 :=
  if c = 0x6E then some newline
  else if c = 0x72 then some carriageReturn
  else if c = 0x74 then some tab
  else if c = quote then some quote
  else if c = backslash then some backslash
  else none

/-- The loop of `unescape_block`. -/
def unescapeLoop : Bytes → Bytes
  | [] => []
  | [c] => [c]
  | c :: next :: rest =>
    if c = backslash then
      match unescapedLetter next with
      | some d => d :: unescapeLoop rest
      | none => c :: next :: unescapeLoop rest
    else c :: unescapeLoop (next :: rest)

def breaksPattern : String := "([^\\s])(\\n+)([^ \\n])"

def foldedPattern : String := "(\\n\\n(?: [^\\n]+\\n)+|^(?: [^\\n]+\\n)+)\\n"

def indentPattern : String := "\\n([^\\n])"

def newlinePattern : String := "\\n"

/-- `unescape_block`. The addresses are those of the regular expressions. -/
def unescapeBlock (self : String → Nat) (kind : ScalarKind) (options : WriteOptions)
    (indent : Bytes) (str : Bytes) (ctx : MatchContext) : Bytes × MatchContext :=
  let result := unescapeLoop str
  if kind ≠ .literal ∧ result ≠ [] ∧ result.all (· = newline) = true then
    replaceIn (self newlinePattern) newlinePattern options.newline
      (result ++ [newline] ++ indent, ctx)
  else
    let s :=
      if kind ≠ .literal ∧ result ≠ [] then
        let s := replaceIn (self breaksPattern) breaksPattern (patternBytes "\\1\n\\2\\3") (result, ctx)
        if kind = .folded then
          replaceIn (self foldedPattern) foldedPattern (patternBytes "\\1") s
        else s
      else (result, ctx)
    let s := replaceIn (self indentPattern) indentPattern
      ([newline] ++ indent ++ patternBytes "\\1") s
    replaceIn (self newlinePattern) newlinePattern options.newline s

/-- `contains_unicode` -/
def containsUnicode (str : Bytes) : Bool := str.any fun c => 0x7F < c

/-- `plain_to_string` -/
def plainToString (self : String → Nat) (options : WriteOptions) (spaces : Spaces)
    (inDocument : Bool) (first : PlainLine) (rest : List PlainLine) (ctx : MatchContext) :
    Except Utf8.Exception (Bytes × MatchContext) :=
  (blockToString false (.plain first rest)).map fun str =>
    let indent := (spaces.out.indent options.indent).innerStr
    let breaks : Bool := writtenNewline <:+: str
    let dashes : Bool := [0x2D, 0x2D, 0x2D] <:+: str
    if containsUnicode str then
      let s := unescapeBlock self .plain options indent (escapeUnicode str) ctx
      (quoted s.1, s.2)
    else if (breaks && !(options.canonical && inDocument)) || dashes then
      let s := unescapeBlock self .plain options indent str ctx
      let s := replaceIn (self "'") "'" (patternBytes "''") s
      ([0x27] ++ s.1 ++ [0x27], s.2)
    else unescapeBlock self .plain options spaces.innerStr str ctx

/-- A plain scalar on one line. -/
inductive PlainScalar where
  | value (view : Bytes)
  | plain (line : PlainLine)

def PlainScalar.view : PlainScalar → Bytes
  | value view => view
  | plain line => line.view

/-- What `write_value` writes for a value. -/
def valueToString (view : Bytes) : Bytes :=
  if containsUnicode view then quoted (escapeUnicode view) else view

/-- What `write_value` writes for a scalar, before the line break. -/
def scalarToString (self : String → Nat) (options : WriteOptions) (spaces : Spaces)
    (inDocument : Bool) (ctx : MatchContext) : PlainScalar → Except Utf8.Exception Bytes
  | .value view => .ok (valueToString view)
  | .plain line => (plainToString self options spaces inDocument line [] ctx).map Prod.fst

end Trieste.Yaml
