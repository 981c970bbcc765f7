import Trieste.Library.Transition
import Trieste.Library.Acyclic
import Trieste.Library.Peg
import Trieste.Library.EpochSet
import Trieste.Library.Fragment
import Trieste.Library.Numeral
import Trieste.Library.Fuel
import Trieste.Library.ShortCircuit
import Trieste.Library.Substitution
import Trieste.Library.Traversal
import Trieste.Library.EventTree
import Trieste.NodeWorker
import Trieste.NodeWorker.Effects
import Trieste.NodeWorker.Invariant
import Trieste.NodeWorker.BlockOnAll
import Trieste.NodeWorker.Dependencies
import Trieste.Token
import Trieste.Source
import Trieste.Ast
import Trieste.Ast.Heap
import Trieste.Ast.Flags
import Trieste.Ast.Attach
import Trieste.Ast.Frame
import Trieste.Ast.Clone
import Trieste.Ast.Building
import Trieste.Ast.Edits
import Trieste.Ast.Parents
import Trieste.Ast.Errors
import Trieste.Rewrite.Pattern
import Trieste.Rewrite.Matching
import Trieste.Rewrite.Semantics
import Trieste.Rewrite.Dispatch
import Trieste.Rewrite.Coverage
import Trieste.Rewrite.Frames
import Trieste.Rewrite.Isolation
import Trieste.Rewrite.CaptureLog
import Trieste.Rewrite.Reify
import Trieste.Rewrite.Runs
import Trieste.Rewrite.Shadowing
import Trieste.Rewrite.Termination
import Trieste.Utf8
import Trieste.Utf8.Encode
import Trieste.Utf8.Unescape
import Trieste.Utf8.Hex
import Trieste.Utf8.ReadToEnd
import Trieste.Regex.Syntax
import Trieste.Regex.Text
import Trieste.Regex.Engine
import Trieste.Regex.Simulation
import Trieste.Regex.Thompson
import Trieste.Regex.Closure
import Trieste.Regex.Compiled
import Trieste.Regex.Context
import Trieste.Regex.Active
import Trieste.Regex.Prefix
import Trieste.Regex.Reuse
import Trieste.Regex.Walk
import Trieste.Regex.Capturing
import Trieste.Regex.FirstChars
import Trieste.Regex.FullMatch
import Trieste.Regex.RegexSet
import Trieste.Regex.Pattern
import Trieste.Regex.Search
import Trieste.Json
import Trieste.Json.Escape
import Trieste.Json.Pointer
import Trieste.Library.Sorting
import Trieste.Json.Document
import Trieste.Json.Operation
import Trieste.Json.Patch
import Trieste.Json.PatchFrame
import Trieste.Json.StringBody
import Trieste.Parse.Make
import Trieste.Parse.Open
import Trieste.Parse.Done
import Trieste.Parse.Locations
import Trieste.Json.StringDecode
import Trieste.Yaml.Scalar
import Trieste.Writer
import Trieste.Excerpt
import Trieste.Regex.PostfixBuilder
import Trieste.Regex.Tree
import Trieste.Regex.Language
import Trieste.Regex.Groups
import Trieste.Excerpt.Rendering
import Trieste.Excerpt.LineTable
import Trieste.Writer.Landing
import Trieste.Writer.Failures
import Trieste.Yaml.Backslash
import Trieste.Wf
import Trieste.Wf.Distance
import Trieste.Wf.Layers
import Trieste.Wf.Gen
import Trieste.Wf.Returns
import Trieste.Yaml.Effect
import Trieste.Yaml.Rules
import Trieste.Yaml.Checks
import Trieste.Yaml.Terminates
import Trieste.Yaml.OwnText
import Trieste.Yaml.Lines
import Trieste.Yaml.Merging
import Trieste.Yaml.LineNodes
import Trieste.Yaml.Folding
import Trieste.Yaml.DoubleQuoted
import Trieste.Yaml.DoubleDecode
import Trieste.Regex.ClassAlgebra
import Trieste.Json.PointerText
import Trieste.Ast.Trees
import Trieste.Ast.Copies
import Trieste.Json.Insertion
import Trieste.Regex.EmptyMatch
import Trieste.Regex.ParserSteps
import Trieste.Regex.Accepted
import Trieste.Regex.Segments
import Trieste.Regex.Levels
import Trieste.Regex.Grouping
import Trieste.Regex.Spans
import Trieste.Regex.Roles
import Trieste.Regex.Elements
import Trieste.Regex.Counts
import Trieste.Regex.Replace
import Trieste.Json.Tables
import Trieste.Json.Trails
import Trieste.Json.Transfer
import Trieste.Utf8.Decode
import Trieste.Utf8.WellFormed
import Trieste.Utf8.CutShort
import Trieste.Wf.Weights
import Trieste.Bindings
import Trieste.Bindings.BuildSt
import Trieste.Bindings.Agreement
import Trieste.Bindings.Generator
import Trieste.Bindings.Location
import Trieste.Bindings.Steps
import Trieste.Bindings.Growth
import Trieste.Bindings.Returns
import Trieste.Bindings.Selection
import Trieste.Xoroshiro
import Trieste.Bindings.TokenOrder
import Trieste.Fuzzer
import Trieste.Fuzzer.Rounds
import Trieste.Fuzzer.Iterations
import Trieste.Fuzzer.Reports
import Trieste.Json.EscapedText
import Trieste.Json.SortedWriting
import Trieste.Json.Equality
import Trieste.Json.Same
import Trieste.Json.Exchange
import Trieste.Json.Replacement
import Trieste.Json.ReplaceLaws
import Trieste.Json.Comparison
import Trieste.Json.Values
import Trieste.Json.Grafting
import Trieste.Json.Returning
import Trieste.Json.Editing
import Trieste.Json.Walking
import Trieste.Json.Acting
import Trieste.Json.Running
import Trieste.Json.Loading
import Trieste.Json.Patching
import Trieste.Json.Throwing
import Trieste.Library.Separated
import Trieste.Yaml.TagName
import Trieste.Library.Occurrence
import Trieste.Yaml.SingleQuoted
import Trieste.Yaml.BlockIndent
import Trieste.Yaml.BlockFolding
import Trieste.Library.Ancestry
import Trieste.Ast.Precedes
import Trieste.Rewrite.PrefixWalk
import Trieste.Ast.Touched
import Trieste.Rewrite.Splice
import Trieste.Intrusive.Counting
import Trieste.Intrusive.Release
import Trieste.Intrusive.Deletion
import Trieste.Intrusive.Handles
import Trieste.Yaml.Values
import Trieste.Regex.Wiring
import Trieste.Yaml.TrimBounds
import Trieste.Library.Stream
import Trieste.Utf8.EscapeUnicode
import Trieste.Json.EscapeUnicode
import Trieste.Regex.Unmatched
import Trieste.Yaml.Writer
import Trieste.Yaml.DoubleText
import Trieste.Yaml.LastBackslash
import Trieste.Yaml.UnicodeQuotes
import Trieste.Regex.Ending
import Trieste.Yaml.ValueWriter
import Trieste.Yaml.Columns
import Trieste.Yaml.Events
import Trieste.Yaml.EventReader
import Trieste.Library.Priority
import Trieste.Regex.Priority
import Trieste.Regex.Branches
import Trieste.Rewrite.Pass
import Trieste.Rewrite.NormalForm
