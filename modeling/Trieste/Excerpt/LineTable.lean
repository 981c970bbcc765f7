import Trieste.Excerpt.Rendering
import Trieste.Library.Separated

namespace Trieste.Excerpt
set_option autoImplicit true
open Library

namespace SourceDef
variable {s : SourceDef}

def isBreak (b : UInt8) : Bool := decide (b = 10)

theorem isBreak_iff {b : UInt8} : isBreak b = true ↔ b = 10 := decide_eq_true_iff

/-- The span is that of a line: the number of the line is that of the line breaks before it, and
it reaches from one line break or end of the contents to the next one. -/
structure IsLine (s : SourceDef) (line : Nat) (start len : UInt64) : Prop where
  inside : start.toNat + len.toNat ≤ s.contents.length
  before : (s.contents.take start.toNat).count 10 = line
  begins : start = 0 ∨ s.contents[start.toNat - 1]? = some 10
  ends : start.toNat + len.toNat = s.contents.length ∨
    s.contents[start.toNat + len.toNat]? = some 10
  free : 10 ∉ (s.contents.drop start.toNat).take len.toNat

def lineText (s : SourceDef) (line : Nat) : Option Bytes := do
  let span ← s.linepos line
  substr s.contents span.1 span.2

theorem lines_eq (s : SourceDef) : s.lines = (s.contents.findIdxs isBreak).map Nat.toUInt64 := rfl

@[simp] theorem lines_length (s : SourceDef) :
    s.lines.length = (s.contents.findIdxs isBreak).length := List.length_map _

theorem toNat_of_le (h : n ≤ s.contents.length) : n.toUInt64.toNat = n :=
  UInt64.toNat_ofNat_of_lt' (Nat.lt_of_le_of_lt h s.text.2)

theorem lines_getElem? (s : SourceDef) (h : line < (s.contents.findIdxs isBreak).length) :
    s.lines[line]? = some (partStop isBreak s.contents line).toUInt64 := by
  rw [lines_eq, List.getElem?_map, List.getElem?_eq_getElem h, partStop_eq h]
  rfl

theorem stop_eq (s : SourceDef) (line : Nat) :
    (s.lines[line]?).getD s.contents.length.toUInt64 =
      (partStop isBreak s.contents line).toUInt64 := by
  by_cases h : line < (s.contents.findIdxs isBreak).length
  · rw [lines_getElem? s h, Option.getD_some]
  · have hge := Nat.le_of_not_lt h
    rw [List.getElem?_eq_none (s.lines_length.symm ▸ hge), Option.getD_none, partStop_last hge]

theorem lineStart_eq (h : line ≤ s.lines.length) :
    s.lineStart line = some (partStart isBreak s.contents line).toUInt64 := by
  rw [lines_length] at h
  cases line with
  | zero => rfl
  | succ line =>
    rw [lineStart, lines_getElem? s h, partStart]
    exact congrArg some (UInt64.ofNat_add _ _).symm

theorem linepos_eq (h : line ≤ s.lines.length) : ∃ start len, s.linepos line = some (start, len) ∧
    start.toNat = partStart isBreak s.contents line ∧
      start.toNat + len.toNat = partStop isBreak s.contents line := by
  have hpos : s.linepos line = some ((partStart isBreak s.contents line).toUInt64,
      (partStop isBreak s.contents line).toUInt64 -
        (partStart isBreak s.contents line).toUInt64) := by
    have hstart := lineStart_eq h
    rw [linepos, if_neg (Nat.not_lt.2 h), ← stop_eq]
    cases line with
    | zero => rfl
    | succ line =>
      rw [lineStart] at hstart
      simp only [hstart]
      rfl
  rw [lines_length] at h
  have hle := partStart_le_stop h
  have hstart := toNat_of_le (partStart_le h)
  have hend : partStop isBreak s.contents line ≤ s.contents.length := partStop_le line
  have hstop := toNat_of_le hend
  refine ⟨_, _, hpos, hstart, ?_⟩
  rw [UInt64.toNat_sub_of_le, hstart, hstop, Nat.add_sub_cancel' hle]
  rw [UInt64.le_iff_toNat_le, hstart, hstop]
  exact hle

theorem substr_part {start len : UInt64} (hstart : start.toNat = partStart isBreak s.contents line)
    (hstop : start.toNat + len.toNat = partStop isBreak s.contents line) :
    (s.contents.drop start.toNat).take len.toNat = part isBreak s.contents line := by
  rw [part, ← hstart, ← hstop, List.drop_take, Nat.add_sub_cancel_left]

theorem lineText_eq (h : line ≤ s.lines.length) :
    s.lineText line = some (part isBreak s.contents line) := by
  obtain ⟨start, len, hl, hstart, hstop⟩ := linepos_eq h
  have hle : start.toNat ≤ s.contents.length := by
    rw [hstart]
    exact partStart_le (s.lines_length ▸ h)
  rw [lineText, hl]
  simp only [Option.bind_eq_bind, Option.bind_some, substr, if_pos hle, substr_part hstart hstop]

theorem count_eq (text : Bytes) : text.count 10 = text.countP isBreak := by
  rw [List.count]
  apply List.countP_congr
  intro b _
  rw [beq_iff_eq, isBreak_iff]

theorem not_mem_part (h : line ≤ s.lines.length) : 10 ∉ part isBreak s.contents line := by
  intro hm
  have hfree := part_free (s.lines_length ▸ h) 10 hm
  cases hfree

theorem partStop_newline (h : line < s.lines.length) :
    s.contents[partStop isBreak s.contents line]? = some 10 := by
  obtain ⟨b, hb, hbreak⟩ := partStop_separator (s.lines_length ▸ h)
  rw [hb, isBreak_iff.1 hbreak]

theorem isLine_of_linepos {start len : UInt64} (h : line ≤ s.lines.length)
    (hstart : start.toNat = partStart isBreak s.contents line)
    (hstop : start.toNat + len.toNat = partStop isBreak s.contents line) :
    s.IsLine line start len where
  inside := hstop ▸ partStop_le line
  before := by
    rw [count_eq, hstart]
    exact countP_partStart (s.lines_length ▸ h)
  begins := by
    cases line with
    | zero => exact .inl (UInt64.toNat_inj.1 hstart)
    | succ line =>
      rw [hstart, partStart, Nat.add_sub_cancel]
      exact .inr (partStop_newline h)
  ends := by
    rw [hstop]
    rcases Nat.lt_or_eq_of_le h with hlt | rfl
    · exact .inr (partStop_newline hlt)
    · exact .inl (partStop_last (Nat.le_of_eq s.lines_length.symm))
  free := by
    rw [substr_part hstart hstop]
    exact not_mem_part h

/-- A span of the contents is not that of a line after the last one. -/
theorem IsLine.le (h : s.IsLine line start len) : line ≤ s.lines.length := by
  have hsub : (s.contents.take start.toNat).countP isBreak ≤ s.contents.countP isBreak :=
    (List.take_sublist _ _).countP_le
  rw [← h.before, count_eq, lines_length, List.length_findIdxs]
  exact hsub

theorem findIdx_lines (h : pos.toNat ≤ s.contents.length) :
    s.lines.findIdx (pos ≤ ·) = (s.contents.take pos.toNat).count 10 := by
  rw [count_eq, ← findIdx_eq_countP h, lines_eq, List.findIdx_map]
  apply findIdx_congr
  intro i hi
  have hlt := List.lt_add_of_mem_findIdxs i hi
  have hn : i.toUInt64.toNat = i := toNat_of_le (Nat.le_of_lt hlt)
  simp only [Function.comp_apply, UInt64.le_iff_toNat_le, hn]

theorem linecol_eq (h : pos.toNat ≤ s.contents.length) : ∃ col,
    s.linecol pos = some ((s.contents.take pos.toNat).count 10, col) ∧
      partStart isBreak s.contents ((s.contents.take pos.toNat).count 10) + col.toNat =
        pos.toNat := by
  obtain ⟨hle, hstart, _⟩ := part_of_position (p := isBreak) h
  rw [linecol, findIdx_lines h]
  rw [← count_eq] at hle hstart
  cases hc : (s.contents.take pos.toNat).count 10 with
  | zero => exact ⟨pos, rfl, Nat.zero_add _⟩
  | succ line =>
    rw [hc] at hle hstart
    have hstop := toNat_of_le (Nat.le_trans hstart h)
    have hnext : (partStop isBreak s.contents line).toUInt64 + 1 =
        (partStart isBreak s.contents (line + 1)).toUInt64 := (UInt64.ofNat_add _ _).symm
    refine ⟨pos - (partStart isBreak s.contents (line + 1)).toUInt64, ?_, ?_⟩
    · simp only [lines_getElem? s hle, Option.map_some, hnext]
    · rw [UInt64.toNat_sub_of_le, hstop, Nat.add_sub_cancel' hstart]
      rw [UInt64.le_iff_toNat_le, hstop]
      exact hstart

/-- The line of a position is that of the line breaks strictly before it and its column counts
from the start of the line; the lines with a line break between each two of them make up the
contents, and exactly they have a span. -/
theorem line_table (s : SourceDef) :
    (∀ pos : UInt64, pos.toNat ≤ s.contents.length → ∃ line col start len,
      s.linecol pos = some (line, col) ∧ line = (s.contents.take pos.toNat).count 10 ∧
        s.linepos line = some (start, len) ∧ start.toNat + col.toNat = pos.toNat ∧
          10 ∉ (s.contents.drop start.toNat).take len.toNat) ∧
      (∃ texts, (List.range (s.lines.length + 1)).map s.lineText = texts.map some ∧
        List.intercalate [10] texts = s.contents ∧ ∀ text ∈ texts, 10 ∉ text) ∧
      (∀ line, line ≤ s.lines.length ↔
        ∃ start len, s.linepos line = some (start, len) ∧ s.IsLine line start len) ∧
      ∀ line, s.lines.length < line →
        s.linepos line = some (UInt64.ofNat (UInt64.size - 1), 0) := by
  refine ⟨?_, ?_, ?_, ?_⟩
  · intro pos h
    obtain ⟨col, hcol, hpos⟩ := linecol_eq h
    have hle : (s.contents.take pos.toNat).count 10 ≤ s.lines.length := by
      rw [count_eq, lines_length]
      exact (part_of_position h).1
    obtain ⟨start, len, hl, hstart, hstop⟩ := linepos_eq hle
    refine ⟨_, col, start, len, hcol, rfl, hl, ?_, (isLine_of_linepos hle hstart hstop).free⟩
    rw [hstart, hpos]
  · refine ⟨(List.range (s.lines.length + 1)).map (part isBreak s.contents), ?_, ?_, ?_⟩
    · rw [List.map_map]
      apply List.map_congr_left
      intro line hline
      exact lineText_eq (Nat.le_of_lt_succ (List.mem_range.1 hline))
    · rw [lines_length]
      exact intercalate_parts (fun _ => isBreak_iff.1) s.contents
    · intro text ht
      obtain ⟨line, hline, rfl⟩ := List.mem_map.1 ht
      exact not_mem_part (Nat.le_of_lt_succ (List.mem_range.1 hline))
  · intro line
    constructor
    · intro h
      obtain ⟨start, len, hl, hstart, hstop⟩ := linepos_eq h
      exact ⟨start, len, hl, isLine_of_linepos h hstart hstop⟩
    · intro h
      obtain ⟨start, len, _, hline⟩ := h
      exact hline.le
  · intro line h
    rw [linepos, if_pos h]

end SourceDef

end Trieste.Excerpt
