import Trieste.Json.StringBody
import Trieste.Yaml.Scalar

namespace Trieste.Yaml
set_option autoImplicit true
open Utf8 Json Library

def IsLiteral (literal string : List UInt8) : Prop :=
  ∃ items, literal = quoted (body items) ∧ assigned items = string

/-- What `escape_chars` writes for a character, where backslashes are escaped. -/
def piece (toEscape : List UInt8) (c : UInt8) : List UInt8 :=
  if c ∈ toEscape then escapeChar c else if isSpaceChar c then [0x20] else [c]

/-- The character that a piece stands for. -/
def denoted (toEscape : List UInt8) (c : UInt8) : UInt8 :=
  if c ∈ toEscape then c else if isSpaceChar c then 0x20 else c

/-- The characters that JSON demands are escaped, and beyond them only blanks with an escape. -/
def Sound (toEscape : List UInt8) : Prop :=
  backslash ∈ toEscape ∧ quote ∈ toEscape ∧
    ∀ c ∈ toEscape, c ∈ [backslash, quote, newline, carriageReturn, tab]

theorem sound_value : Sound [backslash, quote] := by
  refine ⟨by decide, by decide, ?_⟩
  intro c hc
  exact List.mem_append_left [newline, carriageReturn, tab] hc

theorem sound_block : Sound (blockEscape false) := by
  refine ⟨by decide, by decide, ?_⟩
  intro c hc
  simp only [blockEscape, Bool.false_eq_true, if_false, List.mem_append, List.mem_cons,
    List.not_mem_nil, or_false] at hc ⊢
  tauto

theorem escapeLoop_eq (h : backslash ∈ toEscape) (input : List UInt8) :
    escapeLoop toEscape false input = input.flatMap (piece toEscape) := by
  induction input with
  | nil => rfl
  | cons c input ih =>
    rw [escapeLoop, List.flatMap_cons, piece]
    split
    · rw [ih]
    · have hc : c ≠ backslash := by
        rintro rfl
        contradiction
      rw [if_neg hc]
      split <;> rw [ih] <;> rfl

/-- A character in the text of a JSON string, or a blank. -/
def isWritable (c : UInt8) : Prop := 0x20 ≤ c ∨ isSpaceChar c = true

theorem piece_item (hs : Sound toEscape) (hc : isWritable c) :
    ∃ item : Item, item.text = piece toEscape c ∧ item.denotes = [denoted toEscape c] ∧
      item.high? = none := by
  by_cases hmem : c ∈ toEscape
  · have hletter : ∃ letter : Letter, escapeChar c = [backslash, letter.byte] ∧
        letter.denotes = c := by
      have hcases := hs.2.2 c hmem
      simp only [List.mem_cons, List.not_mem_nil, or_false] at hcases
      rcases hcases with rfl | rfl | rfl | rfl | rfl
      · exact ⟨.backslash, rfl, rfl⟩
      · exact ⟨.quote, rfl, rfl⟩
      · exact ⟨.n, rfl, rfl⟩
      · exact ⟨.r, rfl, rfl⟩
      · exact ⟨.t, rfl, rfl⟩
    obtain ⟨letter, hl, hd⟩ := hletter
    refine ⟨.escape letter, ?_, ?_, rfl⟩
    · rw [piece, if_pos hmem, hl]
      rfl
    · rw [denoted, if_pos hmem, Item.denotes, hd]
  · rw [piece, if_neg hmem, denoted, if_neg hmem]
    cases hspace : isSpaceChar c with
    | true => exact ⟨.plain 0x20 (by decide), rfl, rfl, rfl⟩
    | false =>
      have hge : 0x20 ≤ c := hc.resolve_right (by rw [hspace]; exact Bool.false_ne_true)
      have hquote : c ≠ 0x22 := by
        rintro rfl
        exact hmem hs.2.1
      have hbackslash : c ≠ backslash := by
        rintro rfl
        exact hmem hs.1
      exact ⟨.plain c ⟨hge, hquote, hbackslash⟩, rfl, rfl, rfl⟩

theorem pieces_items (hs : Sound toEscape) (input : List UInt8) (h : ∀ c ∈ input, isWritable c) :
    ∃ items, body items = input.flatMap (piece toEscape) ∧
      assigned items = input.map (denoted toEscape) := by
  induction input with
  | nil => exact ⟨[], rfl, rfl⟩
  | cons c input ih =>
    obtain ⟨item, htext, hdenotes, hhigh⟩ := piece_item hs (h c (.head _))
    obtain ⟨items, hbody, hassigned⟩ := ih fun d hd => h d (.tail _ hd)
    refine ⟨item :: items, ?_, ?_⟩
    · rw [body_cons, htext, hbody, List.flatMap_cons]
    · rw [assigned_cons (startsPair_eq_false hhigh items), hdenotes, hassigned]
      rfl

theorem writable_of_mem (hs : Sound toEscape) (h : c ∈ toEscape) : isWritable c := by
  have hcases := hs.2.2 c h
  simp only [List.mem_cons, List.not_mem_nil, or_false] at hcases
  rcases hcases with rfl | rfl | rfl | rfl | rfl
  · exact .inl (by decide)
  · exact .inl (by decide)
  · exact .inr rfl
  · exact .inr rfl
  · exact .inr rfl

/-- The pieces are a literal exactly where no control character is among them. -/
theorem isLiteral_pieces (hs : Sound toEscape) (input string : List UInt8) :
    IsLiteral (quoted (input.flatMap (piece toEscape))) string ↔
      (∀ c ∈ input, isWritable c) ∧ input.map (denoted toEscape) = string := by
  constructor
  · intro h
    obtain ⟨items, hquoted, hassigned⟩ := h
    have hbody : input.flatMap (piece toEscape) = body items :=
      List.append_cancel_right (List.cons.inj hquoted).2
    have hwritable : ∀ c ∈ input, isWritable c := by
      intro c hc
      by_contra hnot
      have hge : ¬ 0x20 ≤ c := fun h => hnot (.inl h)
      have hspace : isSpaceChar c ≠ true := fun h => hnot (.inr h)
      have hmem : c ∉ toEscape := fun h => hnot (writable_of_mem hs h)
      have hpiece : c ∈ piece toEscape c := by
        rw [piece, if_neg hmem, if_neg hspace]
        exact .head _
      apply hge
      apply body_ge items
      rw [← hbody]
      exact List.mem_flatMap.2 ⟨c, hc, hpiece⟩
    obtain ⟨items', hbody', hassigned'⟩ := pieces_items hs input hwritable
    rw [body_injective items items' (hbody.symm.trans hbody'.symm), hassigned'] at hassigned
    exact ⟨hwritable, hassigned⟩
  · intro h
    obtain ⟨items, hbody, hassigned⟩ := pieces_items hs input h.1
    exact ⟨items, by rw [hbody], hassigned.trans h.2⟩

/-- No backslash has the start of an escape of several digits behind it. -/
def NoEscape (text : List UInt8) : Prop :=
  ∀ rest, (backslash :: rest) <:+ text → startsEscape rest = false

theorem plainLength_le (s : List UInt8) : plainLength s ≤ s.length := by
  induction s with
  | nil => exact Nat.le_refl 0
  | cons c s ih =>
    rw [plainLength]
    split
    · exact Nat.zero_le _
    · exact Nat.succ_le_succ ih

theorem NoEscape.of_not_mem (h : backslash ∉ text) : NoEscape text :=
  fun _ hrest => absurd (hrest.subset List.mem_cons_self) h

theorem NoEscape.tail (h : NoEscape (c :: text)) : NoEscape text :=
  fun rest hrest => h rest (hrest.trans (List.suffix_cons c text))

theorem NoEscape.cons (h : NoEscape text)
    (hc : c = backslash → startsEscape text = false) : NoEscape (c :: text) := by
  intro rest hrest
  rcases List.suffix_cons_iff.1 hrest with he | hrest
  · obtain ⟨rfl, rfl⟩ := List.cons.inj he
    exact hc rfl
  · exact h rest hrest

theorem unescapeHexunicode_of_noEscape (h : NoEscape text) :
    unescapeHexunicode text = .ok text := by
  induction text with
  | nil => rw [unescapeHexunicode]
  | cons c text ih =>
    by_cases hc : c = backslash
    · rw [hc, unescapeHexunicode_of_not_starts (not_starts (h text (hc ▸ List.suffix_rfl))),
        ih h.tail]
      rfl
    · rw [unescapeHexunicode_cons hc, ih h.tail]
      rfl

theorem length_unescapeHexunicode (text : List UInt8) : ∀ out,
    unescapeHexunicode text = .ok out →
      out.length ≤ text.length ∧ (out.length = text.length → NoEscape text) := by
  induction text using unescapeHexunicode.induct with
  | case1 =>
    intro out h
    rw [unescapeHexunicode] at h
    cases h
    refine ⟨Nat.le_refl _, fun _ rest hrest => ?_⟩
    cases List.suffix_nil.1 hrest
  | case2 rest ih =>
    intro out h
    cases hs : startsEscape rest with
    | true =>
      obtain ⟨digits, n, hstarts⟩ := startsEscape_iff.1 hs
      rw [unescapeHexunicode_of_starts hstarts] at h
      obtain ⟨value, hvalue, h⟩ := bind_eq_ok.1 h
      obtain ⟨out', hout', rfl⟩ := map_eq_ok.1 h
      obtain ⟨kind, rfl, -, -⟩ := hstarts
      have ih := ih (min (n + 2) (digits.length + 2))
      rw [drop_escape] at ih
      have hout := (ih out' hout').1
      have hrune := length_writeRune_stoul hvalue
      have hplain := plainLength_le (digits.take n)
      rw [List.length_take] at hplain
      rw [List.length_drop] at hout
      have hlt : (writeRune (value % 2 ^ 32) ++ out').length < (backslash :: kind :: digits).length := by
        rw [List.length_append, List.length_cons, List.length_cons]
        omega
      exact ⟨Nat.le_of_lt hlt, fun he => absurd he (Nat.ne_of_lt hlt)⟩
    | false =>
      rw [unescapeHexunicode_of_not_starts (not_starts hs)] at h
      obtain ⟨out', hout', rfl⟩ := map_eq_ok.1 h
      obtain ⟨hle, hno⟩ := ih 1 out' hout'
      exact ⟨Nat.succ_le_succ hle, fun he => (hno (Nat.succ.inj he)).cons fun _ => hs⟩
  | case3 c rest hc ih =>
    intro out h
    rw [unescapeHexunicode_cons hc] at h
    obtain ⟨out', hout', rfl⟩ := map_eq_ok.1 h
    obtain ⟨hle, hno⟩ := ih out' hout'
    exact ⟨Nat.succ_le_succ hle, fun he => (hno (Nat.succ.inj he)).cons fun hb => absurd hb hc⟩

/-- A line break, or text that is written by `escape_chars`. -/
inductive Part where
  | lineBreak
  | text (bytes : List UInt8)

namespace Part

def bytes : Part → List UInt8
  | lineBreak => [newline]
  | text bytes => bytes

def write (toEscape : List UInt8) : Part → Except Exception (List UInt8)
  | lineBreak => .ok writtenNewline
  | text bytes => escapeChars toEscape bytes

end Part

def partsText (parts : List Part) : List UInt8 := parts.flatMap Part.bytes

def writeParts (toEscape : List UInt8) : List Part → Except Exception (List UInt8)
  | [] => .ok []
  | part :: parts =>
    (part.write toEscape).bind fun out => (writeParts toEscape parts).map (out ++ ·)

def decodeParts : List Part → Except Exception (List UInt8)
  | [] => .ok []
  | .lineBreak :: parts => (decodeParts parts).map (newline :: ·)
  | .text bytes :: parts =>
    (unescapeHexunicode bytes).bind fun input => (decodeParts parts).map (input ++ ·)

def NoEscapes (parts : List Part) : Prop := ∀ bytes, .text bytes ∈ parts → NoEscape bytes

theorem writeParts_eq (hs : Sound toEscape) (parts : List Part)
    (hnewline : .lineBreak ∈ parts → newline ∈ toEscape) :
    writeParts toEscape parts = (decodeParts parts).map (·.flatMap (piece toEscape)) := by
  induction parts with
  | nil => rfl
  | cons part parts ih =>
    have ih := ih fun h => hnewline (.tail _ h)
    rw [writeParts, ih]
    cases part with
    | lineBreak =>
      have hpiece : piece toEscape newline = writtenNewline := if_pos (hnewline (.head _))
      rw [decodeParts]
      cases decodeParts parts with
      | error e => rfl
      | ok input =>
        show Except.ok (writtenNewline ++ input.flatMap (piece toEscape)) =
          .ok ((newline :: input).flatMap (piece toEscape))
        rw [List.flatMap_cons, hpiece]
    | text bytes =>
      rw [decodeParts, Part.write, escapeChars]
      cases unescapeHexunicode bytes with
      | error e => rfl
      | ok input =>
        cases decodeParts parts with
        | error e => rfl
        | ok input' =>
          show Except.ok (escapeLoop toEscape false input ++ input'.flatMap (piece toEscape)) =
            .ok ((input ++ input').flatMap (piece toEscape))
          rw [escapeLoop_eq hs.1, List.flatMap_append]

theorem decodeParts_of_noEscapes (h : NoEscapes parts) :
    decodeParts parts = .ok (partsText parts) := by
  induction parts with
  | nil => rfl
  | cons part parts ih =>
    have ih := ih fun bytes hmem => h bytes (.tail _ hmem)
    cases part with
    | lineBreak =>
      rw [decodeParts, ih]
      rfl
    | text bytes =>
      rw [decodeParts, ih, unescapeHexunicode_of_noEscape (h bytes (.head _))]
      rfl

theorem length_decodeParts (h : decodeParts parts = .ok input) :
    input.length ≤ (partsText parts).length ∧
      (input.length = (partsText parts).length → NoEscapes parts) := by
  induction parts generalizing input with
  | nil =>
    cases h
    exact ⟨Nat.le_refl 0, fun _ bytes hmem => by cases hmem⟩
  | cons part parts ih =>
    cases part with
    | lineBreak =>
      rw [decodeParts] at h
      obtain ⟨input', hinput', rfl⟩ := map_eq_ok.1 h
      obtain ⟨hle, hno⟩ := ih hinput'
      refine ⟨Nat.succ_le_succ hle, ?_⟩
      intro he bytes hmem
      obtain _ | ⟨_, hmem⟩ := hmem
      exact hno (Nat.succ.inj he) bytes hmem
    | text bytes =>
      rw [decodeParts] at h
      obtain ⟨out, hout, h⟩ := bind_eq_ok.1 h
      obtain ⟨input', hinput', rfl⟩ := map_eq_ok.1 h
      obtain ⟨hle, hno⟩ := ih hinput'
      obtain ⟨hle', hno'⟩ := length_unescapeHexunicode bytes out hout
      have htext : (partsText (.text bytes :: parts)).length =
          bytes.length + (partsText parts).length := by
        rw [partsText, List.flatMap_cons, List.length_append]
        rfl
      rw [htext, List.length_append]
      refine ⟨Nat.add_le_add hle' hle, ?_⟩
      intro he bytes' hmem
      obtain _ | ⟨_, hmem⟩ := hmem
      · exact hno' (by omega)
      · exact hno (by omega) bytes' hmem

/-- The literal of the parts is right exactly where no part can be taken for an escape and every
character survives the second pass. -/
theorem writeParts_iff (hs : Sound toEscape) (parts : List Part)
    (hnewline : .lineBreak ∈ parts → newline ∈ toEscape) :
    (∃ out, writeParts toEscape parts = .ok out ∧ IsLiteral (quoted out) (partsText parts)) ↔
      NoEscapes parts ∧ ∀ c ∈ partsText parts, isWritable c ∧ denoted toEscape c = c := by
  rw [writeParts_eq hs parts hnewline]
  constructor
  · intro h
    obtain ⟨out, hout, hliteral⟩ := h
    obtain ⟨input, hinput, rfl⟩ := map_eq_ok.1 hout
    obtain ⟨hwritable, hmap⟩ := (isLiteral_pieces hs input _).1 hliteral
    have hlength : input.length = (partsText parts).length := by
      rw [← hmap, List.length_map]
    have hno := (length_decodeParts hinput).2 hlength
    rw [decodeParts_of_noEscapes hno] at hinput
    cases hinput
    refine ⟨hno, fun c hc => ⟨hwritable c hc, ?_⟩⟩
    exact List.map_inj_left.1 (hmap.trans (List.map_id _).symm) c hc
  · intro h
    obtain ⟨hno, hkeep⟩ := h
    rw [decodeParts_of_noEscapes hno]
    refine ⟨_, rfl, (isLiteral_pieces hs _ _).2 ⟨fun c hc => (hkeep c hc).1, ?_⟩⟩
    exact (List.map_congr_left fun c hc => (hkeep c hc).2).trans (List.map_id _)

def contentParts (indent : Nat) (line : List UInt8) : List Part :=
  if line = [newline] ∨ line.length ≤ indent then [] else [.text (line.drop indent)]

/-- The last line with the line break that the chomping leaves behind it. -/
def lastParts (indent : Nat) (chomp : Chomp) (last : List UInt8) : List Part :=
  let ending := if chomp = .strip then [] else [.lineBreak]
  if indent < last.length then
    if (last.drop indent).head? = some newline then
      match chomp with
      | .clip => [.lineBreak]
      | .keep => [.lineBreak, .text (last.drop indent)]
      | .strip => []
    else .text (last.drop indent) :: ending
  else ending

def literalParts (indent : Nat) (chomp : Chomp) : List (List UInt8) → List Part
  | [] => []
  | [last] => lastParts indent chomp last
  | line :: next :: rest =>
    contentParts indent line ++ .lineBreak :: literalParts indent chomp (next :: rest)

def keptParts (indent : Nat) (chomp : Chomp) (lines : List (List UInt8)) : List Part :=
  literalParts indent chomp (blockLines indent chomp lines)

theorem writeParts_ending (chomp : Chomp) :
    writeParts toEscape (if chomp = .strip then [] else [.lineBreak]) =
      .ok (if chomp = .strip then [] else writtenNewline) := by
  split <;> rfl

theorem writeParts_text (bytes : List UInt8) (parts : List Part)
    (h : writeParts toEscape parts = .ok out) : writeParts toEscape (.text bytes :: parts) =
      (escapeChars toEscape bytes).map (· ++ out) := by
  rw [writeParts, h, Part.write]
  cases escapeChars toEscape bytes <;> rfl

theorem writeParts_lineBreak (parts : List Part) :
    writeParts toEscape (.lineBreak :: parts) =
      (writeParts toEscape parts).map (writtenNewline ++ ·) := rfl

theorem lastLine_eq (indent : Nat) (chomp : Chomp) (last : List UInt8) :
    lastLine toEscape indent chomp last = writeParts toEscape (lastParts indent chomp last) := by
  simp only [lastLine, lastParts]
  split
  · split
    · cases chomp with
      | clip => rfl
      | strip => rfl
      | keep =>
        rw [writeParts_lineBreak, writeParts_text _ [] rfl]
        cases escapeChars toEscape (last.drop indent) with
        | error e => rfl
        | ok out =>
          show Except.ok (writtenNewline ++ out) = .ok (writtenNewline ++ (out ++ []))
          rw [List.append_nil]
    · exact (writeParts_text _ _ (writeParts_ending chomp)).symm
  · exact (writeParts_ending chomp).symm

theorem blockLoop_literal (indent : Nat) (chomp : Chomp) (lines : List (List UInt8))
    (isIndented onlyEmpty : Bool) :
    blockLoop toEscape .literal indent chomp isIndented onlyEmpty lines =
      writeParts toEscape (literalParts indent chomp lines) := by
  induction lines generalizing isIndented onlyEmpty with
  | nil => rfl
  | cons line rest ih =>
    cases rest with
    | nil => exact lastLine_eq indent chomp line
    | cons next rest =>
      rw [blockLoop, literalParts, contentParts]
      split
      · rw [ih, List.nil_append, writeParts_lineBreak]
      · have hkind : ¬ BlockKind.literal = .folded := nofun
        simp only [hkind, and_false, if_false, List.nil_append, ih, List.singleton_append]
        rw [writeParts, Part.write, writeParts_lineBreak]
        cases escapeChars toEscape (line.drop indent) with
        | error e => rfl
        | ok text =>
          cases writeParts toEscape (literalParts indent chomp (next :: rest)) with
          | error e => rfl
          | ok out =>
            show Except.ok (text ++ writtenNewline ++ out) = .ok (text ++ (writtenNewline ++ out))
            rw [List.append_assoc]

theorem denoted_block (c : UInt8) : denoted (blockEscape false) c = c := by
  rw [denoted]
  split
  · rfl
  split
  · next hmem hspace =>
    simp only [isSpaceChar, Bool.or_eq_true, decide_eq_true_eq] at hspace
    rcases hspace with ((rfl | rfl) | rfl) | rfl
    · rfl
    all_goals exact absurd (by decide) hmem
  · rfl

theorem denoted_value (c : UInt8) :
    isWritable c ∧ denoted [backslash, quote] c = c ↔ 0x20 ≤ c := by
  constructor
  · intro h
    obtain ⟨hwritable, hdenoted⟩ := h
    rcases hwritable with hge | hspace
    · exact hge
    · rw [denoted] at hdenoted
      split at hdenoted
      · next hmem =>
        simp only [List.mem_cons, List.not_mem_nil, or_false] at hmem
        rcases hmem with rfl | rfl <;> decide
      · rw [← hdenoted]
        decide
  · intro hge
    refine ⟨.inl hge, ?_⟩
    rw [denoted]
    split
    · rfl
    split
    · next hspace =>
      simp only [isSpaceChar, Bool.or_eq_true, decide_eq_true_eq] at hspace
      rcases hspace with ((rfl | rfl) | rfl) | rfl
      · rfl
      all_goals exact absurd hge (by decide)
    · rfl

theorem map_quoted {x : Except Exception (List UInt8)} {p : List UInt8 → Prop} :
    (∃ literal, x.map quoted = .ok literal ∧ p literal) ↔ ∃ out, x = .ok out ∧ p (quoted out) := by
  constructor
  · intro h
    obtain ⟨literal, hx, hp⟩ := h
    obtain ⟨out, hout, rfl⟩ := map_eq_ok.1 hx
    exact ⟨out, hout, hp⟩
  · intro h
    obtain ⟨out, rfl, hp⟩ := h
    exact ⟨quoted out, rfl, hp⟩

theorem valueString_iff (view : List UInt8) :
    (∃ literal, valueString view = .ok literal ∧ IsLiteral literal view) ↔
      NoEscape view ∧ ∀ c ∈ view, 0x20 ≤ c := by
  have hparts := writeParts_iff sound_value [.text view] (fun h => by
    obtain _ | ⟨_, h⟩ := h
    cases h)
  have htext : partsText [.text view] = view := List.append_nil view
  have hno : NoEscapes [.text view] ↔ NoEscape view := by
    constructor
    · intro h
      exact h view (.head _)
    · intro h bytes hmem
      obtain _ | ⟨_, hmem⟩ := hmem
      · exact h
      · cases hmem
  have hwrite : writeParts [backslash, quote] [.text view] =
      escapeChars [backslash, quote] view := by
    rw [writeParts_text view [] rfl]
    cases escapeChars [backslash, quote] view with
    | error e => rfl
    | ok out => exact congrArg Except.ok (List.append_nil out)
  simp only [denoted_value, htext, hno, hwrite] at hparts
  exact map_quoted.trans hparts

theorem literalString_iff (indent : Nat) (chomp : Chomp) (lines : List (List UInt8)) :
    (∃ literal, blockString (.block .literal indent chomp lines) = .ok literal ∧
        IsLiteral literal (partsText (keptParts indent chomp lines))) ↔
      ∀ bytes, .text bytes ∈ keptParts indent chomp lines →
        NoEscape bytes ∧ ∀ c ∈ bytes, 0x20 ≤ c ∨ isSpaceChar c = true := by
  have hparts := writeParts_iff sound_block (keptParts indent chomp lines) (fun _ => by decide)
  have hwrite : blockToString false (.block .literal indent chomp lines) =
      writeParts (blockEscape false) (keptParts indent chomp lines) :=
    blockLoop_literal indent chomp _ false true
  rw [← hwrite] at hparts
  refine map_quoted.trans (hparts.trans ⟨?_, ?_⟩)
  · intro h bytes hmem
    refine ⟨h.1 bytes hmem, ?_⟩
    intro c hc
    exact (h.2 c (List.mem_flatMap.2 ⟨.text bytes, hmem, hc⟩)).1
  · intro h
    refine ⟨fun bytes hmem => (h bytes hmem).1, ?_⟩
    intro c hc
    refine ⟨?_, denoted_block c⟩
    obtain ⟨part, hmem, hc⟩ := List.mem_flatMap.1 hc
    cases part with
    | lineBreak =>
      obtain rfl := List.mem_singleton.1 hc
      exact .inr rfl
    | text bytes => exact (h bytes hmem).2 c hc

/-- A value and a literal block keep their text exactly where no backslash in it can be taken for
an escape of several digits and no control character is in it, of which a block may hold line
breaks and tabs. -/
theorem strings_keep (view : List UInt8) (indent : Nat) (chomp : Chomp)
    (lines : List (List UInt8)) :
    ((∃ literal, valueString view = .ok literal ∧ IsLiteral literal view) ↔
      NoEscape view ∧ ∀ c ∈ view, 0x20 ≤ c) ∧
    ((∃ literal, blockString (.block .literal indent chomp lines) = .ok literal ∧
        IsLiteral literal (partsText (keptParts indent chomp lines))) ↔
      ∀ bytes, .text bytes ∈ keptParts indent chomp lines →
        NoEscape bytes ∧ ∀ c ∈ bytes, 0x20 ≤ c ∨ isSpaceChar c = true) :=
  ⟨valueString_iff view, literalString_iff indent chomp lines⟩

/-- The value `\xzz`, as in a path. -/
theorem valueString_throws :
    valueString [backslash, 0x78, 0x7A, 0x7A] = .error .invalidArgument := by
  have hstarts : StartsEscape [0x78, 0x7A, 0x7A] [0x7A, 0x7A] 2 := ⟨0x78, rfl, rfl, by decide⟩
  rw [valueString, escapeChars, unescapeHexunicode_of_starts hstarts]
  rfl

end Trieste.Yaml
