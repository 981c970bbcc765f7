import Trieste.Library.Occurrence
import Trieste.Yaml.Folding

namespace Trieste.Yaml
set_option autoImplicit true
open Utf8 Json
open Library (replaceEach replaceLoop ReplacesTo InStep Unbordered firstOccurrence)

/-- `replace_all`, or nothing while its loop goes on after so many rounds. -/
def replaceAllWithin (rounds : Nat) (v find replace : Text) : Option Text :=
  replaceLoop find replace rounds v

theorem replaceFirst_pair (a b c : UInt8) (s : Text) :
    replaceFirst (a, b) c s = Library.replaceFirst [a, b] [c] s := by
  induction s with
  | nil => rfl
  | cons d s ih =>
    cases s with
    | nil =>
      rw [Library.replaceFirst_cons (by simp)]
      rfl
    | cons e s =>
      by_cases h : d = a ∧ e = b
      · obtain ⟨rfl, rfl⟩ := h
        rw [replaceFirst, if_pos ⟨rfl, rfl⟩]
        exact (Library.replaceFirst_prefix [d, e] [c] s).symm
      · have hprefix : ¬ [a, b] <+: d :: e :: s := by
          rw [List.cons_prefix_cons, List.cons_prefix_cons]
          exact fun hp => h ⟨hp.1.symm, hp.2.1.symm⟩
        rw [replaceFirst, if_neg h, ih, Library.replaceFirst_cons hprefix]

theorem replacesTo_replaceAll (a b c : UInt8) (s : Text) :
    ReplacesTo [a, b] [c] s (replaceAll (a, b) c s) := by
  have hgo : ∀ n s, s.length ≤ n → ReplacesTo [a, b] [c] s (replaceAll.go (a, b) c n s) := by
    intro n
    induction n with
    | zero =>
      intro s hs
      obtain rfl := List.length_eq_zero_iff.1 (Nat.le_zero.1 hs)
      exact .of_none (by simp)
    | succ n ih =>
      intro s hs
      rw [replaceAll.go, replaceFirst_pair]
      cases h : Library.replaceFirst [a, b] [c] s with
      | none => exact .of_none (Library.replaceFirst_eq_none.1 h)
      | some s' =>
        obtain ⟨before, after, rfl, rfl, _⟩ := Library.replaceFirst_eq_some h
        rw [ReplacesTo.step h]
        apply ih
        simp only [List.length_append, List.length_cons, List.length_nil] at hs ⊢
        omega
  exact hgo s.length s (Nat.le_refl _)

def apostrophe : UInt8 := 0x27

def squeezed : Text → Text
  | c :: d :: s =>
    if c = apostrophe ∧ d = apostrophe then squeezed (d :: s) else c :: squeezed (d :: s)
  | s => s

theorem squeezed_cons (h : c ≠ apostrophe) (s : Text) : squeezed (c :: s) = c :: squeezed s := by
  cases s with
  | nil => rfl
  | cons d s =>
    rw [squeezed, if_neg]
    exact fun hboth => h hboth.1

theorem squeezed_pair (s : Text) :
    squeezed (apostrophe :: apostrophe :: s) = squeezed (apostrophe :: s) := by
  rw [squeezed, if_pos ⟨rfl, rfl⟩]

theorem squeezed_append_pair (before after : Text) :
    squeezed (before ++ apostrophe :: apostrophe :: after) =
      squeezed (before ++ apostrophe :: after) := by
  induction before with
  | nil => exact squeezed_pair after
  | cons c before ih =>
    cases before with
    | nil =>
      by_cases h : c = apostrophe
      · subst h
        exact squeezed_pair _
      · rw [List.cons_append, squeezed_cons h, List.cons_append, squeezed_cons h, ih]
    | cons d before =>
      simp only [List.cons_append] at ih ⊢
      rw [squeezed, squeezed, ih]

theorem squeezed_of_not_infix {s : Text} (h : ¬ [apostrophe, apostrophe] <:+: s) :
    squeezed s = s := by
  induction s with
  | nil => rfl
  | cons c s ih =>
    have hs : squeezed s = s := ih fun hin => h (List.infix_cons hin)
    cases s with
    | nil => rfl
    | cons d s =>
      rw [squeezed, if_neg, hs]
      rintro ⟨rfl, rfl⟩
      exact h ⟨[], s, rfl⟩

theorem replaceAll_eq_squeezed (s : Text) :
    replaceAll (apostrophe, apostrophe) apostrophe s = squeezed s := by
  have h := replacesTo_replaceAll apostrophe apostrophe apostrophe s
  have hkept : squeezed (replaceAll (apostrophe, apostrophe) apostrophe s) = squeezed s := by
    refine h.kept (p := fun t => squeezed t = squeezed s) rfl fun t t' ht hp => ?_
    obtain ⟨before, after, rfl, rfl, _⟩ := Library.replaceFirst_eq_some ht
    rw [← hp]
    simpa using (squeezed_append_pair before after).symm
  rw [← hkept, squeezed_of_not_infix h.not_infix]

/-- What stands between the quotes of a scalar: `(?:''|[^'])*`. -/
inductive SingleBody : Text → Prop
  | nil : SingleBody []
  | pair (h : SingleBody s) : SingleBody (apostrophe :: apostrophe :: s)
  | char (hc : c ≠ apostrophe) (h : SingleBody s) : SingleBody (c :: s)

def unpaired (s : Text) : Text := replaceEach [apostrophe, apostrophe] [apostrophe] 0 s

theorem unpaired_pair (s : Text) :
    unpaired (apostrophe :: apostrophe :: s) = apostrophe :: unpaired s :=
  Library.replaceEach_find (List.cons_ne_nil _ _) s

theorem unpaired_cons (h : c ≠ apostrophe) (s : Text) : unpaired (c :: s) = c :: unpaired s := by
  apply Library.replaceEach_keep
  rw [List.cons_prefix_cons]
  exact fun hp => h hp.1.symm

def quoteRun : Text := [apostrophe, apostrophe, apostrophe, apostrophe]

theorem squeezed_quote (h : s.head? ≠ some apostrophe) :
    squeezed (apostrophe :: s) = apostrophe :: squeezed s := by
  cases s with
  | nil => rfl
  | cons d s =>
    rw [squeezed, if_neg]
    rintro ⟨-, rfl⟩
    exact h rfl

theorem quoteRun_pair (h : s.head? ≠ some apostrophe) :
    quoteRun <:+: apostrophe :: apostrophe :: s ↔ quoteRun <:+: s := by
  rw [List.infix_cons_iff, List.infix_cons_iff, or_iff_right, or_iff_right]
  · rw [quoteRun, List.cons_prefix_cons]
    rintro ⟨-, t, rfl⟩
    exact h rfl
  · rw [quoteRun, List.cons_prefix_cons, List.cons_prefix_cons]
    rintro ⟨-, -, t, rfl⟩
    exact h rfl

theorem quoteRun_cons (h : c ≠ apostrophe) : quoteRun <:+: c :: s ↔ quoteRun <:+: s := by
  rw [List.infix_cons_iff, or_iff_right]
  intro hp
  exact h (List.cons_prefix_cons.1 hp).1.symm

theorem squeezed_cases (h : SingleBody s) :
    (¬ quoteRun <:+: s ∧ squeezed s = unpaired s) ∨
      (quoteRun <:+: s ∧ (squeezed s).length < (unpaired s).length) := by
  induction h with
  | nil => exact .inl ⟨by decide, rfl⟩
  | @pair s h ih =>
    rw [squeezed_pair, unpaired_pair]
    by_cases hs : s.head? = some apostrophe
    · obtain ⟨s, rfl⟩ := List.head?_eq_some_iff.1 hs
      cases h with
      | char hc => exact absurd rfl hc
      | @pair s h =>
        have hle : (squeezed (apostrophe :: apostrophe :: s)).length ≤
            (unpaired (apostrophe :: apostrophe :: s)).length := by
          rcases ih with ih | ih
          · exact Nat.le_of_eq (congrArg List.length ih.2)
          · exact Nat.le_of_lt ih.2
        rw [squeezed_pair]
        exact .inr ⟨⟨[], s, rfl⟩, Nat.lt_succ_of_le hle⟩
    · rw [squeezed_quote hs, quoteRun_pair hs]
      exact ih.imp (And.imp_right (congrArg _)) (And.imp_right Nat.succ_lt_succ)
  | @char c s hc h ih =>
    rw [squeezed_cons hc, unpaired_cons hc, quoteRun_cons hc]
    exact ih.imp (And.imp_right (congrArg _)) (And.imp_right Nat.succ_lt_succ)

theorem mem_squeezed (s : Text) : c ∈ squeezed s ↔ c ∈ s := by
  induction s with
  | nil => exact Iff.rfl
  | cons d s ih =>
    cases s with
    | nil => exact Iff.rfl
    | cons e s =>
      rw [squeezed]
      split
      · rename_i h
        rw [ih, h.1, h.2]
        simp
      · rw [List.mem_cons, ih, List.mem_cons (b := d)]

theorem squeezed_append (h : apostrophe ∉ t) (s : Text) : squeezed (t ++ s) = t ++ squeezed s := by
  induction t with
  | nil => rfl
  | cons c t ih =>
    have hc : c ≠ apostrophe := fun heq => h (heq ▸ List.mem_cons_self)
    rw [List.cons_append, squeezed_cons hc, ih fun hmem => h (List.mem_cons_of_mem c hmem),
      List.cons_append]

theorem pieces_quote (s : Text) :
    pieces .single (apostrophe :: s) = apostrophe :: pieces .single s := rfl

theorem piece_ne_nil (toEscape : Text) (c : UInt8) : piece toEscape c ≠ [] := by
  rw [piece]
  split
  · rw [escapeChar]
    repeat' split
    all_goals exact List.cons_ne_nil _ _
  · split <;> exact List.cons_ne_nil _ _

theorem head_pieces (h : s.head? ≠ some apostrophe) :
    (pieces .single s).head? ≠ some apostrophe := by
  cases s with
  | nil => exact nofun
  | cons c s =>
    have hc : c ≠ apostrophe := fun heq => h (congrArg some heq)
    have hpiece := apostrophe_not_mem_piece .single hc
    rw [pieces, List.flatMap_cons]
    cases hp : piece (quoteEscape .single false) c with
    | nil => exact absurd hp (piece_ne_nil _ c)
    | cons d t =>
      rintro ⟨⟩
      exact hpiece (hp ▸ List.mem_cons_self)

theorem squeezed_pieces (s : Text) : squeezed (pieces .single s) = pieces .single (squeezed s) := by
  induction s with
  | nil => rfl
  | cons c s ih =>
    by_cases hc : c = apostrophe
    · subst hc
      by_cases hs : s.head? = some apostrophe
      · obtain ⟨s, rfl⟩ := List.head?_eq_some_iff.1 hs
        rw [pieces_quote, pieces_quote, squeezed_pair, squeezed_pair, ← pieces_quote, ih]
      · rw [pieces_quote, squeezed_quote hs, squeezed_quote (head_pieces hs), ih, pieces_quote]
    · have hcons (t : Text) :
          pieces .single (c :: t) = piece (quoteEscape .single false) c ++ pieces .single t := rfl
      rw [squeezed_cons hc, hcons, hcons, squeezed_append (apostrophe_not_mem_piece .single hc), ih]

theorem quoteText_single {view : Text} (h : backslash ∉ view) :
    quoteText .single false view = .ok (pieces .single (squeezed view)) := by
  rw [quoteText, escapeChars, unescapeHexunicode_of_noEscape (.of_not_mem h)]
  refine congrArg Except.ok ?_
  dsimp only
  rw [escapeLoop_unquoted (quoteEscape .single false) h]
  exact (replaceAll_eq_squeezed _).trans (squeezed_pieces view)

theorem quoteString_single {view : Text} (h : backslash ∉ view) (string : Text) :
    (∃ literal, quoteString .single [.block view] = .ok literal ∧ IsLiteral literal string) ↔
      (∀ c ∈ view, isWritable c) ∧ readAs .single (squeezed view) = string := by
  have hwritten : quoteString .single [.block view] =
      .ok (quoted ((squeezed view).flatMap (piece [backslash, quote]))) := by
    rw [quoteString, quoteToString, quoteLoop, if_neg (by simp), if_neg (by simp)]
    exact congrArg (Except.map quoted) (quoteText_single h)
  rw [hwritten]
  constructor
  · intro hliteral
    obtain ⟨literal, hok, hliteral⟩ := hliteral
    cases hok
    obtain ⟨hwritable, hread⟩ := (isLiteral_pieces sound_value _ _).1 hliteral
    exact ⟨fun c hc => hwritable c ((mem_squeezed view).2 hc), hread⟩
  · intro hread
    refine ⟨_, rfl, (isLiteral_pieces sound_value _ _).2 ⟨fun c hc => ?_, hread.2⟩⟩
    exact hread.1 c ((mem_squeezed view).1 hc)

theorem denoted_single : ∀ c, isWritable c →
    (denoted (quoteEscape .single false) c = c ↔ 0x20 ≤ c) := by
  unfold isWritable
  exact forall_byte (by decide +kernel)

theorem readAs_single_iff {t : Text} (h : ∀ c ∈ t, isWritable c) :
    readAs .single t = t ↔ ∀ c ∈ t, 0x20 ≤ c := by
  rw [readAs]
  induction t with
  | nil => exact iff_of_true rfl (List.forall_mem_nil _)
  | cons c t ih =>
    rw [List.forall_mem_cons] at h ⊢
    rw [List.map_cons, List.cons.injEq, denoted_single c h.1, ih h.2]

/-- A scalar is decoded with one quote for each pair exactly where no pairs are next to each other
and it has no control characters. -/
theorem single_decoded_iff {body : Text} (hbody : SingleBody body) (h : backslash ∉ body) :
    (∃ literal, quoteString .single [.block body] = .ok literal ∧
        IsLiteral literal (unpaired body)) ↔
      (∀ c ∈ body, 0x20 ≤ c) ∧ ¬ quoteRun <:+: body := by
  rw [quoteString_single h]
  rcases squeezed_cases hbody with ⟨hrun, heq⟩ | ⟨hrun, hlt⟩
  · rw [and_iff_left hrun, ← heq]
    constructor
    · intro hw
      have hge := (readAs_single_iff fun c hc => hw.1 c ((mem_squeezed body).1 hc)).1 hw.2
      exact fun c hc => hge c ((mem_squeezed body).2 hc)
    · intro hge
      have hw : ∀ c ∈ body, isWritable c := fun c hc => .inl (hge c hc)
      refine ⟨hw, (readAs_single_iff fun c hc => hw c ((mem_squeezed body).1 hc)).2 fun c hc => ?_⟩
      exact hge c ((mem_squeezed body).1 hc)
  · refine iff_of_false (fun hw => ?_) (fun hno => hno.2 hrun)
    have hlen := congrArg List.length hw.2
    rw [readAs, List.length_map] at hlen
    exact absurd hlen (Nat.ne_of_lt hlt)

/-- A single-quoted scalar on one line without backslashes. -/
structure SingleQuotedLine (text : Text) (l : Location) (body : Text) : Prop where
  view : viewOf text l = apostrophe :: (body ++ [apostrophe])
  pairs : SingleBody body
  single : newline ∉ body
  plain : backslash ∉ body

/-- `replace_all` comes to its end, with all occurrences in its argument replaced. -/
def ReplacesEach (v find replace : Text) : Prop :=
  ∃ rounds, replaceAllWithin rounds v find replace = some (replaceEach find replace 0 v)

/-- Quotes are decoded as pairs where no pairs stand next to each other, and any other text is
replaced as it should be where each round replaces the occurrence that is next in the argument. -/
theorem single_quotes_iff (text : Text) (l : Location) (body : Text) (minIndent : Nat)
    (v find replace : Text) :
    (SingleQuotedLine text l body →
      ((∃ literal, quoteString .single (toLines text minIndent l) = .ok literal ∧
          IsLiteral literal (unpaired body)) ↔
        (∀ c ∈ body, 0x20 ≤ c) ∧ ¬ quoteRun <:+: body)) ∧
      (find ≠ [] →
        (InStep find replace [] v → ReplacesEach v find replace) ∧
          (¬ replace <+: find ∨ Unbordered find →
            ReplacesEach v find replace → InStep find replace [] v)) := by
  constructor
  · intro h
    rw [toLines_single h.view h.single]
    exact single_decoded_iff h.pairs h.plain
  · intro hne
    constructor
    · exact fun h => h.replacesTo hne
    · exact fun hfind h => Library.inStep_of_replacesTo hne hfind h

theorem singleQuotedLine_pair : SingleQuotedLine [apostrophe, 0x61, apostrophe, apostrophe, 0x62,
    apostrophe] { source := none, pos := 0, len := 6 } [0x61, apostrophe, apostrophe, 0x62] where
  view := rfl
  pairs := .char (by decide) (.pair (.char (by decide) .nil))
  single := by decide
  plain := by decide

/-- The scalar `'a''b'`. -/
theorem single_quotes_pair : ∃ literal, quoteString .single
    (toLines [apostrophe, 0x61, apostrophe, apostrophe, 0x62, apostrophe] 0
      { source := none, pos := 0, len := 6 }) = .ok literal ∧
      IsLiteral literal [0x61, apostrophe, 0x62] :=
  ((single_quotes_iff _ _ _ 0 [] [] []).1 singleQuotedLine_pair).2 ⟨by decide +kernel, by decide⟩

theorem singleQuotedLine_run : SingleQuotedLine [apostrophe, apostrophe, apostrophe, apostrophe,
    apostrophe, apostrophe] { source := none, pos := 0, len := 6 } quoteRun where
  view := rfl
  pairs := .pair (.pair .nil)
  single := by decide
  plain := by decide

/-- Of the scalar `''''''` one quote is left instead of two, and the loop does not end where a
text is replaced by itself. -/
theorem single_quotes_lost :
    (¬ ∃ literal, quoteString .single (toLines [apostrophe, apostrophe, apostrophe, apostrophe,
      apostrophe, apostrophe] 0 { source := none, pos := 0, len := 6 }) = .ok literal ∧
        IsLiteral literal (unpaired quoteRun)) ∧
      ¬ ReplacesEach [0x61] [0x61] [0x61] := by
  refine ⟨fun h => ?_, fun h => ?_⟩
  · rw [toLines_single singleQuotedLine_run.view singleQuotedLine_run.single,
      single_decoded_iff singleQuotedLine_run.pairs singleQuotedLine_run.plain] at h
    exact h.2 ⟨[], [], rfl⟩
  · have hnot : ¬ [0x61] <:+: replaceEach [(0x61 : UInt8)] [0x61] 0 [0x61] :=
      ReplacesTo.not_infix h
    exact hnot ⟨[], [], rfl⟩

end Trieste.Yaml
