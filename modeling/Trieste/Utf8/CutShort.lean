import Trieste.Utf8.ReadToEnd

namespace Trieste.Utf8
set_option autoImplicit true

/-- The mark of UTF-16LE with nothing or one zero behind it, or a mark of UTF-32 with one or two bytes
too many behind it. -/
def CutShort (contents : List UInt8) : Prop :=
  contents = [0xFF, 0xFE] ∨ contents = [0xFF, 0xFE, 0x00] ∨
    ∃ rest, (contents = Encoding.utf32le.mark ++ rest ∨ contents = Encoding.utf32be.mark ++ rest) ∧
      (rest.length % 4 = 1 ∨ rest.length % 4 = 2)

theorem isOk_map (f : α → β) (r : Except ε α) : (r.map f).isOk = r.isOk := by
  cases r with
  | ok a => rfl
  | error e => rfl

@[elab_as_elim]
theorem fourByFour {P : List α → Prop} (nil : P []) (one : ∀ a, P [a]) (two : ∀ a b, P [a, b])
    (three : ∀ a b c, P [a, b, c]) (four : ∀ a b c d rest, P rest → P (a :: b :: c :: d :: rest)) :
    ∀ list, P list
  | [] => nil
  | [a] => one a
  | [a, b] => two a b
  | [a, b, c] => three a b c
  | a :: b :: c :: d :: rest => four a b c d rest (fourByFour nil one two three four rest)

theorem readUtf32Be_ok (contents : List UInt8) : (readUtf32Be contents).isOk = true ↔
    ¬ (contents.length % 4 = 1 ∨ contents.length % 4 = 2) := by
  induction contents using fourByFour with
  | nil => exact iff_of_true rfl (by simp)
  | one a => exact iff_of_false Bool.false_ne_true (by simp)
  | two a b => exact iff_of_false Bool.false_ne_true (by simp)
  | three a b c => exact iff_of_true rfl (by simp)
  | four a b c d rest ih =>
    have hread : readUtf32Be (a :: b :: c :: d :: rest) =
        (readUtf32Be rest).map (writeRune (rune32 a b c d) ++ ·) := rfl
    rw [hread, isOk_map, ih]
    simp only [List.length_cons]
    omega

theorem readUtf32Le_ok (contents : List UInt8) : (readUtf32Le contents).isOk = true ↔
    ¬ (contents.length % 4 = 1 ∨ contents.length % 4 = 2) := by
  induction contents using fourByFour with
  | nil => exact iff_of_true rfl (by simp)
  | one a => exact iff_of_false Bool.false_ne_true (by simp)
  | two a b => exact iff_of_false Bool.false_ne_true (by simp)
  | three a b c => exact iff_of_true rfl (by simp)
  | four a b c d rest ih =>
    have hread : readUtf32Le (a :: b :: c :: d :: rest) =
        (readUtf32Le rest).map (writeRune (rune32 d c b a) ++ ·) := rfl
    rw [hread, isOk_map, ih]
    simp only [List.length_cons]
    omega

theorem detectUtf32_length (h : detectUtf32 contents ≠ .none) : contents.length % 4 = 0 := by
  unfold detectUtf32 at h
  split at h
  · exact absurd rfl h
  · next hlen => exact Classical.not_not.1 hlen

theorem readUnmarked_ok (contents : List UInt8) (autodetect : Bool) :
    (readUnmarked contents autodetect).isOk = true := by
  unfold readUnmarked
  split
  · rfl
  split
  · rfl
  split
  · rfl
  · rfl
  split
  · next hdetect =>
    apply (readUtf32Be_ok contents).2
    have hlen := detectUtf32_length (by rw [hdetect]; exact DetectResult.noConfusion)
    omega
  · next hdetect =>
    apply (readUtf32Le_ok contents).2
    have hlen := detectUtf32_length (by rw [hdetect]; exact DetectResult.noConfusion)
    omega
  · rfl

theorem cutShort_long (b0 b1 b2 b3 : UInt8) (rest : List UInt8) :
    CutShort (b0 :: b1 :: b2 :: b3 :: rest) ↔
      ((b0 = 0xFF ∧ b1 = 0xFE ∧ b2 = 0 ∧ b3 = 0) ∨ (b0 = 0 ∧ b1 = 0 ∧ b2 = 0xFE ∧ b3 = 0xFF)) ∧
        (rest.length % 4 = 1 ∨ rest.length % 4 = 2) := by
  simp only [CutShort, Encoding.mark, List.cons_append, List.nil_append, List.cons.injEq,
    List.cons_ne_nil, and_false, false_or]
  constructor
  · intro h
    obtain ⟨rest', hmark, hlen⟩ := h
    rcases hmark with ⟨h0, h1, h2, h3, rfl⟩ | ⟨h0, h1, h2, h3, rfl⟩
    · exact ⟨.inl ⟨h0, h1, h2, h3⟩, hlen⟩
    · exact ⟨.inr ⟨h0, h1, h2, h3⟩, hlen⟩
  · intro h
    obtain ⟨hmark, hlen⟩ := h
    refine ⟨rest, ?_, hlen⟩
    rcases hmark with ⟨h0, h1, h2, h3⟩ | ⟨h0, h1, h2, h3⟩
    · exact .inl ⟨h0, h1, h2, h3, rfl⟩
    · exact .inr ⟨h0, h1, h2, h3, rfl⟩

/-- A mark is read without failing unless the contents are cut short. -/
theorem readMarked_long (b0 b1 b2 b3 : UInt8) (rest : List UInt8)
    (h : readMarked (b0 :: b1 :: b2 :: b3 :: rest) = some result) :
    result.isOk = true ↔ ¬ CutShort (b0 :: b1 :: b2 :: b3 :: rest) := by
  have hsubstr : ∀ k ≤ 4, substr (b0 :: b1 :: b2 :: b3 :: rest) k =
      .ok ((b0 :: b1 :: b2 :: b3 :: rest).drop k) := by
    intro k hk
    rw [substr, if_neg]
    simp only [List.length_cons]
    omega
  rw [cutShort_long]
  unfold readMarked at h
  dsimp only [List.getD_cons_zero, List.getD_cons_succ] at h
  rw [if_neg (by simp only [List.length_cons]; omega), hsubstr 3 (by decide), hsubstr 4 (by decide),
    hsubstr 2 (by decide)] at h
  split at h
  · next h0 =>
    cases h
    refine iff_of_true rfl fun hcut => ?_
    rcases hcut.1 with hmark | hmark
    · exact absurd (hmark.1.symm.trans h0.1) (by decide)
    · exact absurd (hmark.1.symm.trans h0.1) (by decide)
  next hutf8 =>
  split at h
  · next h0 =>
    split at h
    · next h2 =>
      cases h
      exact (readUtf32Le_ok rest).trans (not_congr (and_iff_right (.inl ⟨h0.1, h0.2, h2.1, h2.2⟩)).symm)
    · next h2 =>
      cases h
      refine iff_of_true rfl fun hcut => ?_
      rcases hcut.1 with hmark | hmark
      · exact h2 hmark.2.2
      · exact absurd (hmark.1.symm.trans h0.1) (by decide)
  next hle =>
  split at h
  · next h0 =>
    cases h
    exact (readUtf32Be_ok rest).trans (not_congr (and_iff_right (.inr h0)).symm)
  next hbe =>
  split at h
  · next h0 =>
    cases h
    refine iff_of_true rfl fun hcut => ?_
    rcases hcut.1 with hmark | hmark
    · exact hle ⟨hmark.1, hmark.2.1⟩
    · exact hbe hmark
  · cases h

theorem readMarked_none_long (b0 b1 b2 b3 : UInt8) (rest : List UInt8)
    (h : readMarked (b0 :: b1 :: b2 :: b3 :: rest) = none) :
    ¬ CutShort (b0 :: b1 :: b2 :: b3 :: rest) := by
  rw [cutShort_long]
  intro hcut
  obtain ⟨hmark | hmark, -⟩ := hcut
  · obtain ⟨rfl, rfl, rfl, rfl⟩ := hmark
    exact absurd ((readMarked_utf32le rest).symm.trans h) (by simp)
  · obtain ⟨rfl, rfl, rfl, rfl⟩ := hmark
    exact absurd ((readMarked_utf32be rest).symm.trans h) (by simp)

/-- Of two or three bytes, only the mark of UTF-16LE with nothing or one zero behind it is taken for a
mark that is longer. -/
theorem readMarked_short (b0 b1 : UInt8) (rest : List UInt8) (hlen : rest.length ≤ 1)
    (h : readMarked (b0 :: b1 :: rest) = some result) :
    result.isOk = true ↔ ¬ (b0 = 0xFF ∧ b1 = 0xFE ∧ rest.getD 0 0 = 0) := by
  have hthird : rest.getD 1 0 = 0 := by
    rw [List.getD_eq_getElem?_getD, List.getElem?_eq_none hlen]
    rfl
  unfold readMarked at h
  simp only [List.getD_cons_zero, List.getD_cons_succ] at h
  rw [if_neg (by simp only [List.length_cons]; omega)] at h
  split at h
  · next h0 =>
    cases h
    have hone : rest ≠ [] := by
      rintro rfl
      exact absurd h0.2.2 (by decide)
    have hlen' := List.length_pos_iff.2 hone
    rw [substr, if_neg (by simp only [List.length_cons]; omega)]
    exact iff_of_true rfl fun hmark => absurd (hmark.1.symm.trans h0.1) (by decide)
  split at h
  · next h0 =>
    split at h
    · next h2 =>
      cases h
      rw [substr, if_pos (by simp only [List.length_cons]; omega)]
      exact iff_of_false Bool.false_ne_true fun hno => hno ⟨h0.1, h0.2, h2.1⟩
    · next h2 =>
      cases h
      rw [substr, if_neg (by simp only [List.length_cons]; omega)]
      exact iff_of_true rfl fun hmark => h2 ⟨hmark.2.2, hthird⟩
  next hle =>
  split at h
  · next h0 =>
    rw [hthird] at h0
    exact absurd h0.2.2.2 (by decide)
  split at h
  · cases h
    rw [substr, if_neg (by simp only [List.length_cons]; omega)]
    exact iff_of_true rfl fun hmark => hle ⟨hmark.1, hmark.2.1⟩
  · cases h

theorem cutShort_short (b0 b1 : UInt8) (rest : List UInt8) (hlen : rest.length ≤ 1) :
    CutShort (b0 :: b1 :: rest) ↔ b0 = 0xFF ∧ b1 = 0xFE ∧ rest.getD 0 0 = 0 := by
  have hlong : ∀ mark tail : List UInt8, mark.length = 4 → b0 :: b1 :: rest ≠ mark ++ tail := by
    intro mark tail hmark heq
    have hlength := congrArg List.length heq
    rw [List.length_append, hmark] at hlength
    simp only [List.length_cons] at hlength
    omega
  constructor
  · intro h
    rcases h with h | h | h
    · cases h
      exact ⟨rfl, rfl, rfl⟩
    · cases h
      exact ⟨rfl, rfl, rfl⟩
    · obtain ⟨tail, hmark | hmark, -⟩ := h
      · exact absurd hmark (hlong _ _ rfl)
      · exact absurd hmark (hlong _ _ rfl)
  · intro h
    obtain ⟨rfl, rfl, hzero⟩ := h
    cases rest with
    | nil => exact .inl rfl
    | cons b2 rest =>
      have hrest : rest = [] := by
        apply List.eq_nil_of_length_eq_zero
        rw [List.length_cons] at hlen
        omega
      have hb2 : b2 = 0 := hzero
      rw [hrest, hb2]
      exact .inr (.inl rfl)

theorem readMarked_le (rest : List UInt8) :
    readMarked (0xFF :: 0xFE :: rest) ≠ none := by
  unfold readMarked
  simp only [List.getD_cons_zero, List.getD_cons_succ]
  rw [if_neg (by simp only [List.length_cons]; omega), if_neg (fun h => absurd h.1 (by decide)),
    if_pos (And.intro trivial trivial)]
  split
  · exact Option.some_ne_none _
  · exact Option.some_ne_none _

/-- A file is read to its end, without an exception and without looking behind it, unless it is cut
short. -/
theorem readToEnd_ok_iff (contents : List UInt8) (autodetect : Bool) :
    (readToEnd contents autodetect).isOk = true ↔ ¬ CutShort contents := by
  have hnone : readMarked contents = none → (readToEnd contents autodetect).isOk = true := by
    intro hmarked
    rw [readToEnd, hmarked]
    exact readUnmarked_ok contents autodetect
  have hshort : ∀ b0 b1 rest, rest.length ≤ 1 → contents = b0 :: b1 :: rest →
      ((readToEnd contents autodetect).isOk = true ↔ ¬ CutShort contents) := by
    intro b0 b1 rest hlen hcontents
    rw [hcontents] at hnone ⊢
    rw [cutShort_short b0 b1 rest hlen]
    cases hmarked : readMarked (b0 :: b1 :: rest) with
    | none =>
      refine iff_of_true (hnone hmarked) fun hmark => ?_
      obtain ⟨rfl, rfl, hzero⟩ := hmark
      exact readMarked_le rest hmarked
    | some result =>
      rw [readToEnd_of_marked hmarked]
      exact readMarked_short b0 b1 rest hlen hmarked
  rcases contents with _ | ⟨b0, _ | ⟨b1, _ | ⟨b2, _ | ⟨b3, rest⟩⟩⟩⟩
  · exact iff_of_true (hnone rfl) (by simp [CutShort, Encoding.mark])
  · exact iff_of_true (hnone rfl) (by simp [CutShort, Encoding.mark])
  · exact hshort b0 b1 [] (by decide) rfl
  · exact hshort b0 b1 [b2] (Nat.le_refl 1) rfl
  · cases hmarked : readMarked (b0 :: b1 :: b2 :: b3 :: rest) with
    | none => exact iff_of_true (hnone hmarked) (readMarked_none_long b0 b1 b2 b3 rest hmarked)
    | some result =>
      rw [readToEnd_of_marked hmarked]
      exact readMarked_long b0 b1 b2 b3 rest hmarked

/-- The mark of UTF-16LE alone is an exception, and a mark of UTF-32LE with one byte behind it is read
past its end. -/
theorem readToEnd_fails :
    readToEnd [0xFF, 0xFE] false = .error .outOfRange ∧
      readToEnd [0xFF, 0xFE, 0x00, 0x00, 0x61] false = .error .outOfBounds :=
  ⟨rfl, rfl⟩

end Trieste.Utf8
