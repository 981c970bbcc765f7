import Trieste.Utf8.Decode
import Trieste.Utf8.Hex

namespace Trieste.Utf8
set_option autoImplicit true

def IsSequence (bytes : List UInt8) : Prop := ∃ c : Char, bytes = String.utf8EncodeChar c

def WellFormed (s : List UInt8) : Prop := ∃ text, s = encode text

/-- A lead byte with its continuation bytes that UTF-8 does not have: too long a form, a surrogate,
or too large a value. The form of U+FFFD in four bytes is left out. -/
inductive Excluded : List UInt8 → Prop
  | overlong2 (rest : List UInt8) (h0 : c0 = 0xC0 ∨ c0 = 0xC1) (h1 : isContinuation c1 = true) :
      Excluded (c0 :: c1 :: rest)
  | overlong3 (rest : List UInt8) (h1 : isContinuation c1 = true) (hlow : c1 < 0xA0)
      (h2 : isContinuation c2 = true) : Excluded (0xE0 :: c1 :: c2 :: rest)
  | surrogate (rest : List UInt8) (h1 : isContinuation c1 = true) (hhigh : 0xA0 ≤ c1)
      (h2 : isContinuation c2 = true) : Excluded (0xED :: c1 :: c2 :: rest)
  | overlong4 (rest : List UInt8) (h1 : isContinuation c1 = true) (hlow : c1 < 0x90)
      (h2 : isContinuation c2 = true) (h3 : isContinuation c3 = true)
      (hbad : [c1, c2, c3] ≠ [0x8F, 0xBF, 0xBD]) : Excluded (0xF0 :: c1 :: c2 :: c3 :: rest)
  | beyond (rest : List UInt8) (h0 : c0 = 0xF4 ∧ 0x90 ≤ c1 ∨ c0 = 0xF5 ∨ c0 = 0xF6 ∨ c0 = 0xF7)
      (h1 : isContinuation c1 = true) (h2 : isContinuation c2 = true)
      (h3 : isContinuation c3 = true) : Excluded (c0 :: c1 :: c2 :: c3 :: rest)

/-- What is decoded from a string, and from its suffixes, is UTF-8 or the bad rune. -/
structure OnlyWellFormed (s : List UInt8) : Prop where
  sequence : ∀ t, t <:+ s → 2 ≤ (utf8ToRune t).2 → (utf8ToRune t).1 ≠ bad →
    IsSequence (t.take (utf8ToRune t).2)
  ascii : ∀ c t, c :: t <:+ s → 0x80 ≤ c → 0x80 ≤ (utf8ToRune (c :: t)).1
  detect : detectUtf8 s = true → WellFormed s
  sanitize : WellFormed (sanitizeUtf8 s)

theorem byte_marks : ∀ c : UInt8,
    (c &&& mask1 == mark1 → c.toNat < 128 ∧ (c &&& value1).toNat = c.toNat) ∧
    (c &&& mask2 == mark2 → ∃ x < 32, c = UInt8.ofNat (x + 0xC0)) ∧
    (c &&& mask3 == mark3 → ∃ x < 16, c = UInt8.ofNat (x + 0xE0)) ∧
    (c &&& mask4 == mark4 → ∃ x < 8, c = UInt8.ofNat (x + 0xF0)) ∧
    (isContinuation c = true → ∃ x < 64, c = UInt8.ofNat (x + 0x80)) :=
  forall_byte (by decide +kernel)

/-- How the bytes begin that are decoded as one rune. -/
inductive Shape : List UInt8 → Prop
  | ascii (rest : List UInt8) (h : c.toNat < 128) : Shape (c :: rest)
  | two (rest : List UInt8) (hx : x < 32) (hy : y < 64) :
      Shape (UInt8.ofNat (x + 0xC0) :: UInt8.ofNat (y + 0x80) :: rest)
  | three (rest : List UInt8) (hx : x < 16) (hy : y < 64) (hz : z < 64) :
      Shape (UInt8.ofNat (x + 0xE0) :: UInt8.ofNat (y + 0x80) :: UInt8.ofNat (z + 0x80) :: rest)
  | four (rest : List UInt8) (hx : x < 8) (hy : y < 64) (hz : z < 64) (hw : w < 64) :
      Shape (UInt8.ofNat (x + 0xF0) :: UInt8.ofNat (y + 0x80) :: UInt8.ofNat (z + 0x80) ::
        UInt8.ofNat (w + 0x80) :: rest)

theorem shape_or_bad (s : List UInt8) : Shape s ∨ utf8ToRune s = (bad, 1) := by
  have hcont : ∀ c, isContinuation c = true → ∃ x < 64, c = UInt8.ofNat (x + 0x80) :=
    fun c => (byte_marks c).2.2.2.2
  unfold utf8ToRune
  split
  · exact .inr rfl
  next c0 rest =>
  obtain ⟨h1, h2, h3, h4, -⟩ := byte_marks c0
  split
  · next hc => exact .inl (.ascii rest (h1 hc).1)
  split
  · next hc =>
    obtain ⟨x, hx, rfl⟩ := h2 (Bool.and_eq_true_iff.1 hc).1
    split
    · next c1 rest =>
      split
      · next hc1 =>
        obtain ⟨y, hy, rfl⟩ := hcont c1 hc1
        exact .inl (.two rest hx hy)
      · exact .inr rfl
    · exact .inr rfl
  split
  · next hc =>
    obtain ⟨x, hx, rfl⟩ := h3 (Bool.and_eq_true_iff.1 hc).1
    split
    · next c1 c2 rest _ =>
      split
      · next hcs =>
        obtain ⟨hc1, hc2⟩ := Bool.and_eq_true_iff.1 hcs
        obtain ⟨y, hy, rfl⟩ := hcont c1 hc1
        obtain ⟨z, hz, rfl⟩ := hcont c2 hc2
        exact .inl (.three rest hx hy hz)
      · exact .inr rfl
    · exact .inr rfl
  split
  · next hc =>
    obtain ⟨x, hx, rfl⟩ := h4 (Bool.and_eq_true_iff.1 hc).1
    split
    · next c1 c2 c3 rest _ _ =>
      split
      · next hcs =>
        obtain ⟨hcs, hc3⟩ := Bool.and_eq_true_iff.1 hcs
        obtain ⟨hc1, hc2⟩ := Bool.and_eq_true_iff.1 hcs
        obtain ⟨y, hy, rfl⟩ := hcont c1 hc1
        obtain ⟨z, hz, rfl⟩ := hcont c2 hc2
        obtain ⟨w, hw, rfl⟩ := hcont c3 hc3
        exact .inl (.four rest hx hy hz hw)
      · exact .inr rfl
    · exact .inr rfl
  · exact .inr rfl

/-- What is decoded from the encoding of a character. -/
theorem IsSequence.decoded (h : IsSequence bytes) (hv : utf8ToRune (bytes ++ rest) = (v, n)) :
    v.isValidChar ∧ n = runeSize v := by
  obtain ⟨c, rfl⟩ := h
  rw [utf8ToRune_encode, Prod.mk.injEq] at hv
  obtain ⟨rfl, rfl⟩ := hv
  refine ⟨c.valid, ?_⟩
  rw [← writeRune_toNat, length_writeRune]

theorem isSequence_writeRune (h : Nat.isValidChar v) : IsSequence (writeRune v) := by
  refine ⟨Char.ofNat v, ?_⟩
  rw [← writeRune_toNat]
  congr 1
  rw [Char.ofNat, dif_pos h]
  rfl

theorem lt_continuation (hy : y < 64) (hn : n < 64) :
    UInt8.ofNat (y + 0x80) < UInt8.ofNat (n + 0x80) ↔ y < n := by
  rw [UInt8.lt_iff_toNat_lt, toNat_ofNat (by omega), toNat_ofNat (by omega)]
  omega

/-- What a string begins with is decoded to another rune than the bad one only if it is UTF-8. -/
def Sound (s : List UInt8) : Prop :=
  2 ≤ (utf8ToRune s).2 → (utf8ToRune s).1 ≠ bad → IsSequence (s.take (utf8ToRune s).2)

theorem Excluded.not_sound (h : Excluded s) : ¬ Sound s := by
  have hcont : ∀ c, isContinuation c = true → ∃ x < 64, c = UInt8.ofNat (x + 0x80) :=
    fun c => (byte_marks c).2.2.2.2
  -- a sequence of the right form that is too long, or whose value is no character
  have hwrong : ∀ v n, utf8ToRune s = (v, n) → 2 ≤ n → v ≠ bad →
      (v.isValidChar → n ≠ runeSize v) → ¬ Sound s := by
    intro v n hv hn hbad hwrong hsound
    rw [Sound, hv] at hsound
    have hsequence := hsound hn hbad
    have hsplit : utf8ToRune (s.take n ++ s.drop n) = (v, n) := by rwa [List.take_append_drop]
    obtain ⟨hvalid, hsize⟩ := hsequence.decoded hsplit
    exact hwrong hvalid hsize
  cases h with
  | @overlong2 c0 c1 rest h0 h1 =>
    obtain ⟨y, hy, rfl⟩ := hcont _ h1
    have hx : ∃ x < 2, c0 = UInt8.ofNat (x + 0xC0) := by
      rcases h0 with rfl | rfl
      · exact ⟨0, by decide, rfl⟩
      · exact ⟨1, by decide, rfl⟩
    obtain ⟨x, hx, rfl⟩ := hx
    apply hwrong _ _ (utf8ToRune_two (Nat.lt_trans hx (by decide)) hy rest) (by decide)
    · rw [bad]
      omega
    · intro _
      rw [runeSize_eq, if_pos (by omega)]
      decide
  | overlong3 rest h1 hlow h2 =>
    obtain ⟨y, hy, rfl⟩ := hcont _ h1
    obtain ⟨z, hz, rfl⟩ := hcont _ h2
    have hlow := (lt_continuation hy (by decide : 32 < 64)).1 hlow
    apply hwrong _ _ (utf8ToRune_three (by decide : 0 < 16) hy hz rest) (by decide)
    · rw [bad]
      omega
    · intro _
      rw [runeSize_eq]
      split
      · omega
      · rw [if_pos (by omega)]
        decide
  | surrogate rest h1 hhigh h2 =>
    obtain ⟨y, hy, rfl⟩ := hcont _ h1
    obtain ⟨z, hz, rfl⟩ := hcont _ h2
    have hhigh := mt (lt_continuation hy (by decide : 32 < 64)).2 (UInt8.not_lt.2 hhigh)
    apply hwrong _ _ (utf8ToRune_three (by decide : 13 < 16) hy hz rest) (by decide)
    · rw [bad]
      omega
    · intro hvalid
      rcases hvalid with hvalid | hvalid
      · omega
      · omega
  | overlong4 rest h1 hlow h2 h3 hbad =>
    obtain ⟨y, hy, rfl⟩ := hcont _ h1
    obtain ⟨z, hz, rfl⟩ := hcont _ h2
    obtain ⟨w, hw, rfl⟩ := hcont _ h3
    have hlow := (lt_continuation hy (by decide : 16 < 64)).1 hlow
    apply hwrong _ _ (utf8ToRune_four (by decide : 0 < 8) hy hz hw rest) (by decide)
    · intro hvalue
      rw [bad] at hvalue
      have hy15 : y = 15 := by omega
      have hz63 : z = 63 := by omega
      have hw61 : w = 61 := by omega
      rw [hy15, hz63, hw61] at hbad
      exact hbad rfl
    · intro _
      rw [runeSize_eq]
      split
      · omega
      split
      · omega
      · rw [if_pos (by omega)]
        decide
  | @beyond c0 c1 c2 c3 rest h0 h1 h2 h3 =>
    obtain ⟨y, hy, rfl⟩ := hcont _ h1
    obtain ⟨z, hz, rfl⟩ := hcont _ h2
    obtain ⟨w, hw, rfl⟩ := hcont _ h3
    have hx : ∃ x < 8, c0 = UInt8.ofNat (x + 0xF0) ∧ (x = 4 ∧ 16 ≤ y ∨ 5 ≤ x) := by
      rcases h0 with ⟨rfl, hhigh⟩ | rfl | rfl | rfl
      · have hhigh := mt (lt_continuation hy (by decide : 16 < 64)).2 (UInt8.not_lt.2 hhigh)
        exact ⟨4, by decide, rfl, .inl ⟨rfl, Nat.le_of_not_lt hhigh⟩⟩
      · exact ⟨5, by decide, rfl, .inr (by decide)⟩
      · exact ⟨6, by decide, rfl, .inr (by decide)⟩
      · exact ⟨7, by decide, rfl, .inr (by decide)⟩
    obtain ⟨x, hx, rfl, hlarge⟩ := hx
    apply hwrong _ _ (utf8ToRune_four hx hy hz hw rest) (by decide)
    · rw [bad]
      omega
    · intro hvalid
      rcases hvalid with hvalid | hvalid
      · omega
      · omega

theorem isSequence_of_eq (h : writeRune v = bytes) (hvalid : Nat.isValidChar v) :
    IsSequence bytes := by
  rw [← h]
  exact isSequence_writeRune hvalid

theorem le_max4_of_valid (h : Nat.isValidChar v) : v ≤ max4 := by
  apply le_max4.2
  rcases h with h | h
  · exact Nat.lt_trans h (by decide)
  · exact h.2

theorem sequence_of_not_excluded (hne : s ≠ []) (h : ¬ Excluded s) :
    (utf8ToRune s).1 = bad ∨ IsSequence (s.take (utf8ToRune s).2) := by
  have hcont : ∀ x < 64, isContinuation (UInt8.ofNat (x + 0x80)) = true :=
    fun x hx => (continuationByte x hx).1
  rcases shape_or_bad s with hshape | hbad
  · cases hshape with
    | @ascii c rest hc =>
      have hone : utf8ToRune (UInt8.ofNat c.toNat :: rest) = (c.toNat, 1) := utf8ToRune_one hc rest
      rw [UInt8.ofNat_toNat] at hone
      rw [hone]
      right
      apply isSequence_of_eq _ (.inl (Nat.lt_trans hc (by decide)))
      rw [writeRune_eq (le_max4.2 (Nat.lt_trans hc (by decide))), if_pos hc, UInt8.ofNat_toNat]
      rfl
    | @two x y rest hx hy =>
      right
      have hlow : 2 ≤ x := by
        apply Nat.le_of_not_lt
        intro hlow
        apply h
        apply Excluded.overlong2 rest _ (hcont y hy)
        have hx : x = 0 ∨ x = 1 := by omega
        rcases hx with rfl | rfl
        · exact .inl rfl
        · exact .inr rfl
      have hvalid : Nat.isValidChar (x * 64 + y) := .inl (by omega)
      have hdiv : (x * 64 + y) / 64 = x := by omega
      have hmod : (x * 64 + y) % 64 = y := by omega
      rw [utf8ToRune_two hx hy rest]
      apply isSequence_of_eq _ hvalid
      rw [writeRune_eq (le_max4_of_valid hvalid), if_neg (by omega), if_pos (by omega), hdiv, hmod]
      rfl
    | @three x y z rest hx hy hz =>
      right
      have hlow : ¬ (x = 0 ∧ y < 32) := by
        intro hlow
        obtain ⟨rfl, hlow⟩ := hlow
        exact h (.overlong3 rest (hcont y hy) ((lt_continuation hy (by decide : 32 < 64)).2 hlow)
          (hcont z hz))
      have hsurrogate : ¬ (x = 13 ∧ 32 ≤ y) := by
        intro hhigh
        obtain ⟨rfl, hhigh⟩ := hhigh
        apply h
        apply Excluded.surrogate rest (hcont y hy) _ (hcont z hz)
        apply UInt8.not_lt.1
        exact mt (lt_continuation hy (by decide : 32 < 64)).1 (Nat.not_lt.2 hhigh)
      have hvalid : Nat.isValidChar ((x * 64 + y) * 64 + z) := by
        rcases Nat.lt_or_ge ((x * 64 + y) * 64 + z) 0xD800 with hlt | hge
        · exact .inl hlt
        · exact .inr (by omega)
      have hdiv : ((x * 64 + y) * 64 + z) / 4096 = x := by omega
      have hdiv' : ((x * 64 + y) * 64 + z) / 64 % 64 = y := by omega
      have hmod : ((x * 64 + y) * 64 + z) % 64 = z := by omega
      rw [utf8ToRune_three hx hy hz rest]
      apply isSequence_of_eq _ hvalid
      rw [writeRune_eq (le_max4_of_valid hvalid), if_neg (by omega), if_neg (by omega),
        if_pos (by omega), hdiv, hdiv', hmod]
      rfl
    | @four x y z w rest hx hy hz hw =>
      rw [utf8ToRune_four hx hy hz hw rest]
      by_cases hbad : ((x * 64 + y) * 64 + z) * 64 + w = bad
      · exact .inl hbad
      · right
        rw [bad] at hbad
        have hlow : ¬ (x = 0 ∧ y < 16) := by
          intro hlow
          obtain ⟨rfl, hlow⟩ := hlow
          apply h
          apply Excluded.overlong4 rest (hcont y hy) ((lt_continuation hy (by decide : 16 < 64)).2 hlow)
            (hcont z hz) (hcont w hw)
          intro heq
          simp only [List.cons.injEq, and_true] at heq
          have hbyte : ∀ n k, n < 64 → k < 64 → UInt8.ofNat (n + 0x80) = UInt8.ofNat (k + 0x80) →
              n = k := by
            intro n k hn hk he
            have he := congrArg UInt8.toNat he
            rw [toNat_ofNat (by omega), toNat_ofNat (by omega)] at he
            omega
          have hy15 := hbyte y 15 hy (by decide) heq.1
          have hz63 := hbyte z 63 hz (by decide) heq.2.1
          have hw61 := hbyte w 61 hw (by decide) heq.2.2
          omega
        have hlarge : ¬ (x = 4 ∧ 16 ≤ y ∨ 5 ≤ x) := by
          intro hlarge
          apply h
          apply Excluded.beyond rest _ (hcont y hy) (hcont z hz) (hcont w hw)
          rcases hlarge with hlarge | hlarge
          · obtain ⟨rfl, hhigh⟩ := hlarge
            refine .inl ⟨rfl, UInt8.not_lt.1 ?_⟩
            exact mt (lt_continuation hy (by decide : 16 < 64)).1 (Nat.not_lt.2 hhigh)
          · have hx : x = 5 ∨ x = 6 ∨ x = 7 := by omega
            rcases hx with rfl | rfl | rfl
            · exact .inr (.inl rfl)
            · exact .inr (.inr (.inl rfl))
            · exact .inr (.inr (.inr rfl))
        have hvalid : Nat.isValidChar (((x * 64 + y) * 64 + z) * 64 + w) := .inr (by omega)
        have hdiv : (((x * 64 + y) * 64 + z) * 64 + w) / 262144 = x := by omega
        have hdiv' : (((x * 64 + y) * 64 + z) * 64 + w) / 4096 % 64 = y := by omega
        have hdiv'' : (((x * 64 + y) * 64 + z) * 64 + w) / 64 % 64 = z := by omega
        have hmod : (((x * 64 + y) * 64 + z) * 64 + w) % 64 = w := by omega
        apply isSequence_of_eq _ hvalid
        rw [writeRune_eq (le_max4_of_valid hvalid), if_neg (by omega), if_neg (by omega),
          if_neg (by omega), hdiv, hdiv', hdiv'', hmod]
        rfl
  · exact .inl (congrArg Prod.fst hbad)

theorem decoded_of_not_excluded (hne : s ≠ []) (h : ¬ Excluded s) :
    (utf8ToRune s).1 = bad ∨ ∃ c : Char, (utf8ToRune s).1 = c.toNat ∧
      s.take (utf8ToRune s).2 = String.utf8EncodeChar c := by
  rcases sequence_of_not_excluded hne h with hbad | ⟨c, hc⟩
  · exact .inl hbad
  · have hdecoded := utf8ToRune_encode c (s.drop (utf8ToRune s).2)
    rw [← hc, List.take_append_drop] at hdecoded
    exact .inr ⟨c, congrArg Prod.fst hdecoded, hc⟩

theorem detectUtf8_cons (h : s ≠ []) : detectUtf8 s = true ↔
    (utf8ToRune s).1 ≠ bad ∧ detectUtf8 (s.drop (utf8ToRune s).2) = true := by
  rw [detectUtf8, utf8ToRunestring_cons h, List.any_cons, detectUtf8]
  simp

theorem wellFormed_append (h : s = String.utf8EncodeChar c) (h' : WellFormed t) :
    WellFormed (s ++ t) := by
  obtain ⟨text, rfl⟩ := h'
  exact ⟨c :: text, by rw [h]; rfl⟩

theorem detect_wellFormed (s : List UInt8) (h : ∀ t, t <:+ s → ¬ Excluded t)
    (hdetect : detectUtf8 s = true) : WellFormed s := by
  induction s using consumed_induction with
  | hnil => exact ⟨[], rfl⟩
  | hstep s hne ih =>
    obtain ⟨hno, hrest⟩ := (detectUtf8_cons hne).1 hdetect
    obtain ⟨c, -, hc⟩ := (decoded_of_not_excluded hne (h s (List.suffix_refl s))).resolve_left hno
    have htail := ih (fun t ht => h t (ht.trans (List.drop_suffix _ s))) hrest
    have happend := wellFormed_append hc htail
    rwa [List.take_append_drop] at happend

theorem sanitize_wellFormed (s : List UInt8) (h : ∀ t, t <:+ s → ¬ Excluded t) :
    WellFormed (sanitizeUtf8 s) := by
  induction s using consumed_induction with
  | hnil => exact ⟨[], by rw [sanitizeUtf8, utf8ToRunestring_nil]; rfl⟩
  | hstep s hne ih =>
    have hrune : ∃ c : Char, writeRune (utf8ToRune s).1 = String.utf8EncodeChar c := by
      rcases decoded_of_not_excluded hne (h s (List.suffix_refl s)) with hbad | ⟨c, hc, -⟩
      · exact ⟨'\uFFFD', by rw [hbad]; rfl⟩
      · exact ⟨c, by rw [hc, writeRune_toNat]⟩
    obtain ⟨c, hc⟩ := hrune
    have htail := ih fun t ht => h t (ht.trans (List.drop_suffix _ s))
    rw [sanitizeUtf8, utf8ToRunestring_cons hne, List.flatMap_cons]
    exact wellFormed_append hc htail

/-- Only UTF-8 is decoded of the strings in which nothing that UTF-8 excludes has the form of a
sequence. -/
theorem onlyWellFormed_iff (s : List UInt8) :
    OnlyWellFormed s ↔ ∀ t, t <:+ s → ¬ Excluded t := by
  constructor
  · intro h t ht hexcluded
    exact hexcluded.not_sound (h.sequence t ht)
  · intro h
    refine ⟨fun t ht hn hbad => ?_, fun c t ht hc => ?_, detect_wellFormed s h,
      sanitize_wellFormed s h⟩
    · have hne : t ≠ [] := by
        rintro rfl
        exact absurd hn (by decide)
      exact (sequence_of_not_excluded hne (h t ht)).resolve_left hbad
    · rcases decoded_of_not_excluded (List.cons_ne_nil c t) (h _ ht) with hbad | ⟨ch, hch, htake⟩
      · rw [hbad]
        decide
      · rw [hch]
        apply Nat.le_of_not_lt
        intro hlow
        obtain ⟨first, rest, hencode, hfirst, -⟩ := encode_cons ch []
        have hsame : first = c := by
          have hpos := utf8ToRune_pos (c :: t)
          obtain ⟨n, hn⟩ := Nat.exists_eq_add_of_lt hpos
          rw [Nat.zero_add] at hn
          rw [hn, List.take_succ_cons] at htake
          rw [encode, List.flatMap_cons, List.flatMap_nil, List.append_nil, ← htake] at hencode
          exact (List.cons.inj hencode).1.symm
        have hlow' := hfirst hlow
        rw [hsame] at hlow'
        have hc : 0x80 ≤ c.toNat := hc
        omega

/-- The long form of U+0000 is decoded, and taken for UTF-8. -/
theorem decodes_overlong : ¬ OnlyWellFormed [0xC0, 0x80] ∧ utf8ToRune [0xC0, 0x80] = (0, 2) ∧
    utf8ToRune [0xED, 0xA0, 0x80] = (0xD800, 3) ∧
    utf8ToRune [0xF4, 0x90, 0x80, 0x80] = (0x110000, 4) := by
  refine ⟨fun h => ?_, by decide, by decide, by decide⟩
  exact (onlyWellFormed_iff _).1 h _ (List.suffix_refl _) (.overlong2 [] (.inl rfl) (by decide))

end Trieste.Utf8
