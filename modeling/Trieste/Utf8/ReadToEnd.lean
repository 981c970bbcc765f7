import Trieste.Utf8.Encode

namespace Trieste.Utf8
set_option autoImplicit true

inductive DetectResult
  | none
  | bigEndian
  | littleEndian

/-- `utf8_to_runestring` without unescaping. -/
def utf8ToRunestring (input : List UInt8) : List Nat :=
  if input = [] then []
  else (utf8ToRune input).1 :: utf8ToRunestring (input.drop (utf8ToRune input).2)
termination_by input.length
decreasing_by
  have hpos := utf8ToRune_pos input
  have hne : 0 < input.length := List.length_pos_iff.2 ‹_›
  rw [List.length_drop]
  exact Nat.sub_lt hne hpos

def detectUtf8 (contents : List UInt8) : Bool := !(utf8ToRunestring contents).any (· == bad)

def sanitizeUtf8 (input : List UInt8) : List UInt8 := (utf8ToRunestring input).flatMap writeRune

/-- The punctuation that `detect_utf16` and `detect_utf32` look for. -/
def punctuation : List Nat :=
  [0x2C, 0x22, 0x28, 0x29, 0x5B, 0x5D, 0x7B, 0x7D, 0x3A, 0x3B, 0x20, 0x0A]

def rune16 (b0 b1 : UInt8) : Nat := b0.toNat <<< 8 ||| b1.toNat

def rune32 (b0 b1 b2 b3 : UInt8) : Nat :=
  b0.toNat <<< 24 ||| b1.toNat <<< 16 ||| b2.toNat <<< 8 ||| b3.toNat

def values16 : List UInt8 → List Nat
  | b0 :: b1 :: contents => rune16 b0 b1 :: values16 contents
  | _ => []

def values32 : List UInt8 → List Nat
  | b0 :: b1 :: b2 :: b3 :: contents => rune32 b0 b1 b2 b3 :: values32 contents
  | _ => []

def detectOrder (values : List Nat) (shift : Nat) : DetectResult :=
  let leCounts := values.countP fun value => (punctuation.map (· <<< shift)).contains value
  let beCounts := values.countP fun value => punctuation.contains value
  if beCounts < leCounts then .littleEndian
  else if leCounts < beCounts then .bigEndian
  else .none

def detectUtf16 (contents : List UInt8) : DetectResult :=
  if contents.length % 2 ≠ 0 then .none else detectOrder (values16 contents) 8

def detectUtf32 (contents : List UInt8) : DetectResult :=
  if contents.length % 4 ≠ 0 then .none else detectOrder (values32 contents) 24

/-- How reading ends without a text: by the exception of `substr`, or by an index that is past the
end of the contents. -/
inductive ReadFailure
  | outOfRange
  | outOfBounds

def readUtf16Be : List UInt8 → List UInt8
  | b0 :: b1 :: contents => writeRune (rune16 b0 b1) ++ readUtf16Be contents
  | [b0] => writeRune (rune16 b0 0)
  | [] => []

def readUtf16Le : List UInt8 → List UInt8
  | b1 :: b0 :: contents => writeRune (rune16 b0 b1) ++ readUtf16Le contents
  | [b1] => writeRune (rune16 0 b1)
  | [] => []

def readUtf32Be : List UInt8 → Except ReadFailure (List UInt8)
  | b0 :: b1 :: b2 :: b3 :: contents =>
    (readUtf32Be contents).map (writeRune (rune32 b0 b1 b2 b3) ++ ·)
  | [b0, b1, b2] => .ok (writeRune (rune32 b0 b1 b2 0))
  | [] => .ok []
  | _ => .error .outOfBounds

def readUtf32Le : List UInt8 → Except ReadFailure (List UInt8)
  | b3 :: b2 :: b1 :: b0 :: contents =>
    (readUtf32Le contents).map (writeRune (rune32 b0 b1 b2 b3) ++ ·)
  | [b3, b2, b1] => .ok (writeRune (rune32 0 b1 b2 b3))
  | [] => .ok []
  | _ => .error .outOfBounds

def substr (contents : List UInt8) (pos : Nat) : Except ReadFailure (List UInt8) :=
  if contents.length < pos then .error .outOfRange else .ok (contents.drop pos)

/-- What `read_to_end` returns where it finds a mark. Bytes behind the end count as zeros. -/
def readMarked (contents : List UInt8) : Option (Except ReadFailure (List UInt8)) :=
  let bom (i : Nat) : UInt8 := contents.getD i 0
  if contents.length < 2 then none
  else if bom 0 = 0xEF ∧ bom 1 = 0xBB ∧ bom 2 = 0xBF then some (substr contents 3)
  else if bom 0 = 0xFF ∧ bom 1 = 0xFE then
    if bom 2 = 0x00 ∧ bom 3 = 0x00 then some ((substr contents 4).bind readUtf32Le)
    else some ((substr contents 2).map readUtf16Le)
  else if bom 0 = 0x00 ∧ bom 1 = 0x00 ∧ bom 2 = 0xFE ∧ bom 3 = 0xFF then
    some ((substr contents 4).bind readUtf32Be)
  else if bom 0 = 0xFE ∧ bom 1 = 0xFF then some ((substr contents 2).map readUtf16Be)
  else none

/-- What `read_to_end` returns where it finds no mark. -/
def readUnmarked (contents : List UInt8) (autodetect : Bool) : Except ReadFailure (List UInt8) :=
  if !autodetect then .ok contents
  else if detectUtf8 contents then .ok (sanitizeUtf8 contents)
  else match detectUtf16 contents with
    | .bigEndian => .ok (readUtf16Be contents)
    | .littleEndian => .ok (readUtf16Le contents)
    | .none => match detectUtf32 contents with
      | .bigEndian => readUtf32Be contents
      | .littleEndian => readUtf32Le contents
      | .none => .ok (sanitizeUtf8 contents)

/-- `read_to_end`, given the bytes of the file. -/
def readToEnd (contents : List UInt8) (autodetect : Bool) : Except ReadFailure (List UInt8) :=
  (readMarked contents).getD (readUnmarked contents autodetect)

/-- The encodings that have a mark. -/
inductive Encoding
  | utf8
  | utf16le
  | utf16be
  | utf32le
  | utf32be
  deriving DecidableEq

/-- The units of a character, of which a supplementary character has two. -/
def utf16Units (c : Char) : List Nat :=
  if c.toNat < 0x10000 then [c.toNat]
  else [0xD800 + (c.toNat - 0x10000) / 0x400, 0xDC00 + (c.toNat - 0x10000) % 0x400]

def bytes16 (unit : Nat) : List UInt8 := [UInt8.ofNat (unit / 0x100), UInt8.ofNat (unit % 0x100)]

def bytes32 (rune : Nat) : List UInt8 := bytes16 (rune / 0x10000) ++ bytes16 (rune % 0x10000)

namespace Encoding

def mark : Encoding → List UInt8
  | utf8 => [0xEF, 0xBB, 0xBF]
  | utf16le => [0xFF, 0xFE]
  | utf16be => [0xFE, 0xFF]
  | utf32le => [0xFF, 0xFE, 0x00, 0x00]
  | utf32be => [0x00, 0x00, 0xFE, 0xFF]

def encodeChar : Encoding → Char → List UInt8
  | utf8, c => String.utf8EncodeChar c
  | utf16le, c => (utf16Units c).flatMap fun unit => (bytes16 unit).reverse
  | utf16be, c => (utf16Units c).flatMap bytes16
  | utf32le, c => (bytes32 c.toNat).reverse
  | utf32be, c => bytes32 c.toNat

def encode (encoding : Encoding) (text : List Char) : List UInt8 :=
  text.flatMap encoding.encodeChar

end Encoding

theorem toNat_ofNat (h : n < 256) : (UInt8.ofNat n).toNat = n := UInt8.toNat_ofNat_of_lt' h

theorem rune16_bytes16 (h : unit < 0x10000) :
    rune16 (UInt8.ofNat (unit / 0x100)) (UInt8.ofNat (unit % 0x100)) = unit := by
  have hhigh : unit / 0x100 < 256 := by omega
  have hlow : unit % 0x100 < 2 ^ 8 := Nat.mod_lt _ (by decide)
  rw [rune16, toNat_ofNat hhigh, toNat_ofNat hlow, ← Nat.shiftLeft_add_eq_or_of_lt hlow,
    Nat.shiftLeft_eq, Nat.mul_comm]
  exact Nat.div_add_mod unit 0x100

theorem rune32_eq (b0 b1 b2 b3 : UInt8) :
    rune32 b0 b1 b2 b3 = rune16 b0 b1 * 0x10000 + rune16 b2 b3 := by
  have hlow : rune16 b2 b3 < 2 ^ 16 := by
    have hb2 : b2.toNat <<< 8 < 2 ^ 16 := by
      rw [Nat.shiftLeft_eq]
      have := b2.toNat_lt
      omega
    have hb3 : b3.toNat < 2 ^ 16 := Nat.lt_trans b3.toNat_lt (by decide)
    exact Nat.or_lt_two_pow hb2 hb3
  have hhigh : b0.toNat <<< 24 ||| b1.toNat <<< 16 = rune16 b0 b1 <<< 16 := by
    rw [rune16, Nat.shiftLeft_or_distrib, ← Nat.shiftLeft_add]
  calc rune32 b0 b1 b2 b3
      = (b0.toNat <<< 24 ||| b1.toNat <<< 16) ||| rune16 b2 b3 := by rw [rune32, rune16, Nat.or_assoc]
    _ = rune16 b0 b1 <<< 16 + rune16 b2 b3 := by
      rw [hhigh, Nat.shiftLeft_add_eq_or_of_lt hlow]
    _ = rune16 b0 b1 * 0x10000 + rune16 b2 b3 := by rw [Nat.shiftLeft_eq]

theorem readUtf16Be_bytes16 (units : List Nat) (h : ∀ unit ∈ units, unit < 0x10000) :
    readUtf16Be (units.flatMap bytes16) = units.flatMap writeRune := by
  induction units with
  | nil => rfl
  | cons unit units ih =>
    obtain ⟨hunit, hunits⟩ := List.forall_mem_cons.1 h
    have hread : readUtf16Be ((unit :: units).flatMap bytes16) =
        writeRune (rune16 (UInt8.ofNat (unit / 0x100)) (UInt8.ofNat (unit % 0x100))) ++
          readUtf16Be (units.flatMap bytes16) := rfl
    rw [hread, rune16_bytes16 hunit, ih hunits, List.flatMap_cons]

theorem readUtf16Le_bytes16 (units : List Nat) (h : ∀ unit ∈ units, unit < 0x10000) :
    readUtf16Le (units.flatMap fun unit => (bytes16 unit).reverse) = units.flatMap writeRune := by
  induction units with
  | nil => rfl
  | cons unit units ih =>
    obtain ⟨hunit, hunits⟩ := List.forall_mem_cons.1 h
    have hread : readUtf16Le ((unit :: units).flatMap fun unit => (bytes16 unit).reverse) =
        writeRune (rune16 (UInt8.ofNat (unit / 0x100)) (UInt8.ofNat (unit % 0x100))) ++
          readUtf16Le (units.flatMap fun unit => (bytes16 unit).reverse) := rfl
    rw [hread, rune16_bytes16 hunit, ih hunits, List.flatMap_cons]

theorem rune32_bytes32 (c : Char) : rune32 (UInt8.ofNat (c.toNat / 0x10000 / 0x100))
    (UInt8.ofNat (c.toNat / 0x10000 % 0x100)) (UInt8.ofNat (c.toNat % 0x10000 / 0x100))
    (UInt8.ofNat (c.toNat % 0x10000 % 0x100)) = c.toNat := by
  have hlt := toNat_lt c
  have hhigh : c.toNat / 0x10000 < 0x10000 := by omega
  have hlow : c.toNat % 0x10000 < 0x10000 := Nat.mod_lt _ (by decide)
  rw [rune32_eq, rune16_bytes16 hhigh, rune16_bytes16 hlow, Nat.mul_comm]
  exact Nat.div_add_mod c.toNat 0x10000

theorem readUtf32Be_encode (text : List Char) :
    readUtf32Be (Encoding.utf32be.encode text) = .ok (encode text) := by
  induction text with
  | nil => rfl
  | cons c text ih =>
    have hread : readUtf32Be (Encoding.utf32be.encode (c :: text)) =
        (readUtf32Be (Encoding.utf32be.encode text)).map (writeRune (rune32 _ _ _ _) ++ ·) := rfl
    rw [hread, rune32_bytes32, ih, writeRune_toNat]
    rfl

theorem readUtf32Le_encode (text : List Char) :
    readUtf32Le (Encoding.utf32le.encode text) = .ok (encode text) := by
  induction text with
  | nil => rfl
  | cons c text ih =>
    have hread : readUtf32Le (Encoding.utf32le.encode (c :: text)) =
        (readUtf32Le (Encoding.utf32le.encode text)).map (writeRune (rune32 _ _ _ _) ++ ·) := rfl
    rw [hread, rune32_bytes32, ih, writeRune_toNat]
    rfl

theorem utf16Units_lt (c : Char) : ∀ unit ∈ utf16Units c, unit < 0x10000 := by
  have hlt := toNat_lt c
  intro unit hunit
  unfold utf16Units at hunit
  split at hunit
  · next h =>
    rw [List.mem_singleton.1 hunit]
    exact h
  · simp only [List.mem_cons, List.not_mem_nil, or_false] at hunit
    omega

def readUnits (text : List Char) : List UInt8 := (text.flatMap utf16Units).flatMap writeRune

theorem readUtf16Be_encode (text : List Char) :
    readUtf16Be (Encoding.utf16be.encode text) = readUnits text := by
  have hunits : Encoding.utf16be.encode text = (text.flatMap utf16Units).flatMap bytes16 :=
    List.flatMap_assoc.symm
  rw [hunits, readUtf16Be_bytes16, readUnits]
  intro unit hunit
  obtain ⟨c, -, hc⟩ := List.mem_flatMap.1 hunit
  exact utf16Units_lt c unit hc

theorem readUtf16Le_encode (text : List Char) :
    readUtf16Le (Encoding.utf16le.encode text) = readUnits text := by
  have hunits : Encoding.utf16le.encode text =
      (text.flatMap utf16Units).flatMap fun unit => (bytes16 unit).reverse :=
    List.flatMap_assoc.symm
  rw [hunits, readUtf16Le_bytes16, readUnits]
  intro unit hunit
  obtain ⟨c, -, hc⟩ := List.mem_flatMap.1 hunit
  exact utf16Units_lt c unit hc

theorem readUnits_cons (c : Char) (text : List Char) :
    readUnits (c :: text) = (utf16Units c).flatMap writeRune ++ readUnits text := by
  rw [readUnits, List.flatMap_cons, List.flatMap_append, readUnits]

theorem readUnits_char (h : Char.toNat c < 0x10000) :
    (utf16Units c).flatMap writeRune = String.utf8EncodeChar c := by
  rw [utf16Units, if_pos h, List.flatMap_singleton, writeRune_toNat]

theorem length_readUnits_char (h : ¬ Char.toNat c < 0x10000) :
    ((utf16Units c).flatMap writeRune).length = (String.utf8EncodeChar c).length + 2 := by
  have hlt := toNat_lt c
  have hfour : (writeRune c.toNat).length = 4 :=
    length_writeRune_four (Nat.le_of_not_lt h) (Nat.le_of_lt_succ hlt)
  have hthree : ∀ unit, 0xD800 ≤ unit → unit < 0x10000 → (writeRune unit).length = 3 := by
    intro unit hlow hhigh
    exact length_writeRune_three (Nat.lt_of_lt_of_le (by decide) hlow) (Nat.le_of_lt_succ hhigh)
  rw [← writeRune_toNat, hfour, utf16Units, if_neg h, List.flatMap_cons, List.flatMap_singleton,
    List.length_append, hthree _ (by omega) (by omega), hthree _ (by omega) (by omega)]

theorem length_readUnits (text : List Char) : (encode text).length ≤ (readUnits text).length := by
  induction text with
  | nil => exact Nat.le_refl _
  | cons c text ih =>
    rw [readUnits_cons, encode, List.flatMap_cons, List.length_append, List.length_append]
    apply Nat.add_le_add _ ih
    by_cases h : c.toNat < 0x10000
    · rw [readUnits_char h]
    · rw [length_readUnits_char h]
      exact Nat.le_add_right _ 2

/-- The units give the text back if and only if there are no supplementary characters. -/
theorem readUnits_eq_iff (text : List Char) :
    readUnits text = encode text ↔ ∀ c ∈ text, c.toNat < 0x10000 := by
  induction text with
  | nil => exact iff_of_true rfl fun _ hc => absurd hc List.not_mem_nil
  | cons c text ih =>
    have hencode : encode (c :: text) = String.utf8EncodeChar c ++ encode text :=
      List.flatMap_cons ..
    rw [readUnits_cons, hencode, List.forall_mem_cons, ← ih]
    by_cases h : c.toNat < 0x10000
    · rw [readUnits_char h, List.append_cancel_left_eq]
      exact (and_iff_right h).symm
    · apply iff_of_false
      · intro heq
        have hlen := congrArg List.length heq
        rw [List.length_append, List.length_append, length_readUnits_char h] at hlen
        have hle := length_readUnits text
        omega
      · intro hboth
        exact h hboth.1

theorem substr_mark (mark contents : List UInt8) :
    substr (mark ++ contents) mark.length = .ok contents := by
  simp [substr]

theorem readMarked_utf8 (contents : List UInt8) :
    readMarked (Encoding.utf8.mark ++ contents) = some (.ok contents) := by
  simp [readMarked, Encoding.mark, substr]

theorem readMarked_utf16be (contents : List UInt8) :
    readMarked (Encoding.utf16be.mark ++ contents) = some (.ok (readUtf16Be contents)) := by
  have hread : readMarked (Encoding.utf16be.mark ++ contents) =
      some ((substr (Encoding.utf16be.mark ++ contents) 2).map readUtf16Be) := by
    simp [readMarked, Encoding.mark]
  have hsub : substr (Encoding.utf16be.mark ++ contents) 2 = .ok contents :=
    substr_mark ..
  rw [hread, hsub]
  rfl

theorem readMarked_utf32le (contents : List UInt8) :
    readMarked (Encoding.utf32le.mark ++ contents) = some (readUtf32Le contents) := by
  have hread : readMarked (Encoding.utf32le.mark ++ contents) =
      some ((substr (Encoding.utf32le.mark ++ contents) 4).bind readUtf32Le) := by
    simp [readMarked, Encoding.mark]
  have hsub : substr (Encoding.utf32le.mark ++ contents) 4 = .ok contents :=
    substr_mark ..
  rw [hread, hsub]
  rfl

theorem readMarked_utf32be (contents : List UInt8) :
    readMarked (Encoding.utf32be.mark ++ contents) = some (readUtf32Be contents) := by
  have hread : readMarked (Encoding.utf32be.mark ++ contents) =
      some ((substr (Encoding.utf32be.mark ++ contents) 4).bind readUtf32Be) := by
    simp [readMarked, Encoding.mark]
  have hsub : substr (Encoding.utf32be.mark ++ contents) 4 = .ok contents :=
    substr_mark ..
  rw [hread, hsub]
  rfl

theorem readMarked_utf16le (h : ¬ (b1 = 0 ∧ b0 = 0)) (contents : List UInt8) :
    readMarked (Encoding.utf16le.mark ++ b1 :: b0 :: contents) = some (.ok (readUtf16Le (b1 :: b0 :: contents))) := by
  have hread : readMarked (Encoding.utf16le.mark ++ b1 :: b0 :: contents) =
      some ((substr (Encoding.utf16le.mark ++ b1 :: b0 :: contents) 2).map readUtf16Le) := by
    simp [readMarked, Encoding.mark, h]
  have hsub : substr (Encoding.utf16le.mark ++ b1 :: b0 :: contents) 2 = .ok (b1 :: b0 :: contents) :=
    substr_mark ..
  rw [hread, hsub]
  rfl

theorem readMarked_utf16le_nil :
    readMarked (Encoding.utf16le.mark ++ []) = some (.error .outOfRange) := rfl

theorem readToEnd_of_marked (h : readMarked contents = some result) (autodetect : Bool) :
    readToEnd contents autodetect = result := by
  rw [readToEnd, h]
  rfl

theorem utf16le_encode_cons (h : c ≠ '\x00') (text : List Char) :
    ∃ b1 b0 contents, Encoding.utf16le.encode (c :: text) = b1 :: b0 :: contents ∧
      ¬ (b1 = 0 ∧ b0 = 0) := by
  have hunits : ∃ unit units, utf16Units c = unit :: units ∧ unit ≠ 0 := by
    unfold utf16Units
    split
    · refine ⟨_, _, rfl, fun hzero => h ?_⟩
      apply Char.ext
      exact UInt32.toNat_inj.1 hzero
    · exact ⟨_, _, rfl, by omega⟩
  obtain ⟨unit, units, hunits, hne⟩ := hunits
  have hlt : unit < 0x10000 := by
    apply utf16Units_lt c
    rw [hunits]
    exact List.mem_cons_self
  refine ⟨UInt8.ofNat (unit % 0x100), UInt8.ofNat (unit / 0x100),
    (units.flatMap fun unit => (bytes16 unit).reverse) ++ Encoding.utf16le.encode text, ?_, ?_⟩
  · rw [Encoding.encode, List.flatMap_cons, Encoding.encodeChar, hunits]
    rfl
  · intro hzero
    have hlow := toNat_ofNat (Nat.mod_lt unit (by decide : 0 < 0x100))
    have hhigh := toNat_ofNat (n := unit / 0x100) (by omega)
    rw [hzero.1] at hlow
    rw [hzero.2] at hhigh
    simp at hlow hhigh
    omega

/-- A marked file whose text does not start with a zero is read as its text if and only if it is
not the empty text in UTF-16LE, and has no supplementary characters in UTF-16. -/
theorem readToEnd_marked (encoding : Encoding) (text : List Char) (hzero : text.head? ≠ some '\x00')
    (autodetect : Bool) :
    readToEnd (encoding.mark ++ encoding.encode text) autodetect = .ok (encode text) ↔
      (encoding = .utf16le → text ≠ []) ∧
        (encoding = .utf16le ∨ encoding = .utf16be → ∀ c ∈ text, c.toNat < 0x10000) := by
  cases encoding with
  | utf8 =>
    have hencode : Encoding.utf8.encode text = encode text := rfl
    rw [readToEnd_of_marked (readMarked_utf8 _), hencode]
    simp
  | utf32le =>
    rw [readToEnd_of_marked (readMarked_utf32le _), readUtf32Le_encode]
    simp
  | utf32be =>
    rw [readToEnd_of_marked (readMarked_utf32be _), readUtf32Be_encode]
    simp
  | utf16be =>
    rw [readToEnd_of_marked (readMarked_utf16be _), readUtf16Be_encode, Except.ok.injEq,
      readUnits_eq_iff]
    simp
  | utf16le =>
    cases text with
    | nil =>
      have hread : readToEnd (Encoding.utf16le.mark ++ Encoding.utf16le.encode []) autodetect =
          .error .outOfRange := readToEnd_of_marked readMarked_utf16le_nil autodetect
      rw [hread]
      simp
    | cons c text =>
      have hc : c ≠ '\x00' := by
        intro hc
        exact hzero (congrArg some hc)
      obtain ⟨b1, b0, contents, hencode, hne⟩ := utf16le_encode_cons hc text
      have hread := readMarked_utf16le hne contents
      rw [← hencode] at hread
      rw [readToEnd_of_marked hread, readUtf16Le_encode, Except.ok.injEq, readUnits_eq_iff]
      simp

/-- A text with a supplementary character in UTF-32BE. -/
theorem readToEnd_marked_utf32be :
    readToEnd (Encoding.utf32be.mark ++ Encoding.utf32be.encode ['a', '😀']) false =
      .ok (encode ['a', '😀']) :=
  (readToEnd_marked .utf32be ['a', '😀'] (by decide) false).2 (by decide)

/-- A supplementary character in UTF-16BE becomes two surrogates. -/
theorem readToEnd_surrogates : ∃ encoding text, text.head? ≠ some '\x00' ∧
    readToEnd (Encoding.mark encoding ++ encoding.encode text) false ≠ .ok (encode text) := by
  refine ⟨.utf16be, ['😀'], by decide, ?_⟩
  have hread : readToEnd (Encoding.utf16be.mark ++ Encoding.utf16be.encode ['😀']) false =
      .ok [0xED, 0xA0, 0xBD, 0xED, 0xB8, 0x80] := rfl
  rw [hread]
  intro heq
  cases heq

end Trieste.Utf8
