import Trieste.Regex.Unmatched
import Trieste.Utf8.EscapeUnicode

namespace Trieste.Regex
set_option autoImplicit true
open Library

theorem utf8ToRune_tail (hi : 0 < i) (h : i < (Utf8.utf8ToRune s).2) (hc : s[i]? = some c) :
    Utf8.isContinuation c = true := by
  have hone : i < 1 → Utf8.isContinuation c = true := fun hlt => by omega
  unfold Utf8.utf8ToRune at h
  split at h
  · exact hone h
  split at h
  · exact hone h
  split at h
  · split at h
    · split at h
      · next hcont =>
        obtain rfl : i = 1 := by
          dsimp only at h
          omega
        exact Option.some.inj hc ▸ hcont
      · exact hone h
    · exact hone h
  split at h
  · split at h
    · split at h
      · next hcont =>
        obtain ⟨h1, h2⟩ := Bool.and_eq_true_iff.1 hcont
        obtain rfl | rfl : i = 1 ∨ i = 2 := by
          dsimp only at h
          omega
        · exact Option.some.inj hc ▸ h1
        · exact Option.some.inj hc ▸ h2
      · exact hone h
    · exact hone h
  split at h
  · split at h
    · split at h
      · next hcont =>
        obtain ⟨hcont, h3⟩ := Bool.and_eq_true_iff.1 hcont
        obtain ⟨h1, h2⟩ := Bool.and_eq_true_iff.1 hcont
        obtain rfl | rfl | rfl : i = 1 ∨ i = 2 ∨ i = 3 := by
          dsimp only at h
          omega
        · exact Option.some.inj hc ▸ h1
        · exact Option.some.inj hc ▸ h2
        · exact Option.some.inj hc ▸ h3
      · exact hone h
    · exact hone h
  · exact hone h

theorem decodeRune_append (u s : List UInt8) (q : Nat) :
    decodeRune (u ++ s) (u.length + q) = decodeRune s q := by
  have hget : (u ++ s)[u.length + q]? = s[q]? := by
    rw [List.getElem?_append_right (Nat.le_add_right ..), Nat.add_sub_cancel_left]
  have hdrop : (u ++ s).drop (u.length + q) = s.drop q := by
    rw [← List.drop_drop, List.drop_left]
  rw [decodeRune, decodeRune, hget, hdrop]

theorem utf8ToRune_append (h : (Utf8.utf8ToRune s).1 ≠ Utf8.bad) (u : List UInt8) :
    Utf8.utf8ToRune (s ++ u) = Utf8.utf8ToRune s := by
  rcases s with _ | ⟨c0, _ | ⟨c1, _ | ⟨c2, _ | ⟨c3, rest⟩⟩⟩⟩
  · exact absurd rfl h
  all_goals
    unfold Utf8.utf8ToRune at h ⊢
    grind

theorem decodeRune_right (h : decodeRune s q = (r, n)) (hlt : q < s.length) (hr : r ≠ Utf8.bad)
    (u : List UInt8) : decodeRune (s ++ u) q = (r, n) := by
  have hget : (s ++ u)[q]? = some s[q] := by
    rw [List.getElem?_append_left hlt, List.getElem?_eq_getElem hlt]
  rw [decodeRune, List.getElem?_eq_getElem hlt] at h
  rw [decodeRune, hget]
  dsimp only at h ⊢
  split
  · next hascii => rwa [if_pos hascii] at h
  · next hascii =>
    rw [if_neg hascii] at h
    rw [List.drop_append_of_le_length (Nat.le_of_lt hlt), utf8ToRune_append, h]
    rw [h]
    exact hr

theorem decodeRune_le_lead (hc : s[q]? = some c) (hlead : Utf8.isContinuation c = false)
    (hlt : pos < q) : pos + (decodeRune s pos).2 ≤ q := by
  apply Nat.le_of_not_lt
  intro hgt
  have hone : ¬ q < pos + 1 := by omega
  unfold decodeRune at hgt
  split at hgt
  · exact hone hgt
  split at hgt
  · exact hone hgt
  · obtain ⟨i, rfl⟩ := Nat.exists_eq_add_of_lt hlt
    have hget : (s.drop pos)[i + 1]? = some c := by
      rw [List.getElem?_drop]
      exact hc
    have hcont := utf8ToRune_tail (Nat.succ_pos i) (by omega) hget
    rw [hlead] at hcont
    cases hcont

theorem decodeRune_lead (h : decodeRune s q = (r, n)) (hlt : q < s.length) (hr : r ≠ Utf8.bad) :
    Utf8.isContinuation s[q] = false := by
  cases hcont : Utf8.isContinuation s[q] with
  | false => rfl
  | true =>
    have hhigh := isContinuation_high _ hcont
    have hascii : isAscii s[q].toNat = false := decide_eq_false (Nat.not_lt.2 hhigh)
    rw [decodeRune, List.getElem?_eq_getElem hlt] at h
    dsimp only at h
    rw [hascii, if_neg Bool.false_ne_true, List.drop_eq_getElem_cons hlt,
      Utf8.utf8ToRune_stray hcont] at h
    exact absurd (Prod.mk.inj h).1.symm hr

theorem Probe.refl (s : List UInt8) (pos : Nat) : Probe s pos pos := ⟨0, Nat.zero_le _, rfl⟩

theorem Probe.trans (h : Probe s a b) (h' : Probe s b c) : Probe s a c := by
  obtain ⟨j, hj, rfl⟩ := h
  obtain ⟨k, hk, rfl⟩ := h'
  rw [← List.drop_drop] at hk ⊢
  rw [runes_drop, List.length_drop] at hk
  refine ⟨j + k, by omega, ?_⟩
  rw [← offset_drop, Nat.add_assoc]

theorem Probe.next (hlt : pos < s.length) : Probe s pos (pos + (decodeRune s pos).2) := by
  have hstart : pos + offset (s.drop pos) 0 < s.length := hlt
  obtain ⟨hle, hoffset⟩ := probe_next hstart
  exact ⟨1, hle, hoffset.symm⟩

theorem probe_of_lead (hc : s[q]? = some c) (hlead : Utf8.isContinuation c = false)
    (hpos : pos ≤ q) : Probe s pos q := by
  induction hrest : q - pos using Nat.strong_induction_on generalizing pos with
  | _ rest ih =>
    rcases Nat.eq_or_lt_of_le hpos with rfl | hlt
    · exact .refl s pos
    · obtain ⟨hq, -⟩ := List.getElem?_eq_some_iff.1 hc
      have hrune := decodeRune_pos s pos
      have hle := decodeRune_le_lead hc hlead hlt
      exact (Probe.next (hlt.trans hq)).trans (ih _ (by omega) hle rfl)

theorem searchLoop_probe {e : RegexEngine} {captures : List Capture}
    (h : (e.searchLoop self s start captures ctx).1 = some (p, len)) : Probe s start p := by
  induction hrest : s.length - start using Nat.strong_induction_on
    generalizing start captures ctx with
  | _ rest ih =>
    rw [RegexEngine.searchLoop] at h
    split at h
    · cases h
    split at h
    · obtain ⟨rfl, rfl⟩ := Prod.mk.inj (Option.some.inj h)
      exact .refl s start
    split at h
    · next hlt =>
      have hrune := decodeRune_pos s start
      exact (Probe.next hlt).trans (ih _ (by omega) h rfl)
    · cases h

/-- The rune at a position of the text is the given one, and the last. -/
structure LastAt (r : Nat) (s : List UInt8) (q : Nat) : Prop where
  lt : q < s.length
  decoded : decodeRune s q = (r, s.length - q)

def EndsRune (r : Nat) (s : List UInt8) : Prop := ∃ q, LastAt r s q

theorem LastAt.append (h : LastAt r s q) (u : List UInt8) : LastAt r (u ++ s) (u.length + q) := by
  refine ⟨?_, ?_⟩
  · rw [List.length_append]
    exact Nat.add_lt_add_left h.lt _
  · rw [decodeRune_append, h.decoded, List.length_append, Nat.add_sub_add_left]

theorem EndsRune.append (h : EndsRune r s) (u : List UInt8) : EndsRune r (u ++ s) := by
  obtain ⟨q, hq⟩ := h
  exact ⟨_, hq.append u⟩

theorem LastAt.drop (h : LastAt r s q) : EndsRune r (s.drop q) := by
  have hlength : 0 < (s.drop q).length := by
    rw [List.length_drop]
    exact Nat.sub_pos_of_lt h.lt
  have hdecode := decodeRune_append (s.take q) (s.drop q) 0
  rw [List.take_append_drop, List.length_take, Nat.min_eq_left (Nat.le_of_lt h.lt), Nat.add_zero,
    h.decoded] at hdecode
  refine ⟨0, hlength, ?_⟩
  rw [← hdecode, Nat.sub_zero, List.length_drop]

theorem endsRune_of_ascii (hb : b.toNat < 128) (u : List UInt8) : EndsRune b.toNat (u ++ [b]) := by
  have hlast : LastAt b.toNat [b] 0 := by
    refine ⟨Nat.one_pos, ?_⟩
    have hascii : isAscii b.toNat = true := decide_eq_true hb
    rw [decodeRune]
    exact if_pos hascii
  exact EndsRune.append ⟨0, hlast⟩ u

section Last
variable {s : List UInt8} {r q : Nat}

theorem LastAt.probe (h : LastAt r s q) (hr : r ≠ Utf8.bad) (hpos : pos ≤ q) : Probe s pos q :=
  probe_of_lead (List.getElem?_eq_getElem h.lt) (decodeRune_lead h.decoded h.lt hr) hpos

theorem LastAt.le_or_eq (h : LastAt r s q) (hr : r ≠ Utf8.bad) (hpos : pos ≤ q)
    (hp : Probe s pos p) : p ≤ q ∨ p = s.length := by
  have hle := hp.le (hpos.trans (Nat.le_of_lt h.lt))
  obtain ⟨j, hj, hq⟩ := h.probe hr hpos
  obtain ⟨k, hk, rfl⟩ := hp
  rcases Nat.lt_or_ge j k with hjk | hjk
  · have hlt : pos + offset (s.drop pos) j < s.length := hq ▸ h.lt
    obtain ⟨-, hnext⟩ := probe_next hlt
    rw [← hq, h.decoded] at hnext
    have hmono : offset (s.drop pos) (j + 1) ≤ offset (s.drop pos) k := offset_mono _ hjk
    have hlt := h.lt
    dsimp only at hnext
    omega
  · have hmono := offset_mono (s.drop pos) hjk
    omega

theorem LastAt.getLast?_runes (h : LastAt r s q) (hr : r ≠ Utf8.bad) (hpos : pos ≤ q) :
    (runes (s.drop pos)).getLast? = some r := by
  obtain ⟨j, hj, hq⟩ := h.probe hr hpos
  have hlt : pos + offset (s.drop pos) j < s.length := hq ▸ h.lt
  have hrune : (runes (s.drop pos))[j]? = some r := by
    rw [getElem?_runes, nextRune_drop, nextRune, if_pos hlt, ← hq, h.decoded]
    rfl
  obtain ⟨-, hnext⟩ := probe_next hlt
  rw [← hq, h.decoded] at hnext
  have hend : s.length ≤ pos + offset (s.drop pos) (j + 1) := by
    have hlt := h.lt
    dsimp only at hnext
    omega
  have hlength := probe_last hend
  have hj' := (List.getElem?_eq_some_iff.1 hrune).1
  rw [List.getLast?_eq_getElem?, ← hrune]
  congr 1
  omega

end Last

theorem endsRune_of_runes (h : (runes s).getLast? = some r) : EndsRune r s := by
  have hne : 0 < (runes s).length := by
    apply Nat.pos_of_ne_zero
    intro hzero
    rw [List.length_eq_zero_iff.1 hzero] at h
    cases h
  obtain ⟨k, hk⟩ : ∃ k, (runes s).length = k + 1 := ⟨_, (Nat.succ_pred_eq_of_pos hne).symm⟩
  rw [List.getLast?_eq_getElem?, hk, Nat.add_sub_cancel, getElem?_runes] at h
  obtain ⟨⟨rune, n⟩, hnext, rfl⟩ := Option.map_eq_some_iff.1 h
  have hend : s.length ≤ offset s (k + 1) := (length_le_offset_iff s _).2 (Nat.le_of_eq hk)
  have hle := offset_le s (k + 1)
  rw [offset_succ hnext] at hend hle
  rw [nextRune] at hnext
  split at hnext
  · next hlt =>
    refine ⟨offset s k, hlt, (Option.some.inj hnext).trans ?_⟩
    rw [Prod.mk.injEq]
    exact ⟨rfl, by omega⟩
  · cases hnext

/-- Whether the tree is built so that its matches end with such a literal or class. -/
def Regexp.closes (onLiteral onClass : Nat → Bool) : Regexp → Bool
  | literal c => onLiteral c
  | classRef index => onClass index
  | cat _ q => q.closes onLiteral onClass
  | alt p q => p.closes onLiteral onClass && q.closes onLiteral onClass
  | oneOrMore _ p => p.closes onLiteral onClass
  | capture _ p => p.closes onLiteral onClass
  | _ => false

theorem Regexp.Matches.closes {p : Regexp} {P : Nat → Prop} (h : p.Matches x i j)
    (hp : p.closes onLiteral onClass = true) (hliteral : ∀ r, onLiteral r = true → P r)
    (hclass : ∀ index c r, onClass index = true → x.classes[index]? = some c →
      c.contains r = true → P r) :
    ∃ m r, i ≤ m ∧ j = m + 1 ∧ x.runes[m]? = some r ∧ P r := by
  induction p generalizing i j with
  | literal c =>
    obtain ⟨hr, rfl⟩ := h
    exact ⟨i, c, Nat.le_refl _, rfl, hr, hliteral c hp⟩
  | classRef index =>
    obtain ⟨⟨c, r, hc, hr, hcontains⟩, rfl⟩ := h
    exact ⟨i, r, Nat.le_refl _, rfl, hr, hclass index c r hp hc hcontains⟩
  | startAnchor | endAnchor | wordBoundary | zeroOrOne | zeroOrMore => cases hp
  | cat p q ihp ihq =>
    obtain ⟨m, hm, hm'⟩ := h
    obtain ⟨l, r, hl, hj, hr⟩ := ihq hm' hp
    exact ⟨l, r, hm.le.trans hl, hj, hr⟩
  | alt p q ihp ihq =>
    obtain ⟨hp, hq⟩ := Bool.and_eq_true_iff.1 hp
    rcases h with h | h
    · exact ihp h hp
    · exact ihq h hq
  | oneOrMore isLazy p ih =>
    cases h with
    | single h => exact ih h hp
    | tail hs hm =>
      have hle := Matches.le (p := oneOrMore isLazy p) hs
      obtain ⟨l, r, hl, hj, hr⟩ := ih hm hp
      exact ⟨l, r, hle.trans hl, hj, hr⟩
  | capture _ p ih => exact ih h hp

theorem offset_pos (hk : 0 < k) (hlt : 0 < (runes s).length) : 0 < offset s k := by
  apply Nat.pos_of_ne_zero
  intro hzero
  have hmono := offset_mono s (Nat.succ_le_of_lt hk)
  obtain ⟨rune, n, hnext⟩ := exists_nextRune hlt
  rw [Nat.succ_eq_add_one, offset_succ hnext, hzero] at hmono
  have := (nextRune_pos hnext).2
  omega

section Matched
variable {tree : Regexp} {classes : List RuneClass} {n : Nat} {s : Bytes} {P : Nat → Prop}

theorem matches_last (hp : p ≤ s.length)
    (h : tree.Matches (.after classes s p) (before p) (before p + k))
    (hcloses : tree.closes onLiteral onClass = true) (hliteral : ∀ r, onLiteral r = true → P r)
    (hclass : ∀ index c r, onClass index = true → classes[index]? = some c →
      c.contains r = true → P r) :
    ∃ m r, k = m + 1 ∧ (runes (s.drop p))[m]? = some r ∧ P r := by
  rw [← Input.classes_after classes s p] at hclass
  obtain ⟨m, r, hm, hk, hr, hP⟩ := h.closes hcloses hliteral hclass
  obtain ⟨m, rfl⟩ := Nat.exists_eq_add_of_le hm
  rw [(Input.shows_after classes hp).runes] at hr
  exact ⟨m, r, by omega, hr, hP⟩

/-- A match that reaches the end of a text ends with its last rune. -/
theorem CapturesOf.last (h : CapturesOf (some tree) classes n s p len captures) (hp : p ≤ s.length)
    (hcloses : tree.closes onLiteral onClass = true) (hliteral : ∀ r, onLiteral r = true → P r)
    (hclass : ∀ index c r, onClass index = true → classes[index]? = some c →
      c.contains r = true → P r) :
    0 < len ∧ (p + len = s.length → ∃ r, (runes (s.drop p)).getLast? = some r ∧ P r) := by
  obtain ⟨k, spans, hk, rfl, hrecords, -⟩ := h
  have hmatch : tree.Matches (.after classes s p) (before p) (before p + k) :=
    Regexp.Records.matches hrecords
  obtain ⟨m, r, rfl, hr, hP⟩ := matches_last hp hmatch hcloses hliteral hclass
  refine ⟨offset_pos (Nat.succ_pos m) (Nat.lt_of_lt_of_le (Nat.succ_pos m) hk), fun hend => ?_⟩
  have hlength := probe_last (Nat.le_of_eq hend.symm)
  refine ⟨r, ?_, hP⟩
  rw [List.getLast?_eq_getElem?, ← hr]
  congr 1
  omega

/-- What a group before a literal records. -/
theorem CapturesOf.group (h : CapturesOf (some (.cat (.capture 0 tree) (.literal r))) classes n s p
      len captures) (hbodies : tree.bodies 0 = []) (hn : 0 < n) :
    ∃ k, k ≤ (runes (s.drop p)).length ∧
      tree.Matches (.after classes s p) (before p) (before p + k) ∧
      captures[0]? = some { start := some p, «end» := some (p + offset (s.drop p) k) } := by
  obtain ⟨k, spans, hk, rfl, ⟨m, ⟨⟨j, inner⟩, hbody, rfl⟩, -, heq⟩, rfl⟩ := h
  obtain ⟨i, rfl⟩ : ∃ i, j = before p + i := Nat.exists_eq_add_of_le hbody.le
  obtain ⟨hk', rfl⟩ := Prod.mk.inj heq
  have hplace : Monotone fun j => p + offset (s.drop p) (j - before p) := by
    intro i j hij
    exact Nat.add_le_add_left (offset_mono _ (Nat.sub_le_sub_right hij _)) p
  have heven : ((List.replicate (2 * n) (none : Option Nat)).set (0 * 2)
      (some (p + offset (s.drop p) (before p - before p)))).length % 2 = 0 := by
    rw [List.length_set, List.length_replicate, Nat.mul_mod_right]
  have hlength := (Regexp.Records.recorded hplace hbody heven).length
  have hstart := hbody.keeps hbodies 0 rfl
  dsimp only at hlength hstart
  rw [List.length_set, List.length_replicate] at hlength
  rw [List.getElem?_set_self (by rw [List.length_replicate]; omega), Nat.sub_self] at hstart
  have hfirst : ∀ v, (inner.set (0 * 2 + 1) v)[0 * 2]? = some (some p) := by
    intro v
    rw [List.getElem?_set_ne (by omega), hstart]
    rfl
  have hstop : ∀ v, (inner.set (0 * 2 + 1) v)[0 * 2 + 1]? = some v := by
    intro v
    exact List.getElem?_set_self (by omega)
  refine ⟨i, by omega, hbody.matches, ?_⟩
  rw [List.getElem?_map, List.getElem?_range hn, Option.map_some]
  dsimp only
  rw [hfirst, hstop, Nat.add_sub_cancel_left]
  rfl

theorem appendRewrite_one (src : Bytes) (matchStart matchLen : Nat) (captures : List Capture)
    (h : captures[0]? = some { start := some p, «end» := some (p + k) }) :
    appendRewrite src matchStart matchLen captures ['\\'.toUInt8, '1'.toUInt8] =
      (src.drop p).take k := by
  have hindex : referenceIndex 0 ['1'.toUInt8] = (1, []) := rfl
  rw [appendRewrite, if_pos rfl, if_pos (by decide), hindex, appendRewrite, List.append_nil,
    referenced, if_neg Nat.one_ne_zero]
  dsimp only
  rw [h]
  dsimp only
  rw [Option.getD_some, if_pos (Nat.le_add_right ..), Capture.bytes, Option.getD_some,
    Nat.add_sub_cancel_left]

end Matched

section Loop
variable {pattern : Pattern} {classes : List RuneClass} {n : Nat} {s : Bytes}

theorem replaceLoop_ends {Q : Bytes → Prop} (hQ : ∀ u v, Q v → Q (u ++ v))
    (hp : pattern.WellFormed classes)
    (hok : (RegexEngine.compile pattern.toPostfix classes n).ok = true) (self : Nat)
    (rewrite : Bytes)
    (hlast : LastAt r s q) (hr : r ≠ Utf8.bad) (hcopy : Q (s.drop q))
    (hmatch : ∀ p len captures, p ≤ s.length → CapturesOf pattern classes n s p len captures →
      0 < len ∧ (p ≤ q → p + len = s.length → Q (appendRewrite s p len captures rewrite)))
    (hpos : pos ≤ q ∨ pos = s.length ∧ Q output) (replacements : Nat) (captures : List Capture)
    (hctx : ctx.visited.Valid) :
    Q ((RegexEngine.compile pattern.toPostfix classes n).replaceLoop self s rewrite pos output
      replacements captures ctx).1 := by
  induction hrest : s.length + 1 - pos using Nat.strong_induction_on
    generalizing pos output replacements captures ctx with
  | _ rest ih =>
    have hle : pos ≤ s.length := by
      rcases hpos with h | ⟨rfl, -⟩
      · exact h.trans (Nat.le_of_lt hlast.lt)
      · exact Nat.le_refl _
    rw [RegexEngine.replaceLoop, if_neg (Nat.not_lt_of_le hle)]
    split
    · rcases hpos with h | ⟨rfl, h⟩
      · rw [drop_append h, ← List.append_assoc]
        exact hQ _ _ hcopy
      · rw [List.drop_length, List.append_nil]
        exact h
    · next p len captures' ctx' hsearch =>
      have hloop : (RegexEngine.compile pattern.toPostfix classes n).searchLoop self s pos captures
          ctx = (some (p, len), captures', ctx') := by
        rw [RegexEngine.search, hok] at hsearch
        exact hsearch
      have hfound := congrArg Prod.fst hloop
      have hvalid := RegexEngine.searchLoop_valid (.compile pattern.toPostfix classes n) self s pos
        captures hctx
      rw [hloop] at hvalid
      obtain ⟨hge, hple, ctx₁, hctx₁, hlen, hcaptures⟩ := RegexEngine.searchLoop_found hfound
      have hof := probe_capturesOf hp hok (hctx₁ hctx) self hple hlen
      rw [← hcaptures, hloop] at hof
      obtain ⟨hpositive, hends⟩ := hmatch p len _ hple hof
      obtain ⟨k, spans, hk, rfl, -, -⟩ := hof
      have hnext : Probe s p (p + offset (s.drop p) k) := ⟨k, hk, rfl⟩
      have hlimit := hnext.le hple
      have hstart : p ≤ q := by
        rcases hpos with h | ⟨rfl, -⟩
        · rcases hlast.le_or_eq hr h (searchLoop_probe hfound) with hq | rfl
          · exact hq
          · omega
        · omega
      dsimp only
      rw [if_neg (Nat.pos_iff_ne_zero.1 hpositive)]
      refine ih _ (by omega) ?_ _ _ hvalid rfl
      rcases hlast.le_or_eq hr hstart hnext with hq | heq
      · exact .inl hq
      · exact .inr ⟨heq, hQ _ _ (hends hstart heq)⟩

theorem mem_matchLengths_literal (hp : p ≤ s.length) :
    len ∈ MatchLengths (some (.literal r)) classes s p ↔ nextRune s p = some (r, len) := by
  have hrune : (Input.after classes s p).runes[before p]? = (nextRune s p).map Prod.fst := by
    have hshows := (Input.shows_after classes hp).runes 0
    rw [Nat.add_zero] at hshows
    rw [hshows, getElem?_runes, nextRune_drop]
    rfl
  constructor
  · rintro ⟨k, -, rfl, hr, hk⟩
    obtain rfl : k = 1 := by omega
    rw [hrune] at hr
    obtain ⟨⟨rune, size⟩, hnext, rfl⟩ := Option.map_eq_some_iff.1 hr
    have hdrop : nextRune (s.drop p) (offset (s.drop p) 0) = some (rune, size) := by
      rw [nextRune_drop]
      exact hnext
    rw [hnext, offset_succ hdrop]
    exact congrArg (fun n => some (rune, n)) (Nat.zero_add size).symm
  · intro hnext
    have hdrop : nextRune (s.drop p) (offset (s.drop p) 0) = some (r, len) := by
      rw [nextRune_drop]
      exact hnext
    have hfirst : (runes (s.drop p))[0]? = some r := by
      rw [getElem?_runes, hdrop]
      rfl
    refine ⟨1, (List.getElem?_eq_some_iff.1 hfirst).1, ?_, ?_, rfl⟩
    · rw [offset_succ hdrop]
      exact Nat.zero_add len
    · rw [hrune, hnext]
      rfl

theorem Successive.literal_last {found : List (Span (List Capture))}
    (h : Successive (some (.literal r)) classes n s pos found) (hpos : pos ≤ q) (hq : q < s.length)
    (hdecode : decodeRune s q = (r, size)) (hr : r ≠ Utf8.bad)
    (hrest : ∀ p, q + size ≤ p → p < s.length → (decodeRune s p).1 ≠ r)
    {f : Span (List Capture) → Bytes} (hf : ∀ m, f m = rewrite) :
    ∃ u, substitute s f pos found = u ++ rewrite ++ s.drop (q + size) := by
  have hget := List.getElem?_eq_getElem hq
  have hlead := decodeRune_lead hdecode hq hr
  have hnext : nextRune s q = some (r, size) := by
    rw [nextRune, if_pos hq, hdecode]
  have hlast : size ∈ MatchLengths (some (.literal r)) classes s q :=
    (mem_matchLengths_literal (Nat.le_of_lt hq)).2 hnext
  have hstop := nextRune_le hnext
  have hfound : ∀ pos p len, pos ≤ s.length →
      Finds (some (.literal r)) classes s pos (some (p, len)) → nextRune s p = some (r, len) := by
    intro pos p len hpos hfinds
    have hle := (hfinds.bounds hpos).2
    exact (mem_matchLengths_literal (by omega)).1 hfinds.2.1
  have hbehind : ∀ p len, ¬ Finds (some (.literal r)) classes s (q + size) (some (p, len)) := by
    intro p len hfinds
    have hnext := hfound _ p len hstop hfinds
    obtain ⟨hlt, -⟩ := nextRune_pos hnext
    rw [nextRune, if_pos hlt] at hnext
    exact hrest p (hfinds.bounds hstop).1 hlt (congrArg Prod.fst (Option.some.inj hnext))
  have hbefore : ∀ pos p len, pos ≤ q →
      Finds (some (.literal r)) classes s pos (some (p, len)) → 0 < len := by
    intro pos p len hpos hfinds
    exact (nextRune_pos (hfound pos p len (hpos.trans (Nat.le_of_lt hq)) hfinds)).2
  induction h with
  | none hfinds =>
    have hempty := hfinds q (probe_of_lead hget hlead hpos)
    rw [hempty] at hlast
    cases hlast
  | last hfinds _ => exact absurd (hbefore _ _ _ hpos hfinds) (Nat.lt_irrefl 0)
  | empty hfinds _ _ _ _ => exact absurd (hbefore _ _ _ hpos hfinds) (Nat.lt_irrefl 0)
  | @next pos p len captures found hfinds hlen hcaptures rest ih =>
    have hp : p ≤ q := hfinds.1.2 ⟨probe_of_lead hget hlead hpos, size, hlast⟩
    have hrune := hfound pos p len (hpos.trans (Nat.le_of_lt hq)) hfinds
    rw [substitute, hf]
    dsimp only
    rcases Nat.eq_or_lt_of_le hp with rfl | hlt
    · rw [hnext] at hrune
      obtain rfl : size = len := (Prod.mk.inj (Option.some.inj hrune)).2
      refine ⟨(s.drop pos).take (p - pos), ?_⟩
      cases rest with
      | none _ => rw [substitute]
      | last hfinds _ => exact (hbehind _ _ hfinds).elim
      | empty hfinds _ _ _ => exact (hbehind _ _ hfinds).elim
      | next hfinds _ _ _ => exact (hbehind _ _ hfinds).elim
    · have hdecode : decodeRune s p = (r, len) := by
        rw [nextRune, if_pos (hlt.trans hq)] at hrune
        exact Option.some.inj hrune
      have hle := decodeRune_le_lead hget hlead hlt
      rw [hdecode] at hle
      obtain ⟨u, hu⟩ := ih hle
      refine ⟨(s.drop pos).take (p - pos) ++ rewrite ++ u, ?_⟩
      rw [hu]
      simp only [List.append_assoc]

end Loop

def Regexp.endsOff (r : Nat) (classes : List RuneClass) (p : Regexp) : Bool :=
  p.closes (· != r) fun index => (classes[index]?).all fun c => !c.contains r

def Regexp.endsOn (r : Nat) (p : Regexp) : Bool := p.closes (· == r) fun _ => false

section Replace
variable {findCategory : Bytes → Option RuneClass} {t : PatternTree} {s : Bytes} {r : Nat}

theorem globalReplace_ends (hparse : PatternTree.parse findCategory pattern = some t)
    (ht : t.tree.WellFormed t.classes) (hok : t.engine.ok = true)
    (hctx : MatchContext.LeftOver ctx) (self : Nat) (rewrite : Bytes) (hs : EndsRune r s)
    (hr : r ≠ Utf8.bad) (hmatch : ∀ p len captures, p ≤ s.length →
      CapturesOf (some t.tree) t.classes t.groups s p len captures → 0 < len ∧
        (p + len = s.length → (runes (s.drop p)).getLast? = some r →
          EndsRune r (appendRewrite s p len captures rewrite))) :
    ∃ result, (globalReplace findCategory self ctx (some s) pattern rewrite).1 = some result ∧
      EndsRune r result := by
  obtain ⟨q, hq⟩ := hs
  have ht' : Pattern.WellFormed t.classes (some t.tree) := ht
  have hrewritten : ∀ p len captures, p ≤ s.length →
      CapturesOf (some t.tree) t.classes t.groups s p len captures → 0 < len ∧
        (p ≤ q → p + len = s.length → EndsRune r (appendRewrite s p len captures rewrite)) := by
    intro p len captures hp hcaptures
    obtain ⟨hlen, hends⟩ := hmatch p len captures hp hcaptures
    exact ⟨hlen, fun hpq hend => hends hend (hq.getLast?_runes hr hpq)⟩
  have hstart : 0 ≤ q ∨ 0 = s.length ∧ EndsRune r [] := .inl (Nat.zero_le q)
  refine ⟨_, ?_, replaceLoop_ends (fun u v hv => hv.append u) ht' hok self rewrite hq hr hq.drop
    hrewritten hstart 0 [] hctx.valid⟩
  rw [globalReplace, RegexEngine.ofPattern_eq hparse, hok]
  simp only [Bool.not_true, Bool.false_eq_true, if_false]
  rfl

theorem globalReplace_endsOff (hparse : PatternTree.parse findCategory pattern = some t)
    (ht : t.tree.WellFormed t.classes) (hok : t.engine.ok = true)
    (hoff : t.tree.endsOff r t.classes = true) (hctx : MatchContext.LeftOver ctx) (self : Nat)
    (rewrite : Bytes) (hs : EndsRune r s) (hr : r ≠ Utf8.bad) :
    ∃ result, (globalReplace findCategory self ctx (some s) pattern rewrite).1 = some result ∧
      EndsRune r result := by
  refine globalReplace_ends hparse ht hok hctx self rewrite hs hr ?_
  intro p len captures hp hcaptures
  have hclass : ∀ (index : Nat) (c : RuneClass) (k : Nat),
      ((t.classes[index]?).all fun c => !c.contains r) = true →
      t.classes[index]? = some c → c.contains k = true → k ≠ r := by
    rintro index c k hindex hc hk rfl
    rw [hc, Option.all_some, hk] at hindex
    cases hindex
  obtain ⟨hlen, hend⟩ :=
    hcaptures.last (P := (· ≠ r)) hp hoff (fun c hc => bne_iff_ne.1 hc) hclass
  refine ⟨hlen, fun hstop hlast => ?_⟩
  obtain ⟨k, hk, hne⟩ := hend hstop
  rw [hlast] at hk
  exact absurd (Option.some.inj hk).symm hne

/-- A text keeps its last rune where each match is rewritten to a group that ends with it. -/
theorem globalReplace_group (hparse : PatternTree.parse findCategory pattern = some t)
    (ht : t.tree.WellFormed t.classes) (hok : t.engine.ok = true)
    (htree : t.tree = .cat (.capture 0 body) (.literal r)) (hbodies : body.bodies 0 = [])
    (hgroups : 0 < t.groups) (hon : body.endsOn r = true) (hctx : MatchContext.LeftOver ctx)
    (self : Nat) (hs : EndsRune r s) (hr : r ≠ Utf8.bad) :
    ∃ result, (globalReplace findCategory self ctx (some s) pattern
        ['\\'.toUInt8, '1'.toUInt8]).1 = some result ∧ EndsRune r result := by
  refine globalReplace_ends hparse ht hok hctx self _ hs hr ?_
  intro p len captures hp hcaptures
  have hnone : ∀ index c k, (fun _ : Nat => false) index = true → t.classes[index]? = some c →
      c.contains k = true → k = r := by
    intro index c k hindex
    cases hindex
  have hclosed : t.tree.closes (· == r) (fun _ => false) = true := by
    rw [htree]
    exact beq_self_eq_true r
  obtain ⟨hlen, -⟩ := hcaptures.last (P := (· = r)) hp hclosed (fun c hc => beq_iff_eq.1 hc) hnone
  refine ⟨hlen, fun _ _ => ?_⟩
  rw [htree] at hcaptures
  obtain ⟨k, hk, hmatch, hget⟩ := hcaptures.group hbodies hgroups
  obtain ⟨m, c, rfl, hm, rfl⟩ :=
    matches_last hp hmatch hon (P := (· = r)) (fun c hc => beq_iff_eq.1 hc) hnone
  rw [appendRewrite_one s p len captures hget]
  apply endsRune_of_runes
  rw [runes_take hk, List.getLast?_take, if_neg (Nat.succ_ne_zero m), Nat.add_sub_cancel, hm]
  rfl

/-- A pattern of one rune is replaced where the rune is last before the rest of the text. -/
theorem globalReplace_literal (hparse : PatternTree.parse findCategory pattern = some t)
    (ht : t.tree.WellFormed t.classes) (hok : t.engine.ok = true) (htree : t.tree = .literal r)
    (hgroups : t.groups = 0) (hctx : MatchContext.LeftOver ctx) (self : Nat) {rewrite : Bytes}
    (hrewrite : ∀ p len captures, appendRewrite s p len captures rewrite = rewrite)
    (hq : q < s.length) (hdecode : decodeRune s q = (r, size)) (hr : r ≠ Utf8.bad)
    (hrest : ∀ p, q + size ≤ p → p < s.length → (decodeRune s p).1 ≠ r) :
    ∃ u, (globalReplace findCategory self ctx (some s) pattern rewrite).1 =
      some (u ++ rewrite ++ s.drop (q + size)) := by
  have ht' : Pattern.WellFormed t.classes (some t.tree) := ht
  have hok' : (RegexEngine.compile (Pattern.toPostfix (some t.tree)) t.classes 0).ok = true := by
    rw [← hgroups]
    exact hok
  have hcompile : RegexEngine.ofPattern findCategory pattern =
      .compile (Pattern.toPostfix (some t.tree)) t.classes 0 := by
    rw [RegexEngine.ofPattern_eq hparse, PatternTree.engine, hgroups]
    rfl
  obtain ⟨found, ctx', -, hsuccessive, hresult⟩ :=
    globalReplace_of_compile s ht' hcompile hok' hctx self rewrite
  have hfound := hsuccessive (searchesFit_zero hok')
  rw [htree] at hfound
  obtain ⟨u, hu⟩ := hfound.literal_last (Nat.zero_le q) hq hdecode hr hrest
    (f := fun m => appendRewrite s m.start m.len m.label rewrite)
    (fun m => hrewrite m.start m.len m.label)
  exact ⟨u, by rw [hresult, hu]⟩

end Replace

end Trieste.Regex
