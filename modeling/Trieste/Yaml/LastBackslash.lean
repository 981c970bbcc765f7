import Trieste.Library.Occurrence
import Trieste.Yaml.DoubleText

namespace Trieste.Yaml
set_option autoImplicit true
open Utf8 Json Library

/-- How the runes behind the last backslash of a scalar are read behind the last one of the string. -/
inductive LastRead : List Nat → List Nat → Prop
  | hidden (t : Nat) (rest : List Nat) :
      LastRead (t :: rest) ((unicodeTail t).map UInt8.toNat ++ rest)
  | code (h : 3 ≤ front.length) (rest : List Nat) : LastRead (front ++ rest) rest

theorem not_mem_tail (t : Nat) : 0x5C ∉ (unicodeTail t).map UInt8.toNat := by
  intro hmem
  obtain ⟨c, hc, hvalue⟩ := List.mem_map.1 hmem
  apply (unicodeTail_plain t c hc).2
  exact UInt8.toNat_inj.1 hvalue

theorem digits_not_mem (digits : List Hex) : 0x5C ∉ (digits.map Hex.byte).map UInt8.toNat := by
  intro hmem
  obtain ⟨c, hc, hvalue⟩ := List.mem_map.1 hmem
  obtain ⟨d, -, rfl⟩ := List.mem_map.1 hc
  exact d.ne_backslash (UInt8.toNat_inj.1 hvalue)

theorem escapeDigits_cases (h : escapeDigits kind = some n) :
    kind = 0x78 ∧ n = 2 ∨ kind = 0x75 ∧ n = 4 ∨ kind = 0x55 ∧ n = 8 := by
  unfold escapeDigits at h
  repeat' split at h
  all_goals cases h
  all_goals subst kind; decide

theorem kind_ne (h : escapeDigits kind = some n) : kind.toNat ≠ 0x5C ∧ 2 ≤ n := by
  rcases escapeDigits_cases h with ⟨rfl, rfl⟩ | ⟨rfl, rfl⟩ | ⟨rfl, rfl⟩ <;> decide

theorem kind_ascii (h : escapeDigits kind = some n) : kind.toNat < 0x80 := by
  rcases escapeDigits_cases h with ⟨rfl, -⟩ | ⟨rfl, -⟩ | ⟨rfl, -⟩ <;> decide

namespace Denoted

/-- Without backslashes, a scalar denotes its text. -/
theorem plain (h : Denoted ts ds) (hno : 0x5C ∉ ts) :
    ds = ts ∧ ∀ t ∈ ts, t < 0x80 → IsPlain t := by
  induction h with
  | nil => exact ⟨rfl, List.forall_mem_nil _⟩
  | char h hplain rest ih =>
    obtain ⟨rfl, hall⟩ := ih fun hmem => hno (List.mem_cons_of_mem _ hmem)
    exact ⟨rfl, List.forall_mem_cons.2 ⟨hplain, hall⟩⟩
  | hidden | letter | code => exact absurd List.mem_cons_self hno

theorem count_le (h : Denoted ts ds) : ds.count 0x5C ≤ ts.count 0x5C := by
  induction h with
  | nil => exact Nat.le_refl _
  | char h hplain rest ih => rwa [List.count_cons_of_ne h, List.count_cons_of_ne h]
  | @hidden t ts ds h rest ih =>
    rw [List.count_append, List.count_eq_zero.2 (not_mem_tail t), Nat.zero_add] at ih
    have hne : t ≠ 0x5C := by
      rintro rfl
      exact absurd h (by decide)
    rw [List.count_cons_self, List.count_cons_self, List.count_cons_of_ne hne]
    exact Nat.succ_le_succ ih
  | @letter c value ts ds h hvalue rest ih =>
    rw [List.count_cons, List.count_cons, List.count_cons]
    grind
  | @code kind ts ds value digits hkind rest ih =>
    rw [List.count_cons_self, List.count_cons_of_ne (kind_ne hkind).1, List.count_append,
      List.count_eq_zero.2 (digits_not_mem digits), Nat.zero_add, List.count_cons]
    grind

/-- Where every backslash of the text stands for one, the last one is read as one. -/
theorem last (h : Denoted ts ds) (hcount : ds.count 0x5C = ts.count 0x5C) (hmem : 0x5C ∈ ts) :
    ∃ s x, BehindLast 0x5C s ts ∧ BehindLast 0x5C x ds ∧ LastRead s x := by
  induction h with
  | nil => cases hmem
  | @char t ts ds h hplain rest ih =>
    rw [List.count_cons_of_ne h, List.count_cons_of_ne h] at hcount
    obtain ⟨s, x, hs, hx, hread⟩ := ih hcount ((List.mem_cons.1 hmem).resolve_left (Ne.symm h))
    exact ⟨s, x, hs.cons t, hx.cons t, hread⟩
  | @hidden t ts ds h rest ih =>
    have hne : t ≠ 0x5C := by
      rintro rfl
      exact absurd h (by decide)
    rw [List.count_cons_self, List.count_cons_self, List.count_cons_of_ne hne,
      Nat.succ_inj] at hcount
    by_cases hts : 0x5C ∈ ts
    · rw [List.count_append, List.count_eq_zero.2 (not_mem_tail t), Nat.zero_add] at ih
      obtain ⟨s, x, hs, hx, hread⟩ := ih hcount (List.mem_append_right _ hts)
      exact ⟨s, x, ((hs.of_append (not_mem_tail t)).cons t).cons 0x5C, hx.cons 0x5C, hread⟩
    · have hno : 0x5C ∉ (unicodeTail t).map UInt8.toNat ++ ts := by
        rw [List.mem_append, not_or]
        exact ⟨not_mem_tail t, hts⟩
      obtain ⟨rfl, -⟩ := rest.plain hno
      have hs : 0x5C ∉ t :: ts := by
        rw [List.mem_cons, not_or]
        exact ⟨Ne.symm hne, hts⟩
      exact ⟨_, _, .self hs, .self hno, .hidden t ts⟩
  | @letter c value ts ds h hvalue rest ih =>
    have hle := rest.count_le
    rw [List.count_cons, List.count_cons, List.count_cons] at hcount
    grind
  | @code kind ts ds value digits hkind rest ih =>
    obtain ⟨hkind', hlen⟩ := kind_ne hkind
    have hle := rest.count_le
    rw [List.count_cons_self, List.count_cons_of_ne hkind', List.count_append,
      List.count_eq_zero.2 (digits_not_mem digits), Nat.zero_add, List.count_cons] at hcount
    have hvalue : value = 0x5C := by grind
    subst hvalue
    have hcount : ds.count 0x5C = ts.count 0x5C := by grind
    have hfront : 0x5C ∉ kind.toNat :: (digits.map Hex.byte).map UInt8.toNat := by
      rw [List.mem_cons, not_or]
      exact ⟨Ne.symm hkind', digits_not_mem digits⟩
    by_cases hts : 0x5C ∈ ts
    · obtain ⟨s, x, hs, hx, hread⟩ := ih hcount hts
      exact ⟨s, x, (hs.append_left (kind.toNat :: _)).cons 0x5C, hx.cons 0x5C, hread⟩
    · obtain ⟨rfl, -⟩ := rest.plain hts
      refine ⟨(kind.toNat :: (digits.map Hex.byte).map UInt8.toNat) ++ ds, ds, .self ?_, .self hts,
        .code ?_ ds⟩
      · rw [List.mem_append, not_or]
        exact ⟨hfront, hts⟩
      · rw [List.length_cons, List.length_map, List.length_map]
        omega

end Denoted

/-- How the runes behind the last backslash of a string are written behind the last one of the
string that it is decoded from. -/
inductive LastWritten : List Nat → List Nat → Prop
  | same (s : List Nat) : LastWritten s s
  | code (hkind : escapeDigits kind = some n) (hdigits : Sequences digits ds)
      (hrest : Sequences (digits.drop n) s) : LastWritten (kind.toNat :: ds) s

/-- No backslash is in the decoded string but for one of the string that it is decoded from. -/
structure DecodedFrom (vs ts : List Nat) : Prop where
  count_le : ts.count 0x5C ≤ vs.count 0x5C
  last : ts.count 0x5C = vs.count 0x5C → 0x5C ∈ ts →
    ∃ s y, BehindLast 0x5C s ts ∧ BehindLast 0x5C y vs ∧ LastWritten y s

namespace DecodedFrom

theorem refl (vs : List Nat) : DecodedFrom vs vs := by
  refine ⟨Nat.le_refl _, fun _ hmem => ?_⟩
  obtain ⟨s, hs⟩ := BehindLast.exists_of_mem hmem
  exact ⟨s, s, hs, hs, .same s⟩

theorem cons (h : DecodedFrom vs ts) (ht : t ≠ 0x5C) : DecodedFrom (t :: vs) (t :: ts) := by
  refine ⟨?_, fun hcount hmem => ?_⟩
  · rw [List.count_cons_of_ne ht, List.count_cons_of_ne ht]
    exact h.count_le
  · rw [List.count_cons_of_ne ht, List.count_cons_of_ne ht] at hcount
    obtain ⟨s, y, hs, hy, hwritten⟩ :=
      h.last hcount ((List.mem_cons.1 hmem).resolve_left (Ne.symm ht))
    exact ⟨s, y, hs.cons t, hy.cons t, hwritten⟩

end DecodedFrom

theorem unescape_no_backslash (h : backslash ∉ text) : unescapeHexunicode text = .ok text := by
  apply unescapeHexunicode_of_noEscape
  intro rest hrest
  exact absurd (hrest.subset List.mem_cons_self) h

theorem Sequences.mem_backslash (h : Sequences s ts) : backslash ∈ s ↔ 0x5C ∈ ts := by
  induction h with
  | nil => simp
  | @rune value s ts hvalue rest ih =>
    rw [List.mem_append, List.mem_cons, ih]
    apply or_congr_left
    by_cases hlow : value ≤ max1
    · have hbyte : (UInt8.ofNat value).toNat = value := toNat_low (Nat.not_lt.2 hlow)
      rw [writeRune_ascii hlow, List.mem_singleton]
      constructor
      · intro hb
        rw [← hbyte, ← hb]
        rfl
      · rintro rfl
        rfl
    · constructor
      · intro hb
        exact absurd (writeRune_high hlow _ hb) (by decide)
      · rintro rfl
        exact absurd (by decide) hlow
  | @stray c s ts hc rest ih =>
    rw [List.mem_cons, List.mem_cons, ih]
    apply or_congr_left
    constructor
    · rintro rfl
      cases hc
    · intro hbad
      cases hbad

theorem unescape_append (h : backslash ∉ front) (s : Text) :
    unescapeHexunicode (front ++ s) = (unescapeHexunicode s).map (front ++ ·) := by
  induction front with
  | nil =>
    rw [List.nil_append]
    cases unescapeHexunicode s <;> rfl
  | cons c front ih =>
    rw [List.mem_cons, not_or] at h
    rw [List.cons_append, unescapeHexunicode_cons (Ne.symm h.1), ih h.2]
    cases unescapeHexunicode s <;> rfl

namespace DecodedFrom

/-- A backslash that starts no escape. -/
theorem literal (h : DecodedFrom vs ts) (hsame : 0x5C ∉ vs → ts = vs) :
    DecodedFrom (0x5C :: vs) (0x5C :: ts) := by
  refine ⟨?_, fun hcount _ => ?_⟩
  · rw [List.count_cons_self, List.count_cons_self]
    exact Nat.succ_le_succ h.count_le
  · rw [List.count_cons_self, List.count_cons_self, Nat.succ_inj] at hcount
    by_cases hmem : 0x5C ∈ ts
    · obtain ⟨s, y, hs, hy, hwritten⟩ := h.last hcount hmem
      exact ⟨s, y, hs.cons 0x5C, hy.cons 0x5C, hwritten⟩
    · have hno : 0x5C ∉ vs := by
        rwa [← List.count_eq_zero, ← hcount, List.count_eq_zero]
      obtain rfl := hsame hno
      exact ⟨ts, ts, .self hmem, .self hmem, .same ts⟩

/-- An escape, of which the runes behind its letter are given, and those that are left. -/
theorem escape (hkind : escapeDigits kind = some n) (hdigits : Sequences digits ds)
    (hdrop : Sequences (digits.drop n) (List.replicate m bad ++ rest)) (hrest : rest <:+ ds)
    (h : DecodedFrom (List.replicate m bad ++ rest) ts)
    (hsame : 0x5C ∉ List.replicate m bad ++ rest → ts = List.replicate m bad ++ rest) (r : Nat) :
    DecodedFrom (0x5C :: kind.toNat :: ds) (r :: ts) := by
  have hbad : 0x5C ∉ List.replicate m bad := by
    intro hmem
    cases List.eq_of_mem_replicate hmem
  have hle := h.count_le
  have hle' := hrest.sublist.count_le 0x5C
  rw [List.count_append, List.count_eq_zero.2 hbad, Nat.zero_add] at hle
  refine ⟨?_, fun hcount _ => ?_⟩
  · rw [List.count_cons_self, List.count_cons_of_ne (kind_ne hkind).1, List.count_cons]
    grind
  · rw [List.count_cons_self, List.count_cons_of_ne (kind_ne hkind).1, List.count_cons] at hcount
    have hr : r = 0x5C := by grind
    subst hr
    have hts : ts.count 0x5C = ds.count 0x5C := by grind
    by_cases hmem : 0x5C ∈ ts
    · have hcount' : ts.count 0x5C = (List.replicate m bad ++ rest).count 0x5C := by
        rw [List.count_append, List.count_eq_zero.2 hbad, Nat.zero_add]
        omega
      obtain ⟨s, y, hs, hy, hwritten⟩ := h.last hcount' hmem
      have hy := hy.of_append hbad
      refine ⟨s, y, hs.cons _, ?_, hwritten⟩
      exact ⟨hy.suffix.trans (hrest.trans ((List.suffix_cons _ _).trans (List.suffix_cons _ _))),
        hy.not_mem⟩
    · have hno : 0x5C ∉ ds := by
        rwa [← List.count_eq_zero, ← hts, List.count_eq_zero]
      have hnone : 0x5C ∉ List.replicate m bad ++ rest := by
        rw [List.mem_append, not_or]
        exact ⟨hbad, fun hmem' => hno (hrest.subset hmem')⟩
      obtain rfl := hsame hnone
      refine ⟨_, kind.toNat :: ds, .self hmem, .self ?_, .code hkind hdigits hdrop⟩
      rw [List.mem_cons, not_or]
      exact ⟨Ne.symm (kind_ne hkind).1, hno⟩

end DecodedFrom

theorem decodedFrom_unescape (h : Sequences view vs) (hdecoded : unescapeHexunicode view = .ok text) :
    ∃ ts, Sequences text ts ∧ DecodedFrom vs ts := by
  induction hlen : view.length using Nat.strong_induction_on generalizing view vs text with
  | _ len ih =>
    subst hlen
    -- without a backslash, nothing is decoded
    have hsame : ∀ {s text : Text} {vs ts : List Nat}, Sequences s vs → Sequences text ts →
        unescapeHexunicode s = .ok text → 0x5C ∉ vs → ts = vs := by
      intro s text vs ts hs htext hdec hno
      rw [unescape_no_backslash (fun hmem => hno ((Sequences.mem_backslash hs).1 hmem))] at hdec
      cases hdec
      exact htext.unique hs
    cases h with
    | nil =>
      rw [unescapeHexunicode] at hdecoded
      cases hdecoded
      exact ⟨[], .nil, .refl []⟩
    | @rune value s vs hvalue hs =>
      have hlt : s.length < (writeRune value ++ s).length := by
        have hpos := List.length_pos_of_ne_nil (writeRune_ne_nil value)
        rw [List.length_append]
        omega
      by_cases hb : value = 0x5C
      · subst hb
        have hone : writeRune 0x5C = [backslash] := rfl
        rw [hone, List.singleton_append] at hdecoded hlt
        cases hstart : startsEscape s with
        | false =>
          rw [unescapeHexunicode_of_not_starts (not_starts hstart)] at hdecoded
          obtain ⟨text', htext', rfl⟩ := map_eq_ok.1 hdecoded
          obtain ⟨ts, hts, hfrom⟩ := ih _ hlt hs htext' rfl
          exact ⟨0x5C :: ts, .rune hvalue hts, hfrom.literal (hsame hs hts htext')⟩
        | true =>
          obtain ⟨digits, n, hstarts⟩ := startsEscape_iff.1 hstart
          rw [unescapeHexunicode_of_starts hstarts] at hdecoded
          obtain ⟨value, -, hdecoded⟩ := bind_eq_ok.1 hdecoded
          obtain ⟨text', htext', rfl⟩ := map_eq_ok.1 hdecoded
          obtain ⟨kind, rfl, hkind, -⟩ := hstarts
          obtain ⟨ds, rfl, hdigits⟩ := hs.ascii_cons (kind_ascii hkind)
          obtain ⟨m, rest, hrest, -, hdrop⟩ := hdigits.drop n
          obtain ⟨ts, hts, hfrom⟩ := ih (digits.drop n).length (by
            rw [hone, List.length_drop, List.singleton_append, List.length_cons, List.length_cons]
            omega) hdrop htext' rfl
          obtain ⟨r, hr, hwrite⟩ := writeRune_clamp (value % 2 ^ 32)
          rw [hwrite]
          exact ⟨r :: ts, .rune hr hts,
            .escape hkind hdigits hdrop hrest hfrom (hsame hdrop hts htext') r⟩
      · have hno : backslash ∉ writeRune value := by
          intro hmem
          have hrune : Sequences (writeRune value ++ []) [value] := .rune hvalue .nil
          rw [List.append_nil] at hrune
          have hmem' := (Sequences.mem_backslash hrune).1 hmem
          exact hb (List.mem_singleton.1 hmem').symm
        rw [unescape_append hno] at hdecoded
        obtain ⟨text', htext', rfl⟩ := map_eq_ok.1 hdecoded
        obtain ⟨ts, hts, hfrom⟩ := ih _ hlt hs htext' rfl
        exact ⟨value :: ts, .rune hvalue hts, hfrom.cons hb⟩
    | @stray c s vs hc hs =>
      have hne : c ≠ backslash := by
        rintro rfl
        cases hc
      rw [unescapeHexunicode_cons hne] at hdecoded
      obtain ⟨text', htext', rfl⟩ := map_eq_ok.1 hdecoded
      obtain ⟨ts, hts, hfrom⟩ := ih _ (Nat.lt_succ_self s.length) hs htext' rfl
      exact ⟨bad :: ts, .stray hc hts, hfrom.cons (by decide)⟩

/-- A scalar that denotes the string its text is decoded from has no backslash. -/
theorem no_backslash (hfrom : DecodedFrom vs (front ++ ts ++ back)) (hden : Denoted ts vs)
    (hfront : 0x5C ∉ front) (hback : 0x5C ∉ back) (hlen : back.length ≤ 1) : 0x5C ∉ ts := by
  intro hmem
  have hcount : (front ++ ts ++ back).count 0x5C = ts.count 0x5C := by
    rw [List.count_append, List.count_append, List.count_eq_zero.2 hfront,
      List.count_eq_zero.2 hback, Nat.zero_add, Nat.add_zero]
  have hle := hfrom.count_le
  have hle' := hden.count_le
  rw [hcount] at hle
  have heq : vs.count 0x5C = ts.count 0x5C := Nat.le_antisymm hle' hle
  obtain ⟨s, x, hs, hx, hread⟩ := hden.last heq hmem
  obtain ⟨s', y, hs', hy, hwritten⟩ := hfrom.last (hcount.trans heq.symm)
    (List.mem_append_left _ (List.mem_append_right _ hmem))
  obtain rfl := hs'.unique ((hs.append_left front).append_right hback)
  obtain rfl := hy.unique hx
  have htail : ∀ t, 5 ≤ ((unicodeTail t).map UInt8.toNat).length := by
    intro t
    rw [unicodeTail, List.length_map, List.length_cons, List.length_map, length_hexesOf, unicodeForm]
    split <;> decide
  generalize hseen : s ++ back = seen at hwritten
  cases hwritten with
  | same =>
    have hlength := congrArg List.length hseen
    cases hread with
    | hidden t rest =>
      have htail := htail t
      simp only [List.length_append, List.length_cons] at hlength
      omega
    | code hcode rest =>
      simp only [List.length_append] at hlength
      omega
  | @code kind n digits ds _ hkind hdigits hrest =>
    subst hseen
    generalize hy : kind.toNat :: ds = y at hread
    cases hread with
    | hidden t rest =>
      rw [unicodeTail, List.map_cons, List.cons_append, List.cons.injEq] at hy
      obtain ⟨hform, rfl⟩ := hy
      rw [UInt8.toNat_inj.1 hform, escapeDigits_unicodeForm, Option.some.injEq] at hkind
      have hascii : ∀ c ∈ (hexesOf (unicodeForm t).2 t).map Hex.byte, c.toNat < 0x80 := by
        intro c hc
        exact (unicodeTail_plain t c (List.mem_cons_of_mem _ hc)).1
      obtain ⟨left, rfl, hleft⟩ := hdigits.of_ascii hascii
      have hlen' : ((hexesOf (unicodeForm t).2 t).map Hex.byte).length = n := by
        rw [List.length_map, length_hexesOf, hkind]
      rw [← hlen', List.drop_left] at hrest
      have hlength := congrArg List.length (hrest.unique hleft)
      simp only [List.length_append, List.length_cons] at hlength
      omega
    | code hcode rest =>
      subst hy
      obtain ⟨m, left, -, hbound, hdrop⟩ := hdigits.drop n
      have hlength := congrArg List.length (hrest.unique hdrop)
      simp only [List.length_append, List.length_cons, List.length_replicate] at hlength
      omega

end Trieste.Yaml
