import Trieste.Regex.Groups
import Trieste.Regex.Replace

namespace Trieste.Regex
set_option autoImplicit true
open Library

/-- Whether the tree is built so that its matches have the rune. -/
def Regexp.demands (r : Nat) : Regexp → Bool
  | literal c => c == r
  | cat p q => p.demands r || q.demands r
  | alt p q => p.demands r && q.demands r
  | oneOrMore _ p => p.demands r
  | capture _ p => p.demands r
  | _ => false

theorem Regexp.Matches.demands {p : Regexp} (h : p.Matches x i j) (hp : p.demands r = true) :
    r ∈ x.slice i j := by
  induction p generalizing i j with
  | literal c =>
    obtain ⟨hr, rfl⟩ := h
    rw [Input.slice_succ hr, List.mem_singleton]
    exact (beq_iff_eq.1 hp).symm
  | classRef | startAnchor | endAnchor | wordBoundary | zeroOrOne | zeroOrMore => cases hp
  | cat p q ihp ihq =>
    obtain ⟨m, hm, hm'⟩ := h
    rw [← x.slice_append hm.le hm'.le, List.mem_append]
    rcases Bool.or_eq_true_iff.1 hp with hp | hq
    · exact .inl (ihp hm hp)
    · exact .inr (ihq hm' hq)
  | alt p q ihp ihq =>
    obtain ⟨hp, hq⟩ := Bool.and_eq_true_iff.1 hp
    rcases h with h | h
    · exact ihp h hp
    · exact ihq h hq
  | oneOrMore isLazy p ih =>
    induction h with
    | single h => exact ih h hp
    | tail hs hm ihs =>
      rw [← x.slice_append (Matches.le (p := oneOrMore isLazy p) hs) hm.le]
      exact List.mem_append_left _ ihs
  | capture _ p ih => exact ih h hp

namespace RegexEngine

theorem searchLoop_leftOver (e : RegexEngine) (self : Nat) (s : List UInt8) (probe : Nat)
    (captures : List Capture) (hctx : MatchContext.LeftOver ctx) :
    MatchContext.LeftOver (e.searchLoop self s probe captures ctx).2.2 := by
  induction hrest : s.length - probe using Nat.strong_induction_on generalizing probe captures ctx with
  | _ rest ih =>
    have hleft := hctx.findPrefixWithContext e self (s.drop probe) (probe == 0) (prevWord s probe)
    rw [searchLoop]
    split
    · exact hctx
    split
    · next heq =>
      rw [heq] at hleft
      exact hleft
    · next heq =>
      rw [heq] at hleft
      split
      · next hlt =>
        have hpos := decodeRune_pos s probe
        exact ih _ (by omega) _ _ hleft rfl
      · exact hleft

theorem search_leftOver (e : RegexEngine) (self : Nat) (s : List UInt8)
    (captures : List Capture) (hctx : MatchContext.LeftOver ctx) (pos : Nat) :
    MatchContext.LeftOver (e.search self s captures ctx pos).2.2 := by
  rw [search]
  split
  · exact hctx
  · exact e.searchLoop_leftOver self s pos captures hctx

theorem replaceLoop_extends (e : RegexEngine) (self : Nat) (input rewrite : Bytes) (pos : Nat)
    (output : Bytes) (replacements : Nat) (captures : List Capture)
    (hctx : MatchContext.LeftOver ctx) :
    output <+: (e.replaceLoop self input rewrite pos output replacements captures ctx).1 ∧
      MatchContext.LeftOver
        (e.replaceLoop self input rewrite pos output replacements captures ctx).2.2 := by
  induction hrest : input.length + 1 - pos using Nat.strong_induction_on
    generalizing pos output replacements captures ctx with
  | _ rest ih =>
    have hleft := e.search_leftOver self input captures hctx pos
    rw [replaceLoop]
    split
    · exact ⟨List.prefix_rfl, hctx⟩
    split
    · next heq =>
      rw [heq] at hleft
      exact ⟨List.prefix_append _ _, hleft⟩
    · next p len captures' ctx' heq =>
      rw [heq] at hleft
      have hle := search_le heq
      have hpos := decodeRune_pos input p
      have hwritten : output <+: output ++ (input.drop pos).take (p - pos) ++
          appendRewrite input p len captures' rewrite := by
        rw [List.append_assoc]
        exact List.prefix_append _ _
      dsimp only
      split
      · split
        · exact ⟨hwritten, hleft⟩
        · obtain ⟨hextends, hleft'⟩ :=
            ih _ (by omega) (p + (decodeRune input p).2) _ _ _ hleft rfl
          exact ⟨(hwritten.trans (List.prefix_append _ _)).trans hextends, hleft'⟩
      · obtain ⟨hextends, hleft'⟩ := ih _ (by omega) (p + len) _ _ _ hleft rfl
        exact ⟨hwritten.trans hextends, hleft'⟩

theorem replaceLoop_first (e : RegexEngine) (self : Nat) (input rewrite : Bytes)
    (hctx : MatchContext.LeftOver ctx) :
    (e.replaceLoop self input rewrite 0 [] 0 [] ctx).1 = input ∨
      ∃ front p len captures, front ++ appendRewrite input p len captures rewrite <+:
        (e.replaceLoop self input rewrite 0 [] 0 [] ctx).1 := by
  have hleft := e.search_leftOver self input [] hctx 0
  rw [replaceLoop, if_neg (Nat.not_lt_zero _)]
  split
  · exact .inl rfl
  · next p len captures' ctx' heq =>
    rw [heq] at hleft
    refine .inr ⟨(input.drop 0).take (p - 0), p, len, captures', ?_⟩
    dsimp only
    rw [List.nil_append]
    split
    · split
      · exact List.prefix_rfl
      · exact (List.prefix_append _ _).trans (replaceLoop_extends _ _ _ _ _ _ _ _ hleft).1
    · exact (replaceLoop_extends _ _ _ _ _ _ _ _ hleft).1

end RegexEngine

theorem globalReplace_leftOver (findCategory : Bytes → Option RuneClass) (self : Nat)
    (hctx : MatchContext.LeftOver ctx) (text : Option Bytes) (pattern rewrite : Bytes) :
    MatchContext.LeftOver (globalReplace findCategory self ctx text pattern rewrite).2.2 := by
  cases text with
  | none => exact hctx
  | some input =>
    rw [globalReplace]
    dsimp only
    split
    · exact hctx
    · exact (RegexEngine.replaceLoop_extends _ _ _ _ _ _ _ _ hctx).2

/-- Where every rewrite has one of some bytes, the result has one of them if the text has. -/
theorem globalReplace_has {P : UInt8 → Prop} (findCategory : Bytes → Option RuneClass) (self : Nat)
    (hctx : MatchContext.LeftOver ctx) (pattern : Bytes) (htext : ∃ b ∈ text, P b)
    (hrewrite : ∀ p len captures, ∃ b ∈ appendRewrite text p len captures rewrite, P b) :
    ∃ result, (globalReplace findCategory self ctx (some text) pattern rewrite).1 = some result ∧
      ∃ b ∈ result, P b := by
  rw [globalReplace]
  dsimp only
  split
  · exact ⟨text, rfl, htext⟩
  · refine ⟨_, rfl, ?_⟩
    rcases RegexEngine.replaceLoop_first (.ofPattern findCategory pattern) self text rewrite hctx with
      heq | ⟨front, p, len, captures, hextends⟩
    · rw [heq]
      exact htext
    · obtain ⟨b, hb, hP⟩ := hrewrite p len captures
      exact ⟨b, hextends.subset (List.mem_append_right _ hb), hP⟩

theorem globalReplace_unmatched {findCategory : Bytes → Option RuneClass} {t : PatternTree}
    (hparse : PatternTree.parse findCategory pattern = some t) (ht : t.tree.WellFormed t.classes)
    (hok : t.engine.ok = true) (hdemands : t.tree.demands r = true)
    (hctx : MatchContext.LeftOver ctx) (self : Nat) (rewrite : Bytes)
    (htext : ∀ p, r ∉ runes (text.drop p)) :
    (globalReplace findCategory self ctx (some text) pattern rewrite).1 = some text := by
  have hnone : (t.engine.search self text [] ctx 0).1 = none := by
    rw [RegexEngine.search, hok]
    cases hfound : (t.engine.searchLoop self text 0 [] ctx).1 with
    | none => exact hfound
    | some found =>
      obtain ⟨p, len⟩ := found
      obtain ⟨-, hle, ctx', hvalid, hlen, -⟩ := RegexEngine.searchLoop_found hfound
      have ht' : Pattern.WellFormed t.classes (some t.tree) := ht
      obtain ⟨k, spans, hk, -, hrecords, -⟩ :=
        probe_capturesOf ht' hok (hvalid hctx.valid) self hle hlen
      have hmatch := (Pattern.matches_iff_records (some t.tree) _ _ _ _ _).2 ⟨spans, hrecords⟩
      have hmem : r ∈ (Input.after t.classes text p).slice (before p) (before p + k) :=
        Regexp.Matches.demands hmatch hdemands
      obtain ⟨i, hi⟩ := List.mem_iff_getElem?.1 (List.mem_of_mem_take hmem)
      rw [List.getElem?_drop, (Input.shows_after t.classes hle).runes] at hi
      exact absurd (List.mem_of_getElem? hi) (htext p)
  rw [globalReplace, RegexEngine.ofPattern_eq hparse, hok]
  simp only [Bool.not_true, Bool.false_eq_true, if_false]
  rw [RegexEngine.replaceLoop, if_neg (Nat.not_lt_zero _)]
  split
  · rfl
  · next heq =>
    rw [heq] at hnone
    cases hnone

end Trieste.Regex
