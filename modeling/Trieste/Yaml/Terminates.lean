import Trieste.Parse.Done
import Trieste.Yaml.Checks

namespace Trieste.Yaml
set_option autoImplicit true
open Library Regex Make

def closable : List Token := [.group, .yamlDocument, .yamlFlowMapping, .yamlFlowSequence]

/-- The types of the open nodes inside a stream, with the stream and its group. -/
def InStream (ts : List Token) : Prop :=
  ∃ above, ts = above ++ [.yamlStream, .group] ∧ ∀ t ∈ above, t ∈ closable

namespace InStream

theorem cons (h : InStream ts) (ht : type ∈ closable) : InStream (type :: ts) := by
  obtain ⟨above, rfl, habove⟩ := h
  exact ⟨type :: above, rfl, List.forall_mem_cons.2 ⟨ht, habove⟩⟩

/-- A node that is closed leaves the stream open. -/
theorem tail (h : InStream (type :: ts)) (ht : type ∈ closable) : InStream ts := by
  obtain ⟨above, heq, habove⟩ := h
  cases above with
  | nil =>
    obtain rfl := (List.cons.inj heq).1
    exact absurd ht (by decide)
  | cons t above =>
    obtain ⟨rfl, rfl⟩ := List.cons.inj heq
    exact ⟨above, rfl, fun t ht => habove t (List.mem_cons_of_mem _ ht)⟩

theorem ne_nil (h : InStream ts) : ts ≠ [] := by
  obtain ⟨above, rfl, -⟩ := h
  simp

theorem dropGroup (h : InStream ts) : InStream (dropGroup ts) := by
  unfold Make.dropGroup
  split
  · next hgroup =>
    rcases ts with _ | ⟨t, ts⟩
    · exact absurd rfl h.ne_nil
    obtain rfl : t = .group := hgroup
    exact h.tail (by decide)
  · exact h

theorem group (h : InStream ts) : InStream (.group :: Make.dropGroup ts) := h.dropGroup.cons (by decide)

theorem afterAdd (h : InStream ts) (type : Token) : InStream (afterAdd type ts) := by
  unfold Make.afterAdd
  split
  · exact h
  · exact h.group

end InStream

/-- A group on top of known nodes, where the nodes below them have one of their own. -/
def withGroup : List Token → List Token
  | [] => []
  | known => .group :: dropGroup known

/-- The known nodes on top of a stream after an action, unless it may close the stream. -/
def Action.shape (known : List Token) : Action → Option (List Token)
  | .add type _ => if type = .group then none else some (withGroup known)
  | .push type _ =>
    if type = .group then none
    else if known = [] ∧ type ∈ closable then some []
    else some (type :: withGroup known)
  | .extend type _ => if type = .group ∨ known ≠ [] then none else some []
  | .pop type =>
    match known with
    | [] => if type ∈ closable then some [] else none
    | t :: known => if t = type then some known else none
  | .term => some (dropGroup known)
  | .error _ _ => some (withGroup known)
  | .mode next => if next = .start then none else some known
  | _ => some known

def Effect.shape (known : List Token) : Effect → Option (List Token)
  | .skip => some known
  | .act a => a.shape known
  | .seq e e' => (e.shape known).bind fun known => e'.shape known
  | .branch _ yes no => if yes.shape known = no.shape known then yes.shape known else none

theorem rules_shape (mode : Mode) (hmode : mode ≠ .start) :
    ∀ rule ∈ rules mode, rule.effect.shape [] = some [] := by
  cases mode with
  | start => exact absurd rfl hmode
  | directives => decide +kernel
  | document => decide +kernel
  | flow => decide +kernel
  | block => decide +kernel

def Streams (known : List Token) (m : Make) : Prop := ∃ ns ts, Built m ns (known ++ ts) ∧ InStream ts

theorem exists_dropGroup (known : List Token) (h : InStream ts) :
    ∃ ts', dropGroup (known ++ ts) = dropGroup known ++ ts' ∧ InStream ts' := by
  cases known with
  | nil => exact ⟨dropGroup ts, rfl, h.dropGroup⟩
  | cons t known =>
    refine ⟨ts, ?_, h⟩
    by_cases hgroup : t = .group
    · exact (if_pos hgroup).trans (congrArg (· ++ ts) (if_pos hgroup).symm)
    · exact (if_neg hgroup).trans (congrArg (· ++ ts) (if_neg hgroup).symm)

theorem exists_withGroup (known : List Token) (h : InStream ts) :
    ∃ ts', .group :: dropGroup (known ++ ts) = withGroup known ++ ts' ∧ InStream ts' := by
  cases known with
  | nil => exact ⟨.group :: dropGroup ts, rfl, h.group⟩
  | cons t known =>
    obtain ⟨ts', heq, h'⟩ := exists_dropGroup (t :: known) h
    exact ⟨ts', congrArg (Token.group :: ·) heq, h'⟩

theorem Streams.of_opens (known : List Token) {r : Except Fault Make} (h : Opens r (known ++ ts)) (hts : InStream ts) :
    ∃ m, r = .ok m ∧ Streams known m := by
  obtain ⟨m, ns, hr, hbuilt⟩ := h
  exact ⟨m, hr, ns, ts, hbuilt, hts⟩

theorem Action.op_shape {a : Action} {op : MakeOp} (h : Streams known m) (hshape : a.shape known = some known')
    (hop : a.op reMatch = some op) : ∃ m', op.perform reMatch m = .ok m' ∧ Streams known' m' := by
  obtain ⟨ns, ts, hbuilt, hts⟩ := h
  cases a with
  | add type index =>
    cases hop
    rw [shape] at hshape
    split at hshape
    · cases hshape
    next hgroup =>
    cases hshape
    obtain ⟨m', ns', hadd, hbuilt', -⟩ := hbuilt.add reMatch type index
    obtain ⟨ts', heq, hts'⟩ := exists_withGroup known hts
    rw [afterAdd, if_neg hgroup, heq] at hbuilt'
    exact ⟨m', hadd, ns', ts', hbuilt', hts'⟩
  | push type index =>
    cases hop
    have hopens := hbuilt.push reMatch type index
    rw [shape] at hshape
    split at hshape
    · cases hshape
    next hgroup =>
    rw [afterAdd, if_neg hgroup] at hopens
    split at hshape
    · next hclosable =>
      cases hshape
      obtain ⟨rfl, hclosable⟩ := hclosable
      exact Streams.of_opens [] hopens (hts.group.cons hclosable)
    · cases hshape
      obtain ⟨ts', heq, hts'⟩ := exists_withGroup known hts
      rw [heq] at hopens
      exact Streams.of_opens (type :: withGroup known) hopens hts'
  | extend type index =>
    cases hop
    rw [shape] at hshape
    split at hshape
    · cases hshape
    next hcond =>
    cases hshape
    obtain ⟨hgroup, hknown⟩ := not_or.1 hcond
    obtain rfl := not_not.1 hknown
    rcases hbuilt.extend reMatch type index with hopens | hopens
    · exact Streams.of_opens [] hopens hts
    · exact Streams.of_opens [] hopens (hts.afterAdd type)
  | pop type =>
    cases hop
    cases known with
    | nil =>
      rw [shape] at hshape
      split at hshape
      · next hclosable =>
        cases hshape
        by_cases htype : ts.headD .file = type
        · rcases ts with _ | ⟨t, ts⟩
          · exact absurd rfl hts.ne_nil
          rcases ns with _ | ⟨n, ns⟩
          · cases hbuilt.nil_iff.1 rfl
          obtain rfl : t = type := htype
          exact Streams.of_opens [] (hbuilt.popType_head reMatch) (hts.tail hclosable)
        · rw [MakeOp.perform, hbuilt.popType_other reMatch htype]
          rcases hbuilt.invalid reMatch with hopens | hopens
          · exact Streams.of_opens [] hopens hts
          · exact Streams.of_opens [] hopens hts.group
      · cases hshape
    | cons t known =>
      rw [shape] at hshape
      split at hshape
      · next htype =>
        cases hshape
        subst htype
        rcases ns with _ | ⟨n, ns⟩
        · cases hbuilt.nil_iff.1 rfl
        exact Streams.of_opens _ (hbuilt.popType_head reMatch) hts
      · cases hshape
  | term =>
    cases hop
    cases hshape
    obtain ⟨m', ns', hterm, hbuilt'⟩ := hbuilt.term
    obtain ⟨ts', heq, hts'⟩ := exists_dropGroup known hts
    rw [heq] at hbuilt'
    exact ⟨m', hterm, ns', ts', hbuilt', hts'⟩
  | error msg index =>
    cases hop
    cases hshape
    have hopens := hbuilt.error reMatch msg (reMatch index)
    obtain ⟨ts', heq, hts'⟩ := exists_withGroup known hts
    rw [heq] at hopens
    exact Streams.of_opens (withGroup known) hopens hts'
  | mode | insertAnchor | setFlowLevel | addFlowLevel | subFlowLevel | setBlockIndent => cases hop

/-- An action leaves the match and the position as they are, and does not go back to the start. -/
structure Kept (s s' : Lexer) : Prop where
  reMatch : s'.reMatch = s.reMatch
  pos : s'.pos = s.pos
  mode : s.mode ≠ .start → s'.mode ≠ .start

theorem Kept.refl (s : Lexer) : Kept s s := ⟨rfl, rfl, id⟩

theorem Kept.trans (h : Kept s s') (h' : Kept s' s'') : Kept s s'' :=
  ⟨h'.reMatch.trans h.reMatch, h'.pos.trans h.pos, fun hmode => h'.mode (h.mode hmode)⟩

theorem Action.update_kept {a : Action} (text : Bytes) (s : Lexer) (hop : a.op s.loc = none)
    (hshape : a.shape known = some known') :
    known' = known ∧ (a.update text s).make = s.make ∧ Kept s (a.update text s) := by
  cases a with
  | add | push | extend | pop | term | error => cases hop
  | mode next =>
    rw [shape] at hshape
    split at hshape
    · cases hshape
    · next hne =>
      cases hshape
      exact ⟨rfl, rfl, rfl, rfl, fun _ => hne⟩
  | insertAnchor | setFlowLevel | addFlowLevel | setBlockIndent =>
    cases hshape
    exact ⟨rfl, rfl, rfl, rfl, id⟩
  | subFlowLevel =>
    cases hshape
    refine ⟨rfl, rfl, rfl, rfl, fun hmode => ?_⟩
    unfold update
    dsimp only
    split
    · exact Mode.noConfusion
    · exact hmode

theorem Action.perform_shape {a : Action} (text : Bytes) (h : Streams known s.make)
    (hshape : a.shape known = some known') :
    ∃ s', a.perform text s = .ok s' ∧ Streams known' s'.make ∧ Kept s s' := by
  unfold perform
  cases hop : a.op s.loc with
  | none =>
    obtain ⟨rfl, hmake, hkept⟩ := update_kept text s hop hshape
    exact ⟨a.update text s, rfl, hmake ▸ h, hkept⟩
  | some op =>
    obtain ⟨m', hperform, h'⟩ := op_shape h hshape hop
    refine ⟨{ s with make := m' }, ?_, h', rfl, rfl, id⟩
    dsimp only
    rw [hperform]
    rfl

theorem Effect.perform_shape {e : Effect} (text : Bytes) (h : Streams known s.make)
    (hshape : e.shape known = some known') :
    ∃ s', e.perform text s = .ok s' ∧ Streams known' s'.make ∧ Kept s s' := by
  induction e generalizing s known known' with
  | skip =>
    cases hshape
    exact ⟨s, rfl, h, .refl s⟩
  | act a => exact a.perform_shape text h hshape
  | seq e e' ihe ihe' =>
    obtain ⟨mid, hmid, hshape'⟩ := Option.bind_eq_some_iff.1 hshape
    obtain ⟨s₁, hrun₁, h₁, hkept₁⟩ := ihe h hmid
    obtain ⟨s₂, hrun₂, h₂, hkept₂⟩ := ihe' h₁ hshape'
    refine ⟨s₂, ?_, h₂, hkept₁.trans hkept₂⟩
    rw [perform, hrun₁]
    exact hrun₂
  | branch c yes no ihy ihn =>
    rw [shape] at hshape
    split at hshape
    · next heq =>
      rw [perform]
      split
      · exact ihy h hshape
      · exact ihn h (heq ▸ hshape)
    · cases hshape

/-- The mode that an effect leaves the lexer in, where it is always the same. -/
def Effect.after (mode : Mode) : Effect → Option Mode
  | .act (.mode next) => some next
  | .act .subFlowLevel => none
  | .skip | .act _ => some mode
  | .seq e e' => (e.after mode).bind fun mode => e'.after mode
  | .branch _ yes no => if yes.after mode = no.after mode then yes.after mode else none

/-- An action asks for an operation, or changes the rest of the lexer. -/
theorem Action.perform_cases {a : Action} (h : a.perform text s = .ok s') :
    (a.op s.loc = none ∧ s' = a.update text s) ∨
      ∃ op m, a.op s.loc = some op ∧ op.perform s.loc s.make = .ok m ∧ s' = { s with make := m } := by
  unfold perform at h
  cases hop : a.op s.loc with
  | none =>
    rw [hop] at h
    cases h
    exact .inl ⟨rfl, rfl⟩
  | some op =>
    rw [hop] at h
    dsimp only at h
    cases hr : op.perform s.loc s.make with
    | error fault =>
      rw [hr] at h
      cases h
    | ok m =>
      rw [hr] at h
      cases h
      exact .inr ⟨op, m, rfl, hr, rfl⟩

theorem Action.perform_mode {a : Action} (h : a.perform text s = .ok s') :
    s'.mode = (a.update text s).mode := by
  rcases perform_cases h with ⟨-, rfl⟩ | ⟨op, m, hop, -, rfl⟩
  · rfl
  · cases a with
    | add | push | extend | pop | term | error => rfl
    | mode | insertAnchor | setFlowLevel | addFlowLevel | subFlowLevel | setBlockIndent => cases hop

theorem Effect.perform_after {e : Effect} (h : e.perform text s = .ok s')
    (hafter : e.after s.mode = some next) : s'.mode = next := by
  induction e generalizing s s' next with
  | skip =>
    cases h
    exact Option.some.inj hafter
  | act a =>
    have hmode := Action.perform_mode h
    cases a with
    | subFlowLevel => cases hafter
    | mode | insertAnchor | setFlowLevel | addFlowLevel | setBlockIndent | add | push | extend
    | pop | term | error => exact hmode.trans (Option.some.inj hafter)
  | seq e e' ihe ihe' =>
    obtain ⟨mid, hmid, hafter⟩ := Option.bind_eq_some_iff.1 hafter
    rw [perform] at h
    cases hrun : e.perform text s with
    | error fault =>
      rw [hrun] at h
      cases h
    | ok s₁ =>
      rw [hrun] at h
      exact ihe' h (ihe hrun hmid ▸ hafter)
  | branch c yes no ihy ihn =>
    rw [after] at hafter
    rw [perform] at h
    split at hafter
    · next heq =>
      split at h
      · exact ihy h hafter
      · exact ihn h (heq ▸ hafter)
    · cases hafter

/-- Of the rules for a stream, only the last one for directives can match without taking any text,
and it goes on to a document. -/
theorem rules_anchor (mode : Mode) (hmode : mode ≠ .start) : ∀ rule ∈ rules mode,
    rule.pattern = "^" → mode = .directives ∧ rule.effect.after mode = some .document := by
  cases mode with
  | start => exact absurd rfl hmode
  | directives => decide +kernel
  | document => decide +kernel
  | flow => decide +kernel
  | block => decide +kernel

/-- A lexer that has opened a stream. -/
structure Open (s : Lexer) : Prop where
  valid : s.reMatch.ctx.visited.Valid
  mode : s.mode ≠ .start
  streams : Streams [] s.make

def Mode.rank : Mode → Nat
  | .directives => 1
  | _ => 0

/-- What is left of the text counts twice, so that a change of the mode alone counts less. -/
def measure (text : Bytes) (s : Lexer) : Nat := 2 * (text.length - s.pos) + s.mode.rank

theorem Mode.rank_le (mode : Mode) : mode.rank ≤ 1 := by
  cases mode with
  | directives => exact Nat.le_refl 1
  | start | document | flow | block => exact Nat.zero_le 1

section Rounds
variable {text : Bytes} {s s' : Lexer}

theorem measure_lt (hpos : s.pos < text.length) (h : s.pos < s'.pos) :
    measure text s' < measure text s := by
  have hrank := s'.mode.rank_le
  unfold measure
  omega

theorem consumeFirstMatch_none (text : Bytes) (source : SourceDef) (s : Lexer) (h : (s.consumeFirstMatch text source).1 = none) :
    (s.consumeFirstMatch text source).2 =
      { s with reMatch := (s.consumeFirstMatch text source).2.reMatch } := by
  unfold Lexer.consumeFirstMatch at h ⊢
  split
  · rfl
  · next heq =>
    rw [heq] at h
    cases h

/-- A round inside a stream stays inside it, and takes text or leaves the directives. -/
theorem round_open (source : SourceDef) (h : Open s) (hpos : s.pos < text.length) :
    ∃ s', s.round text source = .ok s' ∧ Open s' ∧ measure text s' < measure text s := by
  obtain ⟨hvalid, hfired⟩ := consumeFirstMatch_fired text source h.valid hpos
  have hnone := consumeFirstMatch_none text source s
  unfold Lexer.round
  generalize s.consumeFirstMatch text source = result at hvalid hfired hnone
  obtain ⟨found, s₁⟩ := result
  cases found with
  | none =>
    have hs₁ : s₁ = { s with reMatch := s₁.reMatch } := hnone rfl
    obtain ⟨ns, ts, hbuilt, hts⟩ := h.streams
    have hmake : s₁.make = s.make := by rw [hs₁]
    have hpos₁ : s₁.pos = s.pos := by rw [hs₁]
    have hmode₁ : s₁.mode = s.mode := by rw [hs₁]
    obtain ⟨m, hinvalid, hstreams⟩ : ∃ m, s₁.make.invalid s₁.loc = .ok m ∧ Streams [] m := by
      rw [hmake]
      rcases hbuilt.invalid s₁.loc with hopens | hopens
      · exact Streams.of_opens [] hopens hts
      · exact Streams.of_opens [] hopens hts.group
    refine ⟨{ s₁ with make := m, pos := min text.length (s₁.pos + 1) }, ?_,
      ⟨hvalid, hmode₁ ▸ h.mode, hstreams⟩, ?_⟩
    · dsimp only
      rw [hinvalid]
      rfl
    · have hlt : s.pos < min text.length (s₁.pos + 1) := by omega
      exact measure_lt hpos hlt
  | some index =>
    obtain ⟨rule, t, k, spans, hrule, hfire⟩ := hfired index rfl
    have hmem := List.mem_of_getElem? hrule
    have hstreams : Streams [] s₁.make := hfire.make ▸ h.streams
    obtain ⟨s', hrun, hstreams', hkept⟩ :=
      Effect.perform_shape text hstreams (rules_shape s.mode h.mode rule hmem)
    have hmode' := hkept.mode (hfire.mode ▸ h.mode)
    refine ⟨s', ?_, ⟨hkept.reMatch ▸ hvalid, hmode', hstreams'⟩, ?_⟩
    · dsimp only
      rw [hrule]
      exact hrun
    · obtain ⟨t', ht', -, hconsumes, -⟩ := rule_tree hrule
      obtain rfl := Option.some.inj (hfire.tree.symm.trans ht')
      rcases hconsumes with hconsumes | hanchor
      · have hlt := hfire.pos_lt hpos hconsumes
        exact measure_lt hpos (hkept.pos.symm ▸ hlt)
      · obtain ⟨hdirectives, hafter⟩ := rules_anchor s.mode h.mode rule hmem hanchor
        have hnext : s'.mode = .document := Effect.perform_after hrun (hfire.mode.symm ▸ hafter)
        have hle : s.pos ≤ s'.pos := by
          rw [hkept.pos, hfire.pos]
          exact Nat.le_add_right _ _
        unfold measure
        rw [hnext, hdirectives]
        simp only [Mode.rank]
        omega

end Rounds

section Start
variable (text : Bytes) (source : SourceDef) (shared : Shared)

def startRule : Rule := ⟨"^", .block [.push .yamlStream, .mode .directives]⟩

theorem startRule_tree : ∃ t, startRule.tree = some t ∧ t.tree = .startAnchor ∧ t.groups = 0 := by
  have hinfo : startRule.tree.map (fun t => (t.tree, t.groups)) = some (.startAnchor, 0) := by
    decide +kernel
  obtain ⟨t, ht, heq⟩ := Option.map_eq_some_iff.1 hinfo
  obtain ⟨htree, hgroups⟩ := Prod.mk.inj heq
  exact ⟨t, ht, htree, hgroups⟩

theorem initial_valid : (initial text source shared).reMatch.ctx.visited.Valid := .fresh 0

theorem initial_found (htext : text ≠ []) :
    ((initial text source shared).consumeFirstMatch text source).1 = some 0 := by
  obtain ⟨t, ht, htree, hgroups⟩ := startRule_tree
  have hengine : startRule.engine = t.engine := RegexEngine.ofPattern_eq ht
  have hok : t.engine.ok = true := by
    rw [← hengine]
    decide +kernel
  have hget : (regexes .start)[0]? =
      some { TRegex.init t.engine with address := 5 * 0 + Mode.start.number } := by
    rw [← hengine]
    rfl
  have hempty : (TRegex.init t.engine).firstCharInfo.canMatchEmpty = true := by
    rw [← hengine]
    decide +kernel
  have hwf : t.tree.WellFormed t.classes := by
    rw [htree]
    trivial
  have hmatches : t.tree.Matches (.ofText t.classes text true) 0 0 := by
    rw [htree]
    exact ⟨rfl, rfl⟩
  have hmatch : (({} : TRegexMatch).tryMatch
      { TRegex.init t.engine with address := 5 * 0 + Mode.start.number } text source 0).1 = true :=
    PatternTree.tryMatch_of_matches hwf hok hgroups rfl (.fresh 0) source 0 (Nat.zero_le _) hmatches
  have hsome := TRegexSet.matchFirst_isSome (regexes_compiled .start) (by decide)
    (initial_valid text source shared) htext source 0 hget hempty hmatch
  have hbound : ∀ index, ((initial text source shared).consumeFirstMatch text source).1 = some index →
      index = 0 := by
    intro index hindex
    have hpos : (initial text source shared).pos < text.length := List.length_pos_iff.2 htext
    obtain ⟨rule, t, k, spans, hrule, -⟩ :=
      (consumeFirstMatch_fired text source (initial_valid text source shared) hpos).2 index hindex
    exact Nat.lt_one_iff.1 (List.getElem?_eq_some_iff.1 hrule).1
  have hfst : ((initial text source shared).consumeFirstMatch text source).1 =
      ((ruleSet .start).matchFirst (initial text source shared).reMatch (text.drop 0) source 0).1 := by
    unfold Lexer.consumeFirstMatch
    split
    · next heq => exact (congrArg Prod.fst heq).symm
    · next heq => exact (congrArg Prod.fst heq).symm
  have hset : ruleSet .start = .init (regexes .start) := rfl
  rw [← hset] at hsome
  rw [List.drop_zero] at hfst
  obtain ⟨index, hindex⟩ := Option.isSome_iff_exists.1 (hfst ▸ hsome)
  rw [hindex, hbound index hindex]

theorem initial_round (htext : text ≠ []) :
    ∃ s', (initial text source shared).round text source = .ok s' ∧ Open s' := by
  have hpos : (initial text source shared).pos < text.length := List.length_pos_iff.2 htext
  have hfound := initial_found text source shared htext
  obtain ⟨hvalid, hfired⟩ := consumeFirstMatch_fired text source
    (initial_valid text source shared) hpos
  obtain ⟨rule, t, k, spans, hrule, hfire⟩ := hfired 0 hfound
  have hmode : (initial text source shared).mode = .start := rfl
  rw [hmode] at hrule
  obtain rfl : startRule = rule := Option.some.inj hrule
  have hbuilt : Built ((initial text source shared).consumeFirstMatch text source).2.make [] [] :=
    hfire.make ▸ built_create _
  obtain ⟨m, ns, hpush, hopens⟩ := hbuilt.push
    ((initial text source shared).consumeFirstMatch text source).2.loc .yamlStream 0
  refine ⟨{ ((initial text source shared).consumeFirstMatch text source).2 with
    make := m, mode := .directives }, ?_, hvalid, Mode.noConfusion, ns, _, hopens, [], rfl, ?_⟩
  · have hget : (rules .start)[0]? = some startRule := rfl
    unfold Lexer.round
    generalize (initial text source shared).consumeFirstMatch text source = result at hfound hpush
    obtain ⟨found, s₁⟩ := result
    cases hfound
    dsimp only
    rw [hmode, hget]
    have hop : MakeOp.perform s₁.loc s₁.make (.push .yamlStream 0) = .ok m := hpush
    simp only [startRule, Effect.block, List.foldr_cons, List.foldr_nil, Effect.push, Effect.mode,
      Effect.perform, Action.perform, Action.op, hop]
    rfl
  · exact fun t ht => absurd ht List.not_mem_nil

end Start

/-- Inside a stream, all nodes whose types come up in turn are closed, and no others. -/
theorem InStream.popAll (h : InStream ts) (htypes : ∀ type ∈ types, type ∈ closable) :
    ∃ ts', popAll types ts = some ts' ∧ InStream ts' ∧ ts'.length ≤ ts.length ∧
      (ts.headD .file ∈ types → ts'.length < ts.length) := by
  induction types generalizing ts with
  | nil => exact ⟨ts, rfl, h, Nat.le_refl _, fun hmem => absurd hmem List.not_mem_nil⟩
  | cons type types ih =>
    have hrest : ∀ type ∈ types, type ∈ closable := fun t ht => htypes t (List.mem_cons_of_mem _ ht)
    by_cases hhead : ts.headD .file = type
    · rcases ts with _ | ⟨t, ts⟩
      · exact absurd rfl h.ne_nil
      obtain rfl : t = type := hhead
      obtain ⟨ts', hpop, h', hle, -⟩ := ih (h.tail (htypes t List.mem_cons_self)) hrest
      have hlt : ts'.length < (t :: ts).length := Nat.lt_succ_of_le hle
      refine ⟨ts', ?_, h', hlt.le, fun _ => hlt⟩
      rw [Make.popAll, if_pos (by rfl)]
      exact hpop
    · obtain ⟨ts', hpop, h', hle, hlt⟩ := ih h hrest
      refine ⟨ts', ?_, h', hle, fun hmem => hlt ((List.mem_cons.1 hmem).resolve_left hhead)⟩
      rw [Make.popAll, if_neg hhead]
      exact hpop

theorem InStream.head (h : InStream ts) : ts = [.yamlStream, .group] ∨
    (ts.headD .file ∈ closable ∧ ts.headD .file ≠ .yamlStream) := by
  obtain ⟨above, rfl, habove⟩ := h
  cases above with
  | nil => exact .inl rfl
  | cons t above =>
    have ht : t ∈ closable := habove t List.mem_cons_self
    refine .inr ⟨ht, fun heq => ?_⟩
    have hstream : Token.yamlStream ∈ closable := heq ▸ ht
    exact absurd hstream (by decide)

theorem closeStep_term (h : Built m ns ts) (hhead : ts.headD .file ≠ .yamlStream)
    (hpop : popAll [.group, .yamlDocument, .yamlFlowMapping, .yamlFlowSequence] ts = some ts') :
    ∃ m' ns', closeStep m = .ok (some m') ∧ Built m' ns' ts' := by
  obtain ⟨m', ns', hterm, h'⟩ := h.tryPopAll hpop
  refine ⟨m', ns', ?_, h'⟩
  have hrun : m.term [.yamlDocument, .yamlFlowMapping, .yamlFlowSequence] = .ok m' := hterm
  rw [closeStep, h.isIn, beq_eq_false_iff_ne.2 hhead]
  simp only [bind, Except.bind, Bool.false_eq_true, if_false, hrun]
  rfl

theorem closeStep_yields (h : Streams [] m) :
    ∃ m' ns, Yields (fun n => loop closeStep n m) (.ok m') ∧ Built m' ns [.yamlStream, .group] := by
  have hall : ∀ type ∈ closable, type ∈ closable := fun _ ht => ht
  have hstep : ∀ m, Streams [] m → closeStep m = .ok none ∨ ∃ m', closeStep m = .ok (some m') ∧
      Streams [] m' ∧ m'.openTypes.length < m.openTypes.length := by
    intro m hm
    obtain ⟨ns, ts, hbuilt, hts⟩ := hm
    rcases hts.head with rfl | ⟨hclosable, hne⟩
    · left
      rw [closeStep, hbuilt.isIn]
      rfl
    · right
      obtain ⟨ts', hpop, hts', -, hlt⟩ := hts.popAll hall
      obtain ⟨m', ns', hclose, hbuilt'⟩ := closeStep_term hbuilt hne hpop
      refine ⟨m', hclose, ⟨ns', ts', hbuilt', hts'⟩, ?_⟩
      rw [hbuilt'.openTypes, hbuilt.openTypes]
      exact hlt hclosable
  obtain ⟨m', hyields, hm', hstop⟩ := yields_loop (fun m => m.openTypes.length) hstep h
  obtain ⟨ns, ts, hbuilt, hts⟩ := hm'
  rcases hts.head with rfl | ⟨-, hne⟩
  · exact ⟨m', ns, hyields, hbuilt⟩
  · obtain ⟨ts', hpop, -⟩ := hts.popAll hall
    obtain ⟨m'', -, hclose, -⟩ := closeStep_term hbuilt hne hpop
    rw [hstop] at hclose
    cases hclose

theorem closeStep_diverges (h : Built m [] []) : ¬ Halting fun n => loop closeStep n m := by
  have hpop : popAll [.group, .yamlDocument, .yamlFlowMapping, .yamlFlowSequence] [] = some [] := rfl
  refine not_halting_loop (fun m => Built m [] []) (fun m hm => ?_) h
  obtain ⟨m', ns', hclose, hm'⟩ := closeStep_term hm (by decide) hpop
  obtain rfl := hm'.nil_iff.2 rfl
  exact ⟨m', hclose, hm'⟩

section Parse
variable (text : Bytes) (source : SourceDef) (maxErrors : Nat) (shared : Shared)

theorem step_open {s : Lexer} (h : Open s) : s.step text source maxErrors = .ok none ∨
    ∃ s', s.step text source maxErrors = .ok (some s') ∧ Open s' ∧
      measure text s' < measure text s := by
  unfold Lexer.step
  split
  · next hcond =>
    obtain ⟨s', hround, hopen, hlt⟩ := round_open source h hcond.1
    refine .inr ⟨s', ?_, hopen, hlt⟩
    rw [hround]
    rfl
  · exact .inl rfl

theorem lexer_yields : ∃ s,
    Yields (fun n => loop (Lexer.step text source maxErrors) n (initial text source shared)) (.ok s) ∧
      (text ≠ [] ∧ maxErrors ≠ 0 → Open s) ∧
      (¬ (text ≠ [] ∧ maxErrors ≠ 0) → s = initial text source shared) := by
  have hcond : ((initial text source shared).pos < text.length ∧
      (initial text source shared).make.errorCount < maxErrors) ↔ text ≠ [] ∧ maxErrors ≠ 0 :=
    and_congr List.length_pos_iff Nat.pos_iff_ne_zero
  by_cases h : text ≠ [] ∧ maxErrors ≠ 0
  · obtain ⟨s₁, hround, hopen⟩ := initial_round text source shared h.1
    obtain ⟨s, ⟨n, hn⟩, hs, -⟩ :=
      yields_loop (measure text) (fun s hs => step_open text source maxErrors hs) hopen
    refine ⟨s, ⟨n + 1, ?_⟩, fun _ => hs, fun hno => absurd h hno⟩
    simp only [loop, Lexer.step, if_pos (hcond.2 h), hround]
    exact hn
  · refine ⟨_, ⟨1, ?_⟩, fun h' => absurd h' h, fun _ => rfl⟩
    simp only [loop, Lexer.step, if_neg (mt hcond.1 h)]

def afterLexer (fuel : Nat) : Except Fault Lexer → Option (Except Fault (Make × Node × Shared))
  | .error fault => some (.error fault)
  | .ok s => (loop closeStep fuel s.make).bind fun closed => some (finish s.shared closed)

theorem afterLexer_monotonic (r : Except Fault Lexer) : Monotonic fun n => afterLexer n r := by
  cases r with
  | error fault => exact fun n n' _ => .refl _
  | ok s =>
    intro n n' hle
    exact Extends.bind (loop_monotonic closeStep s.make n n' hle) fun closed => .refl _

theorem yields_parse {s : Lexer} (h : Yields
    (fun n => loop (Lexer.step text source maxErrors) n (initial text source shared)) (.ok s))
    (result : Except Fault (Make × Node × Shared)) :
    Yields (parse text source maxErrors shared) result ↔
      Yields (fun n => afterLexer n (.ok s)) result := by
  have hparse : parse text source maxErrors shared = fun n =>
      (loop (Lexer.step text source maxErrors) n (initial text source shared)).bind (afterLexer n) := by
    funext n
    unfold parse
    congr 1
  have hmono := loop_monotonic (Lexer.step text source maxErrors) (initial text source shared)
  rw [hparse, yields_bind hmono afterLexer_monotonic]
  constructor
  · intro hex
    obtain ⟨r, hr, hresult⟩ := hex
    obtain rfl := h.unique hmono hr
    exact hresult
  · intro hresult
    exact ⟨.ok s, h, hresult⟩

theorem parse_diverges (h : ¬ (text ≠ [] ∧ maxErrors ≠ 0)) :
    ¬ Halting (parse text source maxErrors shared) := by
  obtain ⟨s, hs, -, hinitial⟩ := lexer_yields text source maxErrors shared
  intro hhalt
  obtain ⟨result, hresult⟩ := hhalt
  rw [yields_parse text source maxErrors shared hs, hinitial h] at hresult
  obtain ⟨n, hn⟩ := hresult
  obtain ⟨closed, hclosed, -⟩ := Option.bind_eq_some_iff.1 hn
  exact closeStep_diverges (built_create _) ⟨closed, n, hclosed⟩

/-- The YAML parser terminates, and then returns the root, if and only if a stream is opened. -/
theorem parse_halting_iff :
    (Halting (parse text source maxErrors shared) ↔ text ≠ [] ∧ maxErrors ≠ 0) ∧
      (text ≠ [] ∧ maxErrors ≠ 0 → ∃ m shared',
        Yields (parse text source maxErrors shared) (.ok (m, 0, shared'))) ∧
      ∃ s, Yields (fun n => loop (Lexer.step text source maxErrors) n (initial text source shared))
        (.ok s) := by
  obtain ⟨s, hs, hopen, -⟩ := lexer_yields text source maxErrors shared
  have hreturn : text ≠ [] ∧ maxErrors ≠ 0 → ∃ m shared',
      Yields (parse text source maxErrors shared) (.ok (m, 0, shared')) := by
    intro hcond
    obtain ⟨m₁, ns₁, ⟨n, hclose⟩, hbuilt₁⟩ := closeStep_yields (hopen hcond).streams
    have hpop : popAll [.group, .yamlStream] [.yamlStream, .group] = some [.group] := rfl
    obtain ⟨m₂, ns₂, hterm, hbuilt₂⟩ := hbuilt₁.tryPopAll hpop
    obtain ⟨m₃, hdone, -⟩ := hbuilt₂.done (by decide)
    refine ⟨m₃, { s.shared with anchors := [] }, ?_⟩
    rw [yields_parse text source maxErrors shared hs]
    refine ⟨n, ?_⟩
    have hstream : m₁.term [.yamlStream] = .ok m₂ := hterm
    simp only [afterLexer, hclose, Option.bind_some, finish, bind, Except.bind, hstream, hdone]
    rfl
  refine ⟨⟨fun hhalt => ?_, fun hcond => ?_⟩, hreturn, s, hs⟩
  · by_contra hno
    exact parse_diverges text source maxErrors shared hno hhalt
  · obtain ⟨m, shared', hyields⟩ := hreturn hcond
    exact ⟨_, hyields⟩

/-- The empty text is not parsed to an end. -/
theorem parse_empty : ¬ ∀ text source maxErrors shared,
    Halting (parse text source maxErrors shared) := by
  intro h
  refine parse_diverges [] { address := 1, contents := "" } 100 {} ?_
    (h [] { address := 1, contents := "" } 100 {})
  exact fun hcond => hcond.1 rfl

end Parse

end Trieste.Yaml
