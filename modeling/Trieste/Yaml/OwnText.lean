import Trieste.Library.ShortCircuit
import Trieste.Parse.Locations
import Trieste.Yaml.Terminates

namespace Trieste.Yaml
set_option autoImplicit true
open Library Regex Relation Make

/-- What the conditions say of the match. -/
def Guards (text : Bytes) (s : Lexer) (guards : List Cond) : Prop :=
  ∀ c ∈ guards, (∀ index, c = .matched index → 0 < (s.loc index).len) ∧
    ∀ index b, c = .endsWith index b → (Lexer.view text (s.loc index)).getLast? = some b

theorem Guards.cons (h : Guards text s guards) (hc : Cond.holds text s c = true) :
    Guards text s (c :: guards) := by
  refine List.forall_mem_cons.2 ⟨⟨fun index heq => ?_, fun index b heq => ?_⟩, h⟩
  · subst heq
    exact of_decide_eq_true hc
  · subst heq
    exact beq_iff_eq.1 hc

theorem guards_nil : Guards text s [] := fun _ hc => absurd hc List.not_mem_nil

/-- The location lies in a part of the source. -/
structure Inside (source : SourceDef) (start stop : Nat) (l : Location) : Prop where
  same : l.source = some source
  start_le : start ≤ l.pos
  le_stop : l.pos + l.len ≤ stop

theorem Inside.join (h : Inside source start stop l) (h' : Inside source start stop l') :
    Inside source start stop (l.join l') := by
  obtain ⟨hsame, hstart, hstop⟩ := h
  obtain ⟨hsame', hstart', hstop'⟩ := h'
  unfold Location.join
  rw [hsame, hsame']
  dsimp only
  rw [if_neg (not_not_intro rfl)]
  refine ⟨rfl, ?_, ?_⟩
  · exact Nat.le_min.2 ⟨hstart, hstart'⟩
  · dsimp only
    omega

section Trees
variable {t : PatternTree} {x : Input} {p : Regexp} {k : TextShape}

theorem fits_of_fitsTree (hx : x.classes = t.classes) (h : fitsTree t p k = true)
    (hm : p.Matches x i j) : k.Fits (x.slice i j) := by
  cases k with
  | only allowed =>
    rw [fitsTree, ← hx] at h
    exact hm.only h
  | startsIn allowed =>
    rw [fitsTree, ← hx] at h
    exact hm.startsIn h
  | words texts =>
    obtain ⟨ws, hws, hall⟩ := (Option.any_eq_true _ _).1 h
    exact List.contains_iff_mem.1 (List.all_eq_true.1 hall _ (hm.words hws))

/-- The empty text fits where no text is needed. -/
theorem fits_nil (h : k.needsText = false) : k.Fits [] := by
  cases k with
  | only allowed => exact fun r hr => absurd hr List.not_mem_nil
  | startsIn | words => cases h

theorem matches_alternatives (h : p.Matches x i j) : ∃ q ∈ alternatives p, q.Matches x i j := by
  induction p with
  | alt p q ihp ihq =>
    rcases h with h | h
    · obtain ⟨r, hr, hm⟩ := ihp h
      exact ⟨r, List.mem_append_left _ hr, hm⟩
    · obtain ⟨r, hr, hm⟩ := ihq h
      exact ⟨r, List.mem_append_right _ hr, hm⟩
  | literal | classRef | startAnchor | endAnchor | wordBoundary | cat | zeroOrOne | zeroOrMore
  | oneOrMore | capture => exact ⟨_, List.mem_singleton_self _, h⟩

end Trees

section Groups
variable {text : Bytes} {source : SourceDef} {s s' : Lexer} {rule : Rule} {t : PatternTree}
  {index : Nat} {spans : List (Option Nat)}

theorem goodGroup_iff : goodGroup t index = true ↔
    index ≤ t.groups ∧ ∀ q ∈ t.tree.bodies (index - 1), q.bodies (index - 1) = [] := by
  rw [goodGroup, Bool.and_eq_true_iff, decide_eq_true_iff, List.all_eq_true]
  exact and_congr_right fun _ => forall₂_congr fun q _ => List.isEmpty_iff

/-- A group that exists is matched by its tree, or is empty and not part of every match. -/
theorem Fired.group (h : Fired text source s s' rule t k spans) (hgood : goodGroup t index = true) :
    ((s'.loc index).len = 0 ∧ index ≠ 0 ∧ t.tree.sets (index - 1) = false) ∨
      ∃ q ∈ t.body index, ∃ u v, q.Matches (.ofText t.classes (text.drop s.pos) true) u v ∧
        runes (Lexer.view text (s'.loc index)) =
          (Input.ofText t.classes (text.drop s.pos) true).slice u v := by
  obtain ⟨hindex, hflat⟩ := goodGroup_iff.1 hgood
  rcases h.prefixes.group hindex hflat with ⟨hgroup, hne, hsets⟩ | ⟨q, hq, u, v, hm, hv, hgroup⟩
  · rw [h.loc, hgroup]
    exact .inl ⟨rfl, hne, hsets⟩
  · refine .inr ⟨q, hq, u, v, hm, ?_⟩
    rw [h.loc, hgroup, Lexer.view, ← List.drop_drop]
    exact runes_slice hm.le (Nat.le_trans hv h.prefixes.le)

theorem Fired.zero (h : Fired text source s s' rule t k spans) :
    s'.loc 0 = { source := some source, pos := s.pos, len := s'.pos - s.pos } := by
  rw [h.loc, h.pos, PatternTree.group, if_pos (.inl rfl), Nat.add_sub_cancel_left]
  rfl

/-- A number that is not that of a group stands for the match. -/
theorem Fired.beyond (h : Fired text source s s' rule t k spans) (hindex : t.groups < index) :
    s'.loc index = s'.loc 0 := by
  rw [h.loc, h.loc, PatternTree.group, PatternTree.group, if_pos (.inr hindex), if_pos (.inl rfl)]

theorem Fired.inside (h : Fired text source s s' rule t k spans)
    (hgood : t.groups < index ∨ goodGroup t index = true) :
    Inside source s.pos s'.pos (s'.loc index) := by
  rcases hgood with hindex | hgood
  · have hle : s.pos ≤ s'.pos := by
      rw [h.pos]
      exact Nat.le_add_right _ _
    rw [h.beyond hindex, h.zero]
    refine ⟨rfl, Nat.le_refl _, ?_⟩
    dsimp only
    omega
  · obtain ⟨hindex, hflat⟩ := goodGroup_iff.1 hgood
    rw [h.loc, h.pos]
    refine ⟨rfl, Nat.le_add_right _ _, ?_⟩
    rcases h.prefixes.group hindex hflat with ⟨hgroup, -⟩ | ⟨q, hq, u, v, hm, hv, hgroup⟩
    · rw [hgroup]
      exact Nat.le_refl _
    · have huv := offset_mono (text.drop s.pos) hm.le
      have hvk := offset_mono (text.drop s.pos) hv
      rw [hgroup]
      dsimp only
      omega

theorem Fired.hasText (h : Fired text source s s' rule t k spans) (hgood : goodGroup t index = true)
    (hguards : Guards text s' guards) (htext : hasText t guards index = true) :
    ∃ q ∈ t.body index, ∃ u v, q.Matches (.ofText t.classes (text.drop s.pos) true) u v ∧
      runes (Lexer.view text (s'.loc index)) =
        (Input.ofText t.classes (text.drop s.pos) true).slice u v := by
  rcases h.group hgood with ⟨hlen, hne, hsets⟩ | hmatch
  · rcases Bool.or_eq_true_iff.1 htext with hfirst | hguard
    · rcases Bool.or_eq_true_iff.1 hfirst with hzero | hset
      · exact absurd (beq_iff_eq.1 hzero) hne
      · rw [hsets] at hset
        cases hset
    · have hpos := (hguards _ (List.contains_iff_mem.1 hguard)).1 index rfl
      omega
  · exact hmatch

end Groups


section Actions
variable {text : Bytes} {source : SourceDef} {s s' s₁ s₂ : Lexer} {rule : Rule} {t : PatternTree}
  {index : Nat} {spans : List (Option Nat)} {a : Action} {type : Token} {guards : List Cond}
  {e : Effect} {mode : Mode}

theorem fits_newLine {runes : List Nat} (h : ∀ r ∈ runes, r ∈ [0x0D, 0x0A]) :
    Fits .yamlNewLine runes := by
  intro k hk
  have hshape : shapeOf .yamlNewLine = some (.only [0x0D, 0x0A]) := by rfl
  rw [hshape] at hk
  obtain rfl := Option.some.inj hk
  exact h

theorem fits_of_breaksOrBlanks (h : Fired text source s s' rule t k spans)
    (hgood : goodGroup t index = true)
    (hlast : (Lexer.view text (s'.loc index)).getLast? = some newline)
    (hbody : (t.body index).all (breaksOrBlanks t) = true) :
    Fits .yamlNewLine (runes (Lexer.view text (s'.loc index))) := by
  have hrunes := getLast?_runes hlast (by decide)
  rcases h.group hgood with ⟨hlen, -⟩ | ⟨q, hq, u, v, hm, hslice⟩
  · rw [Lexer.view, hlen, List.take_zero] at hlast
    cases hlast
  obtain ⟨q', hq', hm'⟩ := matches_alternatives hm
  have hx : (Input.ofText t.classes (text.drop s.pos) true).classes = t.classes := rfl
  have honly := List.all_eq_true.1 (List.all_eq_true.1 hbody q hq) q' hq'
  rw [← hx] at honly
  rw [hslice] at hrunes ⊢
  rcases Bool.or_eq_true_iff.1 honly with hbreaks | hblanks
  · exact fits_newLine (hm'.only hbreaks)
  · have hmem := hm'.only hblanks _ (List.mem_of_getLast? hrunes)
    exact absurd hmem (by decide)

/-- A group that passes the checks has a text that is right for the type. -/
theorem Fired.fits (h : Fired text source s s' rule t k spans) (hguards : Guards text s' guards)
    (hchecked : fitsGroup t guards type index = true) :
    Fits type (runes (Lexer.view text (s'.loc index))) := by
  obtain ⟨hgood, hfits⟩ := Bool.and_eq_true_iff.1 hchecked
  rcases Bool.or_eq_true_iff.1 hfits with hshape | hbreaks
  · intro shape hk
    rw [hk, Option.all_some] at hshape
    obtain ⟨hbody, hneeds⟩ := Bool.and_eq_true_iff.1 hshape
    have hmatched : (∃ q ∈ t.body index, ∃ u v,
        q.Matches (.ofText t.classes (text.drop s.pos) true) u v ∧
        runes (Lexer.view text (s'.loc index)) =
          (Input.ofText t.classes (text.drop s.pos) true).slice u v) →
        shape.Fits (runes (Lexer.view text (s'.loc index))) := by
      rintro ⟨q, hq, u, v, hm, hslice⟩
      rw [hslice]
      exact fits_of_fitsTree rfl (List.all_eq_true.1 hbody q hq) hm
    rcases Bool.or_eq_true_iff.1 hneeds with hno | htext
    · rcases h.group hgood with ⟨hlen, -⟩ | hmatch
      · rw [Lexer.view, hlen, List.take_zero]
        exact fits_nil (Bool.not_eq_true' _ ▸ hno)
      · exact hmatched hmatch
    · exact hmatched (h.hasText hgood hguards htext)
  · obtain ⟨hfirst, hbody⟩ := Bool.and_eq_true_iff.1 hbreaks
    obtain ⟨htype, hguard⟩ := Bool.and_eq_true_iff.1 hfirst
    have hlast := (hguards _ (List.contains_iff_mem.1 hguard)).2 index newline rfl
    obtain rfl : type = .yamlNewLine := of_decide_eq_true htype
    exact fits_of_breaksOrBlanks h hgood hlast hbody

theorem Action.perform_kept (h : a.perform text s = .ok s') :
    s'.reMatch = s.reMatch ∧ s'.pos = s.pos := by
  rcases perform_cases h with ⟨-, rfl⟩ | ⟨op, m, -, -, rfl⟩
  · cases a with
    | mode | insertAnchor | setFlowLevel | addFlowLevel | subFlowLevel | setBlockIndent | add | push
    | extend | pop | term | error => exact ⟨rfl, rfl⟩
  · exact ⟨rfl, rfl⟩

theorem Effect.perform_kept (h : e.perform text s = .ok s') :
    s'.reMatch = s.reMatch ∧ s'.pos = s.pos := by
  induction e generalizing s s' with
  | skip =>
    cases h
    exact ⟨rfl, rfl⟩
  | act a => exact Action.perform_kept h
  | seq e e' ihe ihe' =>
    rw [perform] at h
    cases hrun : e.perform text s with
    | error fault =>
      rw [hrun] at h
      cases h
    | ok s₁ =>
      rw [hrun] at h
      obtain ⟨hre, hpos⟩ := ihe hrun
      obtain ⟨hre', hpos'⟩ := ihe' h
      exact ⟨hre'.trans hre, hpos'.trans hpos⟩
  | branch c yes no ihy ihn =>
    rw [perform] at h
    split at h
    · exact ihy h
    · exact ihn h

theorem loc_eq (h : s₁.reMatch = s.reMatch) (index : Nat) : s₁.loc index = s.loc index := by
  unfold Lexer.loc
  rw [h]

theorem Guards.of_reMatch (h : s₁.reMatch = s.reMatch) {guards : List Cond}
    (hguards : Guards text s₁ guards) : Guards text s guards := by
  intro c hc
  simp only [← loc_eq h]
  exact hguards c hc

/-- Every group that an action refers to is in the match, and has the text that its tokens are to
have if it is meant for them. -/
structure Told (text : Bytes) (source : SourceDef) (mode : Mode) (index start : Nat) (s : Lexer)
    (a : Action) : Prop where
  inside : ∀ group ∈ a.groups, Inside source start s.pos (s.loc group)
  fits : ∀ type group, a.adds = some (type, group) → Means mode index (.token type, group) →
    Fits type (runes (Lexer.view text (s.loc group)))

theorem Effect.told (h : Fired text source s s' rule t k spans) (hguards : Guards text s' guards)
    (hchecked : e.checked t mode index guards = true) (hre : s₁.reMatch = s'.reMatch) :
    ∀ a ∈ e.actions text s₁, Told text source mode index s.pos s' a := by
  induction e generalizing s₁ guards with
  | skip => exact fun a ha => absurd ha List.not_mem_nil
  | act a =>
    intro b hb
    obtain rfl := List.mem_singleton.1 hb
    obtain ⟨hgroups, hadds⟩ := Bool.and_eq_true_iff.1 hchecked
    refine ⟨fun group hgroup => h.inside ?_, fun type group heq hmeans => ?_⟩
    · rcases Bool.or_eq_true_iff.1 (List.all_eq_true.1 hgroups group hgroup) with hbeyond | hgood
      · exact .inl (of_decide_eq_true hbeyond)
      · exact .inr hgood
    · rw [heq, Option.all_some, decide_eq_true hmeans, Bool.not_true, Bool.false_or] at hadds
      exact h.fits hguards hadds
  | seq e e' ihe ihe' =>
    obtain ⟨hfirst, hsecond⟩ := Bool.and_eq_true_iff.1 hchecked
    intro a ha
    rw [actions] at ha
    rcases List.mem_append.1 ha with ha | ha
    · exact ihe hguards hfirst hre a ha
    · cases hrun : e.perform text s₁ with
      | error fault =>
        rw [hrun] at ha
        cases ha
      | ok s₂ =>
        rw [hrun] at ha
        exact ihe' hguards hsecond ((perform_kept hrun).1.trans hre) a ha
  | branch c yes no ihy ihn =>
    obtain ⟨hyes, hno⟩ := Bool.and_eq_true_iff.1 hchecked
    intro a ha
    rw [actions] at ha
    split at ha
    · next hc =>
      have hcons := (guards_nil.cons hc).of_reMatch hre
      have hall : Guards text s' (c :: guards) :=
        List.forall_mem_cons.2 ⟨hcons c List.mem_cons_self, hguards⟩
      exact ihy hall hyes hre a ha
    · exact ihn hguards hno hre a ha

end Actions

/-- The types of the nodes that are closed again, whose locations then reach to their last child. -/
def closing : List Token :=
  [.group, .yamlDocument, .yamlTagDirective, .yamlFlowMapping, .yamlFlowSequence, .yamlTag]

/-- Whether the last child of the node is newer than the effect, where an action extends only such a
node or a value, and closes only what may be closed. -/
def Action.tails (last : Bool) : Action → Option Bool
  | .add type _ => if type = .errorMsg then none else some true
  | .push type _ => if type = .errorMsg then none else some false
  | .extend type index =>
    if type ≠ .errorMsg ∧ shapeOf type = none ∧ (last ∨ type = .yamlValue ∧ index = 0) then
      some last
    else none
  | .pop type => if type ∈ closing then some false else none
  | .term | .error _ _ => some false
  | _ => some last

def Effect.tails (last : Bool) : Effect → Option Bool
  | .skip => some last
  | .act a => a.tails last
  | .seq e e' => (e.tails last).bind fun last => e'.tails last
  | .branch _ yes no => (yes.tails last).bind fun b => (no.tails last).map (b && ·)

theorem rules_tails (mode : Mode) : ∀ rule ∈ rules mode, (rule.effect.tails false).isSome := by
  cases mode with
  | start => decide +kernel
  | directives => decide +kernel
  | document => decide +kernel
  | flow => decide +kernel
  | block => decide +kernel

section Since
variable {text : Bytes} {s s' s₁ s₂ : Lexer} {a : Action} {e : Effect} {before : Heap}
  {Span : Location → Prop} {Adds : Token → Location → Prop} {Grows : Node → Location → Prop}
  {last last' : Bool} {ns : List Node} {ts known known' : List Token}

/-- What is known of the nodes admits what the match makes of them. -/
structure Admits (before : Heap) (Span : Location → Prop) (Adds : Token → Location → Prop)
    (Grows : Node → Location → Prop) (s : Lexer) : Prop where
  whole : Span (s.loc 0)
  join : ∀ l l', Span l → Span l' → Span (l.join l')
  closes : ∀ type ∈ .invalid :: closing, MayClose before Adds Grows type
  free : ∀ type, shapeOf type = none → ∀ l l', Adds type l → Adds type l'

/-- It admits an action. -/
structure Admits.Action (before : Heap) (Span : Location → Prop) (Adds : Token → Location → Prop)
    (Grows : Node → Location → Prop) (s : Lexer) (a : Action) : Prop where
  span : ∀ group ∈ a.groups, Span (s.loc group)
  adds : ∀ type group, a.adds = some (type, group) → Adds type (s.loc group)
  value : a = .extend .yamlValue 0 → ∀ k < before.nodes.length, (before.get k).type = .yamlValue →
    ∀ l, l = (before.get k).location ∨ Grows k l → Grows k (l.join (s.loc 0))

theorem Action.since (hadmits : Admits before Span Adds Grows s')
    (ha : Admits.Action before Span Adds Grows s' a) (hb : Built s₁.make ns ts)
    (h : Since before Span Adds Grows s₁.make.heap) (hlast : last = true → LastNew before s₁.make)
    (htails : a.tails last = some last') (hre : s₁.reMatch = s'.reMatch)
    (hrun : a.perform text s₁ = .ok s₂) :
    Since before Span Adds Grows s₂.make.heap ∧ (last' = true → LastNew before s₂.make) := by
  have hloc : s₁.loc = s'.loc := funext (loc_eq hre)
  rcases perform_cases hrun with ⟨hop, rfl⟩ | ⟨op, m, hop, hperform, rfl⟩
  · cases a with
    | add | push | extend | pop | term | error => cases hop
    | mode | insertAnchor | setFlowLevel | addFlowLevel | subFlowLevel | setBlockIndent =>
      cases htails
      exact ⟨h, hlast⟩
  rw [hloc] at hop hperform
  cases a with
  | add type index =>
    cases hop
    rw [tails] at htails
    split at htails
    · cases htails
    next hne =>
    exact ⟨h.add hb hadmits.whole (ha.span index (List.mem_singleton_self _)) hne
      (.inr (ha.adds type index rfl)) hperform, fun _ => lastNew_add hb h.length hperform⟩
  | push type index =>
    cases hop
    rw [tails] at htails
    split at htails
    · cases htails
    next hne =>
    cases htails
    exact ⟨h.push hb hadmits.whole (ha.span index (List.mem_singleton_self _)) hne
      (.inr (ha.adds type index rfl)) hperform, nofun⟩
  | extend type index =>
    cases hop
    rw [tails] at htails
    split at htails
    · next hcond =>
      obtain ⟨hne, hshape, hor⟩ := hcond
      cases htails
      refine ⟨h.extend hb hadmits.join hadmits.whole (ha.span index (List.mem_singleton_self _)) hne
        (.inr (ha.adds type index rfl)) (fun back hback htype hlt => ?_) (hadmits.free type hshape)
        hperform, fun hnew => (hlast hnew).extend hb h.length hperform⟩
      rcases hor with hnew | ⟨rfl, rfl⟩
      · exact absurd (hlast hnew _ back hb.node hback) (Nat.not_le.2 hlt)
      · exact ha.value rfl back hlt ((h.type back hlt).symm.trans htype) _ (h.old back hlt)
    · cases htails
  | pop type =>
    cases hop
    rw [tails] at htails
    split at htails
    · next hmem =>
      cases htails
      exact ⟨h.popType hb hadmits.join hadmits.whole
        (hadmits.closes type (List.mem_cons_of_mem _ hmem))
        (hadmits.closes .invalid List.mem_cons_self) hperform, nofun⟩
    · cases htails
  | term =>
    cases hop
    cases htails
    exact ⟨h.term hb hadmits.join (hadmits.closes .group (by decide)) hperform, nofun⟩
  | error msg index =>
    cases hop
    cases htails
    exact ⟨h.error hb hadmits.whole (ha.span index (List.mem_singleton_self _)) msg hperform, nofun⟩
  | mode | insertAnchor | setFlowLevel | addFlowLevel | subFlowLevel | setBlockIndent => cases hop

theorem Effect.since (hadmits : Admits before Span Adds Grows s') (hs : Streams known s₁.make)
    (hshape : e.shape known = some known') (h : Since before Span Adds Grows s₁.make.heap)
    (hlast : last = true → LastNew before s₁.make) (htails : e.tails last = some last')
    (hre : s₁.reMatch = s'.reMatch)
    (hactions : ∀ a ∈ e.actions text s₁, Admits.Action before Span Adds Grows s' a)
    (hrun : e.perform text s₁ = .ok s₂) :
    Since before Span Adds Grows s₂.make.heap ∧ (last' = true → LastNew before s₂.make) := by
  induction e generalizing s₁ s₂ known known' last last' with
  | skip =>
    cases hrun
    cases htails
    exact ⟨h, hlast⟩
  | act a =>
    obtain ⟨ns, ts, hbuilt, -⟩ := hs
    have ha := hactions a (List.mem_singleton_self a)
    exact Action.since hadmits ha hbuilt h hlast htails hre hrun
  | seq e e' ihe ihe' =>
    obtain ⟨known₁, hshape₁, hshape₂⟩ := Option.bind_eq_some_iff.1 hshape
    obtain ⟨last₁, htails₁, htails₂⟩ := Option.bind_eq_some_iff.1 htails
    obtain ⟨s₃, hrun₁, hs₃, hkept⟩ := e.perform_shape text hs hshape₁
    rw [actions, hrun₁] at hactions
    rw [perform, hrun₁] at hrun
    obtain ⟨h₃, hlast₃⟩ := ihe hs hshape₁ h hlast htails₁ hre
      (fun a ha => hactions a (List.mem_append_left _ ha)) hrun₁
    exact ihe' hs₃ hshape₂ h₃ hlast₃ htails₂ (hkept.reMatch.trans hre)
      (fun a ha => hactions a (List.mem_append_right _ ha)) hrun
  | branch c yes no ihy ihn =>
    rw [shape] at hshape
    split at hshape
    · next heq =>
      obtain ⟨b, hyes, hrest⟩ := Option.bind_eq_some_iff.1 htails
      obtain ⟨b', hno, hboth⟩ := Option.map_eq_some_iff.1 hrest
      rw [perform] at hrun
      rw [actions] at hactions
      split at hrun
      · next hc =>
        rw [if_pos hc] at hactions
        obtain ⟨h', hnew⟩ := ihy hs hshape h hlast hyes hre hactions hrun
        refine ⟨h', fun htrue => hnew ?_⟩
        rw [← hboth] at htrue
        exact (Bool.and_eq_true_iff.1 htrue).1
      · next hc =>
        rw [if_neg hc] at hactions
        obtain ⟨h', hnew⟩ := ihn hs (heq ▸ hshape) h hlast hno hre hactions hrun
        refine ⟨h', fun htrue => hnew ?_⟩
        rw [← hboth] at htrue
        exact (Bool.and_eq_true_iff.1 htrue).2
    · cases hshape

end Since

section Rounds
variable {text : Bytes} {source : SourceDef} {maxErrors : Nat} {shared : Shared} {s s₁ : Lexer}
  {rule : Rule} {index : Nat} {type : Token}

/-- The states that the loop of `parse_source` goes through. -/
def Reaches (text : Bytes) (source : SourceDef) (maxErrors : Nat) (shared : Shared) :
    Lexer → Prop :=
  ReflTransGen (fun s s' => s.step text source maxErrors = .ok (some s'))
    (initial text source shared)

/-- A rule fires, and its effect performs an action. -/
def Performs (text : Bytes) (source : SourceDef) (s : Lexer) (index : Nat) (a : Action) : Prop :=
  (s.consumeFirstMatch text source).1 = some index ∧ ∃ rule, (rules s.mode)[index]? = some rule ∧
    a ∈ rule.effect.actions text (s.consumeFirstMatch text source).2

/-- The location lies in the text that a rule has consumed in a round. -/
def Consumed (text : Bytes) (source : SourceDef) (s s₁ : Lexer) (l : Location) : Prop :=
  (s.consumeFirstMatch text source).1 = none ∨ Inside source s.pos s₁.pos l

/-- An action of the rule adds a token, whose text is right for it if the group is meant. -/
def Added (text : Bytes) (source : SourceDef) (s : Lexer) (type : Token) (l : Location) : Prop :=
  ∃ index group a, Performs text source s index a ∧ a.adds = some (type, group) ∧
    (Means s.mode index (.token type, group) → Fits type (runes (Lexer.view text l)))

/-- An older token is closed, or a value goes on to the end of the match. -/
def Widened (text : Bytes) (source : SourceDef) (s s₁ : Lexer) (k : Node) (l : Location) : Prop :=
  (s.make.heap.get k).type ∈ .invalid :: closing ∨
    ((s.make.heap.get k).type = .yamlValue ∧
      (∃ index, Performs text source s index (.extend .yamlValue 0)) ∧
      l = { (s.make.heap.get k).location with
        len := s₁.pos - (s.make.heap.get k).location.pos })

theorem shapeOf_closing : ∀ type ∈ .invalid :: closing, shapeOf type = none ∧ type ≠ .yamlValue ∧
    type ≠ .error ∧ type ≠ .errorMsg := by
  decide +kernel

theorem Added.free (h : Added text source s type l) (hshape : shapeOf type = none) :
    Added text source s type l' := by
  obtain ⟨index, group, a, hperforms, hadds, -⟩ := h
  refine ⟨index, group, a, hperforms, hadds, fun _ shape hk => ?_⟩
  rw [hshape] at hk
  cases hk

theorem admits_round (s₁ s' : Lexer) (hwhole : Consumed text source s s₁ (s'.loc 0)) :
    Admits s.make.heap (Consumed text source s s₁) (Added text source s) (Widened text source s s₁)
      s' := by
  refine ⟨hwhole, fun l l' h h' => ?_, fun type htype => ?_,
    fun type hshape l l' h => h.free hshape⟩
  · rcases h with h | h
    · exact .inl h
    · rcases h' with h' | h'
      · exact .inl h'
      · exact .inr (h.join h')
  · obtain ⟨hshape, -, hne⟩ := shapeOf_closing type htype
    exact ⟨fun k _ heq l => .inl (heq ▸ htype), fun l l' h => h.free hshape, hne⟩

/-- A value that ends before a match goes on to the end of the match. -/
theorem Inside.extend (h : Inside source 0 start l) (hle : start ≤ stop) :
    l.join { source := some source, pos := start, len := stop - start } =
        { l with len := stop - l.pos } ∧
      Location.join { l with len := stop - l.pos }
        { source := some source, pos := start, len := stop - start } =
        { l with len := stop - l.pos } := by
  obtain ⟨hsame, -, hstop⟩ := h
  unfold Location.join
  dsimp only
  simp only [hsame, ne_eq, not_true_eq_false, if_false]
  have hmin : min l.pos start = l.pos := Nat.min_eq_left (by omega)
  have hmax : max (l.pos + l.len) (start + (stop - start)) = stop := by omega
  have hmax' : max (l.pos + (stop - l.pos)) (start + (stop - start)) = stop := by omega
  rw [hmin, hmax, hmax']
  exact ⟨rfl, rfl⟩

theorem round_none (h : (s.consumeFirstMatch text source).1 = none) :
    s.round text source = ((s.consumeFirstMatch text source).2.make.invalid
      (s.consumeFirstMatch text source).2.loc).map fun make =>
        { (s.consumeFirstMatch text source).2 with
          make, pos := min text.length ((s.consumeFirstMatch text source).2.pos + 1) } := by
  unfold Lexer.round
  split
  · next heq =>
    rw [heq] at h
    cases h
  · next heq => rw [heq]

theorem round_some (h : (s.consumeFirstMatch text source).1 = some index)
    (hrule : (rules s.mode)[index]? = some rule) :
    s.round text source = rule.effect.perform text (s.consumeFirstMatch text source).2 := by
  unfold Lexer.round
  split
  · next heq =>
    rw [heq] at h ⊢
    cases h
    dsimp only
    rw [hrule]
  · next heq =>
    rw [heq] at h
    cases h

theorem step_round (h : s.step text source maxErrors = .ok (some s₁)) :
    s.pos < text.length ∧ s.round text source = .ok s₁ := by
  unfold Lexer.step at h
  split at h
  · next hcond =>
    refine ⟨hcond.1, ?_⟩
    cases hround : s.round text source with
    | error fault =>
      rw [hround] at h
      cases h
    | ok s' =>
      rw [hround] at h
      cases h
      rfl
  · cases h

theorem Reaches.start_or_open (h : Reaches text source maxErrors shared s) :
    s = initial text source shared ∨ Open s := by
  induction h with
  | refl => exact .inl rfl
  | @tail s₁ s₂ _ hstep ih =>
    obtain ⟨hpos, hround⟩ := step_round hstep
    rcases ih with rfl | hopen
    · have htext : text ≠ [] := List.length_pos_iff.1 hpos
      obtain ⟨s', hround', hopen⟩ := initial_round text source shared htext
      rw [hround] at hround'
      cases hround'
      exact .inr hopen
    · obtain ⟨s', hround', hopen', -⟩ := round_open source hopen hpos
      rw [hround] at hround'
      cases hround'
      exact .inr hopen'

/-- What is known of the rule that fires in a round. -/
theorem Reaches.fired (h : Reaches text source maxErrors shared s) (hpos : s.pos < text.length)
    (hindex : (s.consumeFirstMatch text source).1 = some index) :
    ∃ rule t k spans, (rules s.mode)[index]? = some rule ∧
      Fired text source s (s.consumeFirstMatch text source).2 rule t k spans ∧
      ∀ a ∈ rule.effect.actions text (s.consumeFirstMatch text source).2,
        Told text source s.mode index s.pos (s.consumeFirstMatch text source).2 a := by
  have hvalid : s.reMatch.ctx.visited.Valid := by
    rcases h.start_or_open with rfl | hopen
    · exact initial_valid text source shared
    · exact hopen.valid
  obtain ⟨rule, t, k, spans, hrule, hfired⟩ :=
    (consumeFirstMatch_fired text source hvalid hpos).2 index hindex
  obtain ⟨t', ht', -, -, -, hchecked⟩ := rule_tree hrule
  obtain rfl : t' = t := Option.some.inj (ht'.symm.trans hfired.tree)
  exact ⟨rule, t', k, spans, hrule, hfired, Effect.told hfired guards_nil hchecked rfl⟩

/-- An action of the rule that fires is admitted. -/
theorem admits_action {a : Action} {s' : Lexer}
    (hfired : Fired text source s s' rule t k spans) (hpos : s₁.pos = s'.pos)
    (hvalues : ∀ k < s.make.heap.nodes.length, (s.make.heap.get k).type = .yamlValue →
      Inside source 0 s.pos (s.make.heap.get k).location)
    (hperforms : Performs text source s index a)
    (htold : Told text source s.mode index s.pos s' a) :
    Admits.Action s.make.heap (Consumed text source s s₁) (Added text source s)
      (Widened text source s s₁) s' a := by
  have hle : s.pos ≤ s'.pos := by
    rw [hfired.pos]
    exact Nat.le_add_right _ _
  refine ⟨fun group hgroup => ?_, fun type group hadds => ?_, fun heq k hk htype l hl => ?_⟩
  · right
    rw [hpos]
    exact htold.inside group hgroup
  · exact ⟨index, group, a, hperforms, hadds, htold.fits type group hadds⟩
  · obtain ⟨hextend, hagain⟩ := (hvalues k hk htype).extend hle
    rw [hfired.zero]
    refine .inr ⟨htype, ⟨index, heq ▸ hperforms⟩, ?_⟩
    rw [hpos]
    rcases hl with rfl | hl
    · exact hextend
    · rcases hl with hclosing | ⟨-, -, rfl⟩
      · exact absurd htype (shapeOf_closing _ hclosing).2.1
      · rw [hpos]
        exact hagain

theorem Reaches.built (h : Reaches text source maxErrors shared s) : ∃ ns ts, Built s.make ns ts := by
  rcases h.start_or_open with rfl | hopen
  · exact ⟨_, _, built_create _⟩
  · obtain ⟨ns, ts, hbuilt, -⟩ := hopen.streams
    exact ⟨ns, ts, hbuilt⟩

/-- A round without a match adds an error for a character. -/
theorem Reaches.since_invalid (h : Reaches text source maxErrors shared s)
    (hpos : s.pos < text.length) (hfound : (s.consumeFirstMatch text source).1 = none)
    (hround : s.round text source = .ok s₁) :
    Since s.make.heap (Consumed text source s s₁) (Added text source s) (Widened text source s s₁)
      s₁.make.heap ∧ s.pos ≤ s₁.pos := by
  obtain ⟨ns, ts, hbuilt⟩ := h.built
  have hs' := consumeFirstMatch_none text source s hfound
  generalize hmatch : (s.consumeFirstMatch text source).2 = s' at hs'
  have hmake : s'.make = s.make := by rw [hs']
  have hpos' : s'.pos = s.pos := by rw [hs']
  rw [round_none hfound, hmatch, hmake] at hround
  cases hinvalid : s.make.invalid s'.loc with
  | error fault =>
    rw [hinvalid] at hround
    cases hround
  | ok m =>
    rw [hinvalid] at hround
    cases hround
    have hadmits := admits_round { s' with make := m, pos := min text.length (s'.pos + 1) } s'
      (.inl hfound)
    refine ⟨(Since.refl _).invalid hbuilt hadmits.join hadmits.whole
      (hadmits.closes .invalid List.mem_cons_self) hinvalid, ?_⟩
    dsimp only
    omega

/-- A round with a match performs the actions of its rule; the first one starts the stream. -/
theorem Reaches.since_fired {Span : Location → Prop} {Adds : Token → Location → Prop}
    {Grows : Node → Location → Prop} (h : Reaches text source maxErrors shared s)
    (hpos : s.pos < text.length) (hfound : (s.consumeFirstMatch text source).1 = some index)
    (hrule : (rules s.mode)[index]? = some rule) (hmake : s'.make = s.make)
    (hadmits : Admits s.make.heap Span Adds Grows s')
    (hactions : ∀ a ∈ rule.effect.actions text s',
      Admits.Action s.make.heap Span Adds Grows s' a)
    (hround : rule.effect.perform text s' = .ok s₁) :
    Since s.make.heap Span Adds Grows s₁.make.heap := by
  have hsince : Since s.make.heap Span Adds Grows s'.make.heap := by
    rw [hmake]
    exact .refl _
  have hno : false = true → LastNew s.make.heap s'.make := nofun
  rcases h.start_or_open with rfl | hopen
  · have htext : text ≠ [] := List.length_pos_iff.1 hpos
    have hfirst := initial_found text source shared htext
    obtain rfl : 0 = index := Option.some.inj (hfirst.symm.trans hfound)
    obtain rfl : startRule = rule := Option.some.inj hrule
    have hbuilt : Built s'.make [] [] := hmake ▸ built_create _
    simp only [startRule, Effect.block, List.foldr_cons, List.foldr_nil, Effect.push, Effect.mode,
      Effect.perform] at hround
    cases hpush : Action.perform text s' (.push .yamlStream 0) with
    | error fault =>
      rw [hpush] at hround
      cases hround
    | ok s₂ =>
      rw [hpush] at hround
      cases hround
      have ha := hactions (.push .yamlStream 0) List.mem_cons_self
      exact (Action.since hadmits ha hbuilt hsince hno rfl rfl hpush).1
  · have hmem := List.mem_of_getElem? hrule
    obtain ⟨last, htails⟩ := Option.isSome_iff_exists.1 (rules_tails s.mode rule hmem)
    have hshape := rules_shape s.mode hopen.mode rule hmem
    have hstreams : Streams [] s'.make := hmake ▸ hopen.streams
    exact (Effect.since hadmits hstreams hshape hsince hno htails rfl hactions hround).1

/-- What a round does to the nodes. -/
theorem Reaches.since (h : Reaches text source maxErrors shared s) (hpos : s.pos < text.length)
    (hvalues : ∀ k < s.make.heap.nodes.length, (s.make.heap.get k).type = .yamlValue →
      Inside source 0 s.pos (s.make.heap.get k).location)
    (hround : s.round text source = .ok s₁) :
    Since s.make.heap (Consumed text source s s₁) (Added text source s) (Widened text source s s₁)
      s₁.make.heap ∧ s.pos ≤ s₁.pos := by
  cases hfound : (s.consumeFirstMatch text source).1 with
  | none => exact h.since_invalid hpos hfound hround
  | some index =>
    obtain ⟨rule, t, k, spans, hrule, hfired, htold⟩ := h.fired hpos hfound
    rw [round_some hfound hrule] at hround
    have hperforms : ∀ a ∈ rule.effect.actions text (s.consumeFirstMatch text source).2,
        Performs text source s index a := fun a ha => ⟨hfound, rule, hrule, ha⟩
    generalize hmatch : (s.consumeFirstMatch text source).2 = s' at hfired htold hround hperforms
    have hpos' : s₁.pos = s'.pos := (Effect.perform_kept hround).2
    have hle : s.pos ≤ s'.pos := by
      rw [hfired.pos]
      exact Nat.le_add_right _ _
    have hwhole : Consumed text source s s₁ (s'.loc 0) := by
      right
      rw [hpos', hfired.zero]
      refine ⟨rfl, Nat.le_refl _, ?_⟩
      dsimp only
      omega
    have hactions : ∀ a ∈ rule.effect.actions text s', Admits.Action s.make.heap
        (Consumed text source s s₁) (Added text source s) (Widened text source s s₁) s' a :=
      fun a ha => admits_action hfired hpos' hvalues (hperforms a ha) (htold a ha)
    exact ⟨h.since_fired hpos hfound hrule hfired.make (admits_round s₁ s' hwhole) hactions hround,
      hpos' ▸ hle⟩

theorem Inside.mono (h : Inside source start stop l) (hstart : start' ≤ start)
    (hstop : stop ≤ stop') : Inside source start' stop' l :=
  ⟨h.same, Nat.le_trans hstart h.start_le, Nat.le_trans h.le_stop hstop⟩

/-- Values lie in the text before the lexer. -/
theorem Reaches.values (h : Reaches text source maxErrors shared s) :
    ∀ k < s.make.heap.nodes.length, (s.make.heap.get k).type = .yamlValue →
      Inside source 0 s.pos (s.make.heap.get k).location := by
  induction h with
  | refl =>
    intro k hk htype
    obtain rfl : k = 0 := Nat.lt_one_iff.1 hk
    have hfile : ((initial text source shared).make.heap.get 0).type = .file := rfl
    exact absurd (hfile.symm.trans htype) (by decide)
  | @tail s s₁ hreach hstep ih =>
    obtain ⟨hpos, hround⟩ := step_round hstep
    obtain ⟨hsince, hle⟩ := Reaches.since hreach hpos ih hround
    intro k hk htype
    rcases Nat.lt_or_ge k s.make.heap.nodes.length with hold | hnew
    · rw [hsince.type k hold] at htype
      have hinside := ih k hold htype
      rcases hsince.old k hold with hkept | hclosing | ⟨-, -, hwidened⟩
      · rw [hkept]
        exact hinside.mono (Nat.le_refl _) hle
      · exact absurd htype (shapeOf_closing _ hclosing).2.1
      · have hstop := hinside.le_stop
        rw [hwidened]
        refine ⟨hinside.same, Nat.zero_le _, ?_⟩
        dsimp only
        omega
    · rcases hsince.within k hnew hk (by rw [htype]; decide) with hnone | hinside
      · rcases hsince.adds k hnew hk with hown | ⟨index, group, a, ⟨hsome, -⟩, -⟩
        · rw [htype] at hown
          exact absurd hown (by decide)
        · rw [hnone] at hsome
          cases hsome
      · exact hinside.mono (Nat.zero_le _) (Nat.le_refl _)

/-- What a step does to the nodes. -/
theorem Reaches.step (h : Reaches text source maxErrors shared s)
    (hstep : s.step text source maxErrors = .ok (some s₁)) :
    Since s.make.heap (Consumed text source s s₁) (Added text source s) (Widened text source s s₁)
      s₁.make.heap ∧ s.pos ≤ s₁.pos :=
  h.since (step_round hstep).1 h.values (step_round hstep).2

/-- A token keeps its type, and its location unless it may be closed or extended. Where a value
starts, it stays. -/
theorem Reaches.later (h : Reaches text source maxErrors shared s)
    (hlater : ReflTransGen (fun s s' => s.step text source maxErrors = .ok (some s')) s s₁)
    (hk : k < s.make.heap.nodes.length) :
    k < s₁.make.heap.nodes.length ∧ (s₁.make.heap.get k).type = (s.make.heap.get k).type ∧
      ((s.make.heap.get k).type ∉ .yamlValue :: .invalid :: closing →
        (s₁.make.heap.get k).location = (s.make.heap.get k).location) ∧
      ((s.make.heap.get k).type = .yamlValue →
        (s₁.make.heap.get k).location.pos = (s.make.heap.get k).location.pos) := by
  induction hlater with
  | refl => exact ⟨hk, rfl, fun _ => rfl, fun _ => rfl⟩
  | @tail s₁ s₂ hlater hstep ih =>
    obtain ⟨hlt, htype, hkept, hstart⟩ := ih
    obtain ⟨hsince, -⟩ := Reaches.step (h.trans hlater) hstep
    have hold := hsince.old k hlt
    refine ⟨Nat.lt_of_lt_of_le hlt hsince.length, (hsince.type k hlt).trans htype, fun hout => ?_,
      fun hvalue => ?_⟩
    · rcases hold with heq | hclosing | ⟨hvalue, -⟩
      · exact heq.trans (hkept hout)
      · rw [htype] at hclosing
        exact absurd (List.mem_cons_of_mem _ hclosing) hout
      · rw [htype] at hvalue
        rw [hvalue] at hout
        exact absurd List.mem_cons_self hout
    · rcases hold with heq | hclosing | ⟨-, -, hwidened⟩
      · rw [heq]
        exact hstart hvalue
      · rw [htype, hvalue] at hclosing
        exact absurd rfl (shapeOf_closing _ hclosing).2.1
      · rw [hwidened]
        exact hstart hvalue

/-- Every node is older than a state, or a step added it. -/
theorem Reaches.origin (h : Reaches text source maxErrors shared s)
    (hk : k < s.make.heap.nodes.length) (htop : 0 < k) :
    ∃ s₁ s₂, Reaches text source maxErrors shared s₁ ∧
      s₁.step text source maxErrors = .ok (some s₂) ∧
      ReflTransGen (fun s s' => s.step text source maxErrors = .ok (some s')) s₂ s ∧
      s₁.make.heap.nodes.length ≤ k ∧ k < s₂.make.heap.nodes.length := by
  induction h with
  | refl => exact absurd htop (Nat.not_lt.2 (Nat.le_of_lt_succ hk))
  | @tail s s₁ hreach hstep ih =>
    rcases Nat.lt_or_ge k s.make.heap.nodes.length with hold | hnew
    · obtain ⟨s₂, s₃, h₂, hstep₂, hlater, hnew, hlt⟩ := ih hold
      exact ⟨s₂, s₃, h₂, hstep₂, hlater.tail hstep, hnew, hlt⟩
    · exact ⟨s, s₁, hreach, hstep, .refl, hnew, hk⟩

end Rounds

section Runs
variable (text : Bytes) (source : SourceDef) (maxErrors : Nat)

/-- How many rules of a mode are looked at, and the ones of them that are tried at characters. -/
def tried : Mode → Nat × List (UInt8 × List Nat)
  | .start => (1, [(0x2D, [0]), (0x5B, [0])])
  | .directives => (11, [(0x2D, [8, 9, 10]), (0x5B, [10])])
  | .document => (15, [(0x5B, [14])])
  | .flow => (25, [(0x31, [23, 24]), (0x61, [24]), (0x20, [2, 3, 4, 5, 9, 10])])
  | .block => (0, [])

/-- A step in which one of these rules matches. The other regexes are not even compiled. -/
def match? (s : Lexer) : Option Lexer :=
  if s.pos < text.length ∧ s.make.errorCount < maxErrors then
    match text.drop s.pos with
    | [] => none
    | first :: rest =>
      match ((tried s.mode).2.lookup first).map fun indices =>
        s.reMatch.tryInOrder (regexes s.mode) (first :: rest) source s.pos indices with
      | some (some index, reMatch) =>
        let s' := { s with reMatch }
        ((rules s.mode)[index]?).bind fun rule =>
          (rule.effect.perform text { s' with pos := s'.pos + (s'.loc 0).len }).toOption
      | _ => none
  else none

def rounds : Nat → Lexer → Option Lexer
  | 0, s => some s
  | n + 1, s => (match? text source maxErrors s).bind (rounds n)

variable {text source maxErrors} {s s' : Lexer}

end Runs

end Trieste.Yaml
