import Trieste.Bindings.Location
import Trieste.Bindings.Generator
import Trieste.Wf.Layers

namespace Trieste.Bindings
set_option autoImplicit true
open Wf

namespace Generator
variable {g g' : Generator}

/-- Generators that look the same up. -/
structure Alike (g g' : Generator) : Prop where
  targetDepth : g.targetDepth = g'.targetDepth
  tokenWeights : g.tokenWeights = g'.tokenWeights
  genBoundVars : g.genBoundVars = g'.genBoundVars
  distances : ∀ t, g.tokenTerminalDistance.lookup t = g'.tokenTerminalDistance.lookup t
  keys : ∀ t, g.bindingKeys.lookup t = g'.bindingKeys.lookup t
  bindingKeys : g.bindingKeys.Perm g'.bindingKeys

theorem Alike.weightFor (h : Alike g g') : g.weightFor = g'.weightFor := by
  funext t
  rw [Gen.weightFor, Gen.weightFor, h.tokenWeights]

theorem Alike.offsets (h : Alike g g') : g.offsets = g'.offsets := by
  funext depth tokens
  simp only [Gen.offsets, Gen.offset, h.distances, h.targetDepth]

theorem Alike.choose (h : Alike g g') : g.choose = g'.choose := by
  have hoffsets := h.offsets
  obtain ⟨⟨known, targetDepth, tokenWeights⟩, bindingKeys, genBoundVars⟩ := g
  obtain ⟨⟨known', targetDepth', tokenWeights'⟩, bindingKeys', genBoundVars'⟩ := g'
  obtain rfl : targetDepth = targetDepth' := h.targetDepth
  obtain rfl : tokenWeights = tokenWeights' := h.tokenWeights
  funext tokens depth parent draws i
  rcases tokens with _ | ⟨t, _ | ⟨u, rest⟩⟩
  · rfl
  · rfl
  · simp only [Gen.choose, hoffsets]
    rfl

theorem Alike.keyIndex (h : Alike g g') : g.keyIndex = g'.keyIndex := by
  funext type
  rw [Generator.keyIndex, Generator.keyIndex, h.keys]

theorem Alike.getSymbols (h : Alike g g') : g.getSymbols = g'.getSymbols := by
  have hadmits : g.admits = g'.admits := by
    funext type childType
    simp only [admits, h.keys]
  funext s childType st
  cases st with
  | none => rfl
  | some st => simp only [Generator.getSymbols, hadmits]

theorem Alike.shouldGenBound (h : Alike g g') : g.shouldGenBound = g'.shouldGenBound := by
  funext heap parent childType
  have hbound := (h.bindingKeys.filter fun keys => keys.2.1.contains childType).map Prod.fst
  have hnil : ((g.bindingKeys.filter fun keys => keys.2.1.contains childType).map Prod.fst = []) =
      ((g'.bindingKeys.filter fun keys => keys.2.1.contains childType).map Prod.fst = []) :=
    propext ⟨fun hn => (hn ▸ hbound).nil_eq.symm, fun hn => (hn ▸ hbound).eq_nil⟩
  have hmem (t : Token) :
      (t ∈ (g.bindingKeys.filter fun keys => keys.2.1.contains childType).map Prod.fst) =
        (t ∈ (g'.bindingKeys.filter fun keys => keys.2.1.contains childType).map Prod.fst) :=
    propext hbound.mem_iff
  simp only [Generator.shouldGenBound, hnil, hmem, h.genBoundVars, h.keyIndex]

theorem Alike.selected (h : Alike g g') : g.selected = g'.selected := by
  funext s parent child result
  simp only [Generator.selected, h.getSymbols, h.shouldGenBound]

theorem Alike.location (h : Alike g g') : g.location = g'.location := by
  funext s fresh parent child result
  simp only [Generator.location, h.selected, h.keyIndex]

theorem Alike.genChoice (h : Alike g g') : g.genChoice = g'.genChoice := by
  funext gloc draws c depth node s i
  simp only [Generator.genChoice, h.choose, h.selected, h.location]

theorem Alike.genFields (h : Alike g g') (fields : List Field) (result : Scopes × Nat) :
    g.genFields gloc draws f depth node fields result =
      g'.genFields gloc draws f depth node fields result := by
  induction fields generalizing result with
  | nil => rfl
  | cons field fields ih => simp only [Generator.genFields, h.genChoice, ih]

theorem Alike.genCount (h : Alike g g') (count : Nat) (result : Scopes × Nat) :
    g.genCount gloc draws c depth node count result =
      g'.genCount gloc draws c depth node count result := by
  induction count generalizing result with
  | zero => rfl
  | succ count ih => simp only [Generator.genCount, h.genChoice, ih]

theorem Alike.genMore (h : Alike g g') (left : Nat) (result : Scopes × Nat) :
    g.genMore gloc draws c depth node left result =
      g'.genMore gloc draws c depth node left result := by
  induction left generalizing result with
  | zero => rfl
  | succ left ih => simp only [Generator.genMore, h.genChoice, ih]

theorem Alike.genShape (h : Alike g g') (shape : Shape) :
    g.genShape gloc draws depth node s i shape = g'.genShape gloc draws depth node s i shape := by
  cases shape with
  | sequence q =>
    simp only [Generator.genShape, h.genCount, h.genMore, h.targetDepth, h.weightFor]
  | fields f => exact h.genFields f.fields (s, i)

theorem Alike.genNodes {wf wf' : Wellformed} (h : Alike g g')
    (hfind : ∀ t, wf.find t = wf'.find t) (fuel : Nat) (pending : List (Nat × Node)) (s : Scopes)
    (i : Nat) : wf.genNodes g gloc draws fuel pending s i =
      wf'.genNodes g' gloc draws fuel pending s i := by
  induction fuel generalizing pending s i with
  | zero => rfl
  | succ fuel ih =>
    cases pending with
    | nil => rfl
    | cons entry pending =>
      obtain ⟨depth, node⟩ := entry
      simp only [Wellformed.genNodes, hfind, h.genShape, ih]

end Generator

namespace Wellformed
variable {wf wf' : Wellformed} {dist : Token → Nat}

theorem keysOf_cons (entry : Token × Shape) (shapes : List (Token × Shape)) :
    keysOf (entry :: shapes) =
      (keysOf [entry]).bind fun keys => (keysOf shapes).map (keys ++ ·) := by
  obtain ⟨type, shape⟩ := entry
  cases shape with
  | sequence q =>
    rw [keysOf, keysOf, keysOf]
    cases keysOf shapes <;> rfl
  | fields f =>
    simp only [keysOf]
    split
    · cases keysOf shapes <;> rfl
    · cases f.index f.binding with
      | none => rfl
      | some index =>
        cases hfield : f.fields[index]? with
        | none =>
          simp only [hfield]
          rfl
        | some field =>
          simp only [hfield]
          cases keysOf shapes <;> rfl

theorem keysOf_error {shapes : List (Token × Shape)} (h : keysOf shapes = .error e) :
    e = .outside := by
  induction shapes with
  | nil => cases h
  | cons entry shapes ih =>
    obtain ⟨type, shape⟩ := entry
    cases shape with
    | sequence q => exact ih h
    | fields f =>
      rw [keysOf] at h
      split at h
      · exact ih h
      · split at h
        · cases h; rfl
        · split at h
          · cases h; rfl
          · cases hrest : keysOf shapes with
            | error e =>
              rw [hrest] at h
              cases h
              exact ih hrest
            | ok keys =>
              rw [hrest] at h
              cases h

/-- The same failure, or the same keys in another order. -/
inductive KeysAlike : (result result' : Except Failure (List (Token × SymtabKeys))) → Prop
  | ok {first second : List (Token × SymtabKeys)} (h : first.Perm second) :
    KeysAlike (.ok first) (.ok second)
  | error : KeysAlike (.error .outside) (.error .outside)

theorem KeysAlike.refl (shapes : List (Token × Shape)) :
    KeysAlike (keysOf shapes) (keysOf shapes) := by
  cases h : keysOf shapes with
  | ok keys => exact .ok (.refl _)
  | error e =>
    rw [keysOf_error h]
    exact .error

theorem KeysAlike.trans (h : KeysAlike result₁ result₂) (h' : KeysAlike result₂ result₃) :
    KeysAlike result₁ result₃ := by
  cases h with
  | error => exact h'
  | ok h =>
    cases h' with
    | ok h' => exact .ok (h.trans h')

theorem KeysAlike.append (entry : Token × Shape) (h : KeysAlike result result') :
    KeysAlike ((keysOf [entry]).bind fun keys => result.map (keys ++ ·))
      ((keysOf [entry]).bind fun keys => result'.map (keys ++ ·)) := by
  cases hkeys : keysOf [entry] with
  | error e =>
    rw [keysOf_error hkeys]
    exact .error
  | ok keys =>
    cases h with
    | error => exact .error
    | ok h => exact .ok (h.append_left keys)

theorem keysOf_perm {shapes shapes' : List (Token × Shape)} (h : shapes.Perm shapes') :
    KeysAlike (keysOf shapes) (keysOf shapes') := by
  induction h with
  | nil => exact .refl []
  | @cons entry shapes shapes' _ ih =>
    rw [keysOf_cons, keysOf_cons entry shapes']
    exact ih.append entry
  | swap entry entry' shapes =>
    rw [keysOf_cons entry' (entry :: shapes), keysOf_cons entry shapes,
      keysOf_cons entry (entry' :: shapes), keysOf_cons entry' shapes]
    cases hfirst : keysOf [entry] with
    | error e =>
      rw [keysOf_error hfirst]
      cases hsecond : keysOf [entry'] with
      | error e' =>
        rw [keysOf_error hsecond]
        exact .error
      | ok keys' => exact .error
    | ok keys =>
      cases hsecond : keysOf [entry'] with
      | error e' =>
        rw [keysOf_error hsecond]
        exact .error
      | ok keys' =>
        cases hrest : keysOf shapes with
        | error e =>
          rw [keysOf_error hrest]
          exact .error
        | ok more =>
          have hswap : (keys' ++ (keys ++ more)).Perm (keys ++ (keys' ++ more)) := by
            rw [← List.append_assoc, ← List.append_assoc]
            exact List.perm_append_comm.append_right more
          exact .ok hswap
  | trans _ _ ih ih' => exact ih.trans ih'

theorem genKeys_perm (h : wf.shapes.Perm wf'.shapes) (genBound : Bool) :
    KeysAlike (wf.genKeys genBound) (wf'.genKeys genBound) := by
  rw [genKeys, genKeys]
  split
  · exact keysOf_perm h
  · exact .ok (.refl _)

theorem find_perm (h : wf.shapes.Perm wf'.shapes) (t : Token) : wf.find t = wf'.find t :=
  Library.lookup_perm h wf.distinct t

theorem plain_perm (h : wf.shapes.Perm wf'.shapes) : wf.plain.shapes.Perm wf'.plain.shapes := h.map _

theorem lookup_keys (h : wf.shapes.Perm wf'.shapes) (hfirst : wf.genKeys genBound = .ok first)
    (hsecond : wf'.genKeys genBound = .ok second) (t : Token) :
    first.lookup t = second.lookup t := by
  rw [genKeys] at hfirst hsecond
  split at hfirst
  · next hbound =>
    rw [if_pos hbound] at hsecond
    rw [keysOf_lookup wf.distinct hfirst, keysOf_lookup wf'.distinct hsecond]
    exact congrArg (Option.bind · Shape.keys) (find_perm h t)
  · next hbound =>
    rw [if_neg hbound] at hsecond
    cases hfirst
    cases hsecond
    rfl

/-- The order of the tokens makes no difference to a definition and a greatest distance. -/
structure SameTrees (wf wf' : Wellformed) (m : Nat) : Prop where
  distance : ∀ t, (wf.plain.computeMinimumDistanceToTerminal m).map (List.lookup t) =
    (wf'.plain.computeMinimumDistanceToTerminal m).map (List.lookup t)
  tree : ∀ gloc seed genBound tokenWeights fuel,
    wf.gen gloc seed m genBound tokenWeights fuel = wf'.gen gloc seed m genBound tokenWeights fuel

theorem relevant_congr {wf wf' : Trieste.Wellformed} (hfind : ∀ t, wf.find t = wf'.find t)
    (t : Token) : wf.Relevant t ↔ wf'.Relevant t := by
  simp only [Trieste.Wellformed.Relevant, Trieste.Wellformed.HasType, hfind]

theorem solves_congr {wf wf' : Trieste.Wellformed} (hfind : ∀ t, wf.find t = wf'.find t)
    (h : wf.Solves m dist) : wf'.Solves m dist := by
  have htypes : wf'.HasType = wf.HasType := by
    funext t c
    simp only [Trieste.Wellformed.HasType, hfind]
  constructor
  · intro t ht
    exact h.leaf t ((hfind t).trans ht)
  · intro t shape ht above habove
    rw [htypes] at habove
    exact h.node t shape ((hfind t).trans ht) above habove

/-- Two orders of a definition whose distances solve its equations find the same ones. -/
theorem lookup_perm {wf wf' : Trieste.Wellformed} (hfind : ∀ t, wf.find t = wf'.find t)
    (h : wf.Solves m dist) (hr : wf.computeMinimumDistanceToTerminal m = some known)
    (hr' : wf'.computeMinimumDistanceToTerminal m = some known') (t : Token) :
    known.lookup t = known'.lookup t := by
  obtain ⟨hsome, hnone⟩ := Trieste.Wellformed.lookup_distance h hr t
  obtain ⟨hsome', hnone'⟩ := Trieste.Wellformed.lookup_distance (solves_congr hfind h) hr' t
  by_cases hrelevant : wf.Relevant t
  · rw [hsome hrelevant, hsome' ((relevant_congr hfind t).1 hrelevant)]
  · rw [hnone hrelevant, hnone' fun h => hrelevant ((relevant_congr hfind t).2 h)]

theorem sameTrees_of_solves (hperm : wf.shapes.Perm wf'.shapes) (h : wf.plain.Solves m dist) :
    SameTrees wf wf' m := by
  have hfind (t : Token) : wf.plain.find t = wf'.plain.find t :=
    Library.lookup_perm (plain_perm hperm) wf.plain.distinct t
  obtain ⟨known, hr, -⟩ := wf.plain.computeMinimumDistanceToTerminal_complete m
  obtain ⟨known', hr', -⟩ := wf'.plain.computeMinimumDistanceToTerminal_complete m
  have hlookup := lookup_perm hfind h hr hr'
  constructor
  · intro t
    rw [hr, hr', Option.map_some, Option.map_some, hlookup]
  · intro gloc seed genBound tokenWeights fuel
    have hkeys := genKeys_perm hperm genBound
    simp only [gen, hr, hr']
    cases hfirst : wf.genKeys genBound with
    | error e =>
      cases hsecond : wf'.genKeys genBound with
      | error e' =>
        rw [hfirst, hsecond] at hkeys
        cases hkeys
        rfl
      | ok keys' =>
        rw [hfirst, hsecond] at hkeys
        cases hkeys
    | ok keys =>
      cases hsecond : wf'.genKeys genBound with
      | error e' =>
        rw [hfirst, hsecond] at hkeys
        cases hkeys
      | ok keys' =>
        rw [hfirst, hsecond] at hkeys
        cases hkeys with
        | ok hkeys =>
          cases Rand.state seed 10 with
          | none => rfl
          | some rand =>
            have halike : Generator.Alike
                { tokenTerminalDistance := known, targetDepth := m, tokenWeights
                  bindingKeys := keys, genBoundVars := genBound }
                { tokenTerminalDistance := known', targetDepth := m, tokenWeights
                  bindingKeys := keys', genBoundVars := genBound } := {
              targetDepth := rfl
              tokenWeights := rfl
              genBoundVars := rfl
              distances := hlookup
              keys := lookup_keys hperm hfirst hsecond
              bindingKeys := hkeys }
            simp only [halike.genNodes (find_perm hperm)]

/-- The order of the tokens makes no difference where the greatest distance is zero or no two tokens
can be below each other. -/
theorem same_trees (wf wf' : Wellformed) (m : Nat) (hperm : wf.shapes.Perm wf'.shapes)
    (h : m = 0 ∨ wf.plain.Layered) : SameTrees wf wf' m := by
  rcases h with rfl | hlayered
  · exact sameTrees_of_solves hperm wf.plain.solves_zero
  · exact sameTrees_of_solves hperm (Trieste.Wellformed.solves_distanceOf hlayered m)

def ofSequences (shapes : List (Token × List Token)) (h : (shapes.map Prod.fst).Nodup) :
    Wellformed where
  shapes := shapes.map fun entry => (entry.1, .sequence { choice := ⟨entry.2⟩ })
  distinct := by
    rw [List.map_map]
    exact h

def itemsFirst : Wellformed :=
  ofSequences [(⟨"item", 0⟩, [⟨"item", 0⟩, ⟨"leaf", 0⟩]), (⟨"list", 0⟩, [⟨"item", 0⟩])] (by decide)

def itemsLast : Wellformed :=
  ofSequences [(⟨"list", 0⟩, [⟨"item", 0⟩]), (⟨"item", 0⟩, [⟨"item", 0⟩, ⟨"leaf", 0⟩])] (by decide)

theorem itemsFirst_layered : itemsFirst.plain.Layered := by
  apply Trieste.Wellformed.Layered.of_rank fun t =>
    if t = ⟨"list", 0⟩ then 2 else if t = ⟨"item", 0⟩ then 1 else 0
  rintro t c ⟨shape, hshape, choice, hchoice, hc⟩
  have hentry := Library.mem_of_lookup hshape
  have hall : ∀ entry ∈ itemsFirst.plain.shapes, ∀ choice ∈ entry.2.choices, ∀ c ∈ choice.types,
      c = entry.1 ∨ (if c = ⟨"list", 0⟩ then 2 else if c = ⟨"item", 0⟩ then 1 else 0) <
        if entry.1 = ⟨"list", 0⟩ then 2 else if entry.1 = ⟨"item", 0⟩ then 1 else 0 := by decide
  exact hall _ hentry choice hchoice c hc

theorem same_trees_items : SameTrees itemsFirst itemsLast 10 :=
  same_trees itemsFirst itemsLast 10 (List.Perm.swap ..) (.inr itemsFirst_layered)

def sumFirst : Wellformed :=
  ofSequences [(⟨"sum", 0⟩, [⟨"paren", 0⟩, ⟨"leaf", 0⟩]), (⟨"paren", 0⟩, [⟨"sum", 0⟩])] (by decide)

def sumLast : Wellformed :=
  ofSequences [(⟨"paren", 0⟩, [⟨"sum", 0⟩]), (⟨"sum", 0⟩, [⟨"paren", 0⟩, ⟨"leaf", 0⟩])] (by decide)

/-- The distance of the parentheses is 10 in one order and 5 in the other one. -/
theorem distances_differ : sumFirst.shapes.Perm sumLast.shapes ∧ ¬ SameTrees sumFirst sumLast 10 := by
  constructor
  · exact List.Perm.swap ..
  · exact fun h => absurd (h.distance ⟨"paren", 0⟩) (by decide)

end Wellformed

end Trieste.Bindings
