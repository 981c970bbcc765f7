import Trieste.Rewrite.Shadowing

namespace Trieste
set_option autoImplicit true

mutual

/-- The nodes have the shapes of `pattern_wf`, in which no group and no list of tokens is empty. -/
def Reified.conforms : Reified → Bool
  | .cap group _ | .opt group | .rep group | .not group | .pred group | .negPred group
  | .action group => !group.isEmpty && groupConforms group
  | .choice group group' | .children group group' =>
    (!group.isEmpty && groupConforms group) && (!group'.isEmpty && groupConforms group')
  | .tokenMatch types | .insideStar types | .inside types => !types.isEmpty
  | .any | .regexMatch _ _ | .first | .last => true

def groupConforms : List Reified → Bool
  | [] => true
  | node :: rest => node.conforms && groupConforms rest

end

/-- `pattern_wf` -/
def patternWf (group : List Reified) : Bool := !group.isEmpty && groupConforms group

def Reified.isCap : Reified → Bool
  | .cap _ _ => true
  | _ => false

/-- The two pairs of groups that are compared for a pair of nodes. -/
inductive Compares : Reified → Reified → List Reified → List Reified → List Reified →
    List Reified → Prop
  | children (group below group' below' : List Reified) :
    Compares (.children group below) (.children group' below') group group' below below'
  | rep (group group' : List Reified) :
    Compares (.rep group) (.rep group') group group' group' group
  | opt (group group' : List Reified) :
    Compares (.opt group) (.opt group') group group' group' group

/-- The nodes are compared as they are: none is a capture, and the one of the pattern is not passed
over. -/
structure Meet (p q : Reified) : Prop where
  left : p.isCap = false
  right : q.isCap = false
  context : q.isContext = true → p.isContext = true

/-- How the comparison of two lists of nodes ends, where it does not find a difference: the prefix
is `included`, or an `Any` of it is left with nodes of the pattern that match nothing. -/
inductive Aligns (same : Bool) : List Reified → List Reified → (included : Bool) → Prop
  | done : Aligns same [] ys true
  | prefixCap : Aligns same (group ++ xs) (y :: ys) included →
    Aligns same (.cap group name :: xs) (y :: ys) included
  | patternCap : x.isCap = false → Aligns same (x :: xs) (group ++ ys) included →
    Aligns same (x :: xs) (.cap group name :: ys) included
  | context : x.isCap = false → x.isContext = false → y.isContext = true →
    Aligns same (x :: xs) ys included → Aligns same (x :: xs) (y :: ys) included
  | any : Meet .any y → y :: ys = passed ++ z :: rest → (∀ w ∈ passed, w.multiplicity = .zero) →
    z.multiplicity = .one → Aligns same xs rest included →
      Aligns same (.any :: xs) (y :: ys) included
  | exhausted : Meet .any y → (∀ w ∈ y :: ys, w.multiplicity = .zero) →
    Aligns same (.any :: xs) (y :: ys) false
  | node : Meet x y → x ≠ .any → (∀ includes, x.covers includes same y = some true) →
    Aligns same xs ys included → Aligns same (x :: xs) (y :: ys) included
  | nested : Compares x y group group' below below' → Aligns same group group' true →
    Aligns same below below' true → Aligns same xs ys included →
      Aligns same (x :: xs) (y :: ys) included
  | nestedFirst : Compares x y group group' below below' → Aligns same group group' false →
    Aligns same (x :: xs) (y :: ys) false
  | nestedSecond : Compares x y group group' below below' → Aligns same group group' true →
    Aligns same below below' false → Aligns same (x :: xs) (y :: ys) false

namespace StackedIterator

def Whole (it : StackedIterator) : Prop := ∀ group ∈ it, group ≠ []

theorem Whole.next {it : StackedIterator} (h : it.Whole) : it.next.Whole := by
  induction it with
  | nil => exact h
  | cons group it ih =>
    have ih := ih fun g hg => h g (List.mem_cons_of_mem group hg)
    simp only [StackedIterator.next]
    cases group.tail with
    | nil => exact ih
    | cons node rest =>
      intro g hg
      rcases List.mem_cons.1 hg with rfl | hg
      · exact List.cons_ne_nil node rest
      · exact h g (List.mem_cons_of_mem group hg)

theorem Whole.push {it : StackedIterator} (h : it.Whole) (hg : group ≠ []) :
    (it.push group).Whole := List.forall_mem_cons.2 ⟨hg, h⟩

theorem Whole.single (h : group ≠ []) : Whole [group] := List.forall_mem_singleton.2 h

theorem remaining_single (group : List Reified) : remaining [group] = group := List.append_nil group

theorem Whole.eq_nil {it : StackedIterator} (h : it.Whole) (hr : it.remaining = []) : it = [] := by
  cases it with
  | nil => rfl
  | cons group it => exact absurd (List.append_eq_nil_iff.1 hr).1 (h group List.mem_cons_self)

/-- A walk with nodes left is at the first of them. -/
theorem Whole.get {it : StackedIterator} (h : it.Whole) (hr : it.remaining = x :: xs) :
    it.get = some x ∧ it.behind = xs := by
  cases it with
  | nil => cases hr
  | cons group it =>
    cases group with
    | nil => exact absurd rfl (h [] List.mem_cons_self)
    | cons y group =>
      obtain ⟨rfl, rfl⟩ := List.cons.inj hr
      exact ⟨rfl, rfl⟩

theorem Whole.remaining_next {it : StackedIterator} (h : it.Whole) (hr : it.remaining = x :: xs) :
    it.next.remaining = xs := by
  rw [StackedIterator.remaining_next, (h.get hr).2]

theorem Whole.remaining_push {it : StackedIterator} (h : it.Whole) (hr : it.remaining = x :: xs)
    (group : List Reified) : (it.push group).remaining = group ++ xs := by
  rw [StackedIterator.remaining_push, (h.get hr).2]

theorem ne_nil_of_remaining {it : StackedIterator} (hr : it.remaining = x :: xs) : it ≠ [] := by
  rintro rfl
  cases hr

end StackedIterator

theorem skipZero_stops {it : StackedIterator} (h : it.Whole) (hr : it.remaining = passed ++ z :: rest)
    (hzero : ∀ w ∈ passed, w.multiplicity = .zero) (hz : z.multiplicity ≠ .zero) :
    ∃ it', it'.Whole ∧ it'.remaining = z :: rest ∧
      ∀ fuel, skipZero fuel it = if passed.length < fuel then some it' else none := by
  induction passed generalizing it with
  | nil =>
    refine ⟨it, h, hr, fun fuel => ?_⟩
    cases fuel with
    | zero => rfl
    | succ fuel =>
      rw [skipZero, (h.get hr).1, Option.bind_some, if_neg hz]
      exact (if_pos (Nat.succ_pos fuel)).symm
  | cons w passed ih =>
    obtain ⟨hw, hzero⟩ := List.forall_mem_cons.1 hzero
    have hnext := h.remaining_next hr
    obtain ⟨it', hwhole, hit, hskip⟩ := ih h.next hnext hzero
    refine ⟨it', hwhole, hit, fun fuel => ?_⟩
    cases fuel with
    | zero => rfl
    | succ fuel =>
      have hne : it.next ≠ [] := by
        intro hnil
        rw [hnil] at hnext
        exact List.append_ne_nil_of_right_ne_nil passed (List.cons_ne_nil z rest) hnext.symm
      rw [skipZero, (h.get hr).1, Option.bind_some, if_pos hw, if_neg hne, hskip]
      simp only [List.length_cons, Nat.succ_lt_succ_iff]

theorem skipZero_exhausted {it : StackedIterator} (h : it.Whole)
    (hzero : ∀ w ∈ it.remaining, w.multiplicity = .zero) (fuel : Nat) : skipZero fuel it = none := by
  induction fuel generalizing it with
  | zero => rfl
  | succ fuel ih =>
    cases hr : it.remaining with
    | nil =>
      rw [h.eq_nil hr]
      rfl
    | cons w rest =>
      rw [hr] at hzero
      obtain ⟨hw, hzero⟩ := List.forall_mem_cons.1 hzero
      rw [skipZero, (h.get hr).1, Option.bind_some, if_pos hw]
      split
      · rfl
      · apply ih h.next
        rw [h.remaining_next hr]
        exact hzero

section Step
variable {includes : List Reified → List Reified → Option Bool} {same : Bool} {fuel : Nat}
  {S T : StackedIterator} {x y : Reified}

theorem step_prefixCap (hS : S.get = some (.cap group name)) (hT : T.get = some y) :
    includesStep includes same fuel S T = some (.go (S.push group) T) := by
  rw [includesStep, hS, Option.bind_some, hT, Option.bind_some]

theorem step_patternCap (hS : S.get = some x) (hT : T.get = some (.cap group name))
    (hx : x.isCap = false) : includesStep includes same fuel S T = some (.go S (T.push group)) := by
  rw [includesStep, hS, Option.bind_some, hT, Option.bind_some]
  cases x <;> first | rfl | cases hx

theorem step_plain (hS : S.get = some x) (hT : T.get = some y) (hx : x.isCap = false)
    (hy : y.isCap = false) : includesStep includes same fuel S T =
      if y.isContext && !x.isContext then some (.go S T.next)
      else
        match x with
        | .any => (skipZero fuel T).bind fun T =>
          T.get.map fun z => if z.multiplicity = .one then .go S.next T.next else .answer false
        | _ => (x.covers includes same y).map fun ok =>
          if ok then .go S.next T.next else .answer false := by
  rw [includesStep, hS, Option.bind_some, hT, Option.bind_some]
  split
  · cases hx
  · cases hy
  · rfl

theorem step_context (hS : S.get = some x) (hT : T.get = some y) (hx : x.isCap = false)
    (hctx : x.isContext = false) (hy : y.isContext = true) :
    includesStep includes same fuel S T = some (.go S T.next) := by
  have hcap : y.isCap = false := by
    cases y <;> first | rfl | cases hy
  rw [step_plain hS hT hx hcap, hy, hctx]
  rfl

theorem Meet.passes (h : Meet x y) : (y.isContext && !x.isContext) = false := by
  cases hy : y.isContext with
  | false => rfl
  | true =>
    rw [h.context hy]
    rfl

theorem step_any (hS : S.get = some .any) (hT : T.get = some y) (h : Meet .any y) :
    includesStep includes same fuel S T = (skipZero fuel T).bind fun T =>
      T.get.map fun z => if z.multiplicity = .one then .go S.next T.next else .answer false := by
  rw [step_plain hS hT h.left h.right, if_neg (Bool.eq_false_iff.1 h.passes)]

theorem step_node (hS : S.get = some x) (hT : T.get = some y) (h : Meet x y) (hx : x ≠ .any) :
    includesStep includes same fuel S T = (x.covers includes same y).map fun ok =>
      if ok then .go S.next T.next else .answer false := by
  rw [step_plain hS hT h.left h.right, if_neg (Bool.eq_false_iff.1 h.passes)]
  cases x with
  | any => exact absurd rfl hx
  | _ => rfl

end Step

theorem Compares.meet (h : Compares x y group group' below below') : Meet x y ∧ x ≠ .any := by
  cases h with
  | children => exact ⟨⟨rfl, rfl, fun h => h⟩, nofun⟩
  | rep => exact ⟨⟨rfl, rfl, fun h => h⟩, nofun⟩
  | opt => exact ⟨⟨rfl, rfl, fun h => h⟩, nofun⟩

theorem Compares.covers (h : Compares x y group group' below below')
    (includes : List Reified → List Reified → Option Bool) (same : Bool) :
    x.covers includes same y = (includes group group').bind fun ok =>
      if ok then includes below below' else some false := by
  cases h <;> rfl

theorem compares_or (same : Bool) (x y : Reified) :
    (∃ group group' below below', Compares x y group group' below below') ∨
      ∃ ok, ∀ includes, x.covers includes same y = some ok := by
  cases x with
  | children group below =>
    cases y with
    | children group' below' => exact .inl ⟨_, _, _, _, .children group below group' below'⟩
    | _ => exact .inr ⟨false, fun _ => rfl⟩
  | rep group =>
    cases y with
    | rep group' => exact .inl ⟨_, _, _, _, .rep group group'⟩
    | _ => exact .inr ⟨false, fun _ => rfl⟩
  | opt group =>
    cases y with
    | opt group' => exact .inl ⟨_, _, _, _, .opt group group'⟩
    | _ => exact .inr ⟨false, fun _ => rfl⟩
  | tokenMatch types => exact .inr ⟨_, fun _ => rfl⟩
  | inside types =>
    cases y with
    | inside types' => exact .inr ⟨_, fun _ => rfl⟩
    | _ => exact .inr ⟨false, fun _ => rfl⟩
  | insideStar types =>
    cases y with
    | insideStar types' => exact .inr ⟨_, fun _ => rfl⟩
    | _ => exact .inr ⟨false, fun _ => rfl⟩
  | first =>
    cases y with
    | first => exact .inr ⟨same, fun _ => rfl⟩
    | _ => exact .inr ⟨false, fun _ => rfl⟩
  | last =>
    cases y with
    | last => exact .inr ⟨same, fun _ => rfl⟩
    | _ => exact .inr ⟨false, fun _ => rfl⟩
  | _ => exact .inr ⟨false, fun _ => rfl⟩

def Walk.resume (same : Bool) (fuel : Nat) : Walk → Option Bool
  | .answer found => some found
  | .go S T => includesLoop same fuel S T

theorem loop_of_step {S T : StackedIterator} (hS : S.remaining = x :: xs)
    (hT : T.remaining = y :: ys) : includesLoop same (fuel + 1) S T =
      (includesStep (fun p q => includesLoop same fuel [p] [q]) same fuel S T).bind
        (Walk.resume same fuel) := by
  have hne : ¬ (S = [] ∨ T = []) := fun h => h.elim
    (StackedIterator.ne_nil_of_remaining hS) (StackedIterator.ne_nil_of_remaining hT)
  rw [includesLoop, if_neg hne]
  cases includesStep (fun p q => includesLoop same fuel [p] [q]) same fuel S T with
  | none => rfl
  | some walk => cases walk <;> rfl

theorem groupConforms_append (xs ys : List Reified) :
    groupConforms (xs ++ ys) = (groupConforms xs && groupConforms ys) := by
  induction xs with
  | nil => rfl
  | cons x xs ih => rw [List.cons_append, groupConforms, groupConforms, ih, Bool.and_assoc]

theorem Compares.conforms (h : Compares x y group group' below below') (hx : x.conforms = true)
    (hy : y.conforms = true) : patternWf group = true ∧ patternWf group' = true ∧
      patternWf below = true ∧ patternWf below' = true := by
  cases h with
  | children =>
    rw [Reified.conforms, Bool.and_eq_true] at hx hy
    exact ⟨hx.1, hy.1, hx.2, hy.2⟩
  | rep => exact ⟨hx, hy, hy, hx⟩
  | opt => exact ⟨hx, hy, hy, hx⟩

theorem patternWf_iff : patternWf group = true ↔ group ≠ [] ∧ groupConforms group = true := by
  rw [patternWf, Bool.and_eq_true, Bool.not_eq_true', List.isEmpty_eq_false_iff]

theorem groupConforms_cons : groupConforms (x :: xs) = true ↔
    x.conforms = true ∧ groupConforms xs = true := by
  rw [groupConforms, Bool.and_eq_true]

/-- Walks over the lists answer nothing else than whether the prefix is included, if anything. -/
def Answers (same : Bool) (xs ys : List Reified) (included : Bool) : Prop :=
  ∀ S T : StackedIterator, S.Whole → T.Whole → S.remaining = xs → T.remaining = ys → ∀ fuel,
    includesLoop same fuel S T = none ∨
      (included = true ∧ includesLoop same fuel S T = some true)

theorem Answers.single (h : Answers same group group' included) (hg : patternWf group = true)
    (hg' : patternWf group' = true) (fuel : Nat) :
    includesLoop same fuel [group] [group'] = none ∨
      (included = true ∧ includesLoop same fuel [group] [group'] = some true) :=
  h [group] [group'] (.single (patternWf_iff.1 hg).1) (.single (patternWf_iff.1 hg').1)
    (StackedIterator.remaining_single group) (StackedIterator.remaining_single group') fuel

theorem answers_of_aligns (h : Aligns same xs ys included) (hxs : groupConforms xs = true)
    (hys : groupConforms ys = true) : Answers same xs ys included := by
  induction h with
  | done =>
    intro S T hS hT hx hy fuel
    cases fuel with
    | zero => exact .inl rfl
    | succ fuel =>
      rw [hS.eq_nil hx]
      exact .inr ⟨rfl, rfl⟩
  | @prefixCap group xs y ys included name _ ih =>
    intro S T hS hT hx hy fuel
    cases fuel with
    | zero => exact .inl rfl
    | succ fuel =>
      obtain ⟨hcap, hrest⟩ := groupConforms_cons.1 hxs
      obtain ⟨hne, hgroup⟩ := patternWf_iff.1 hcap
      rw [loop_of_step hx hy, step_prefixCap (hS.get hx).1 (hT.get hy).1]
      have hconf : groupConforms (group ++ xs) = true := by
        rw [groupConforms_append, hgroup, hrest]
        rfl
      exact ih hconf hys _ _ (hS.push hne) hT (hS.remaining_push hx group) hy fuel
  | @patternCap x xs group ys included name hcap _ ih =>
    intro S T hS hT hx hy fuel
    cases fuel with
    | zero => exact .inl rfl
    | succ fuel =>
      obtain ⟨hconf, hrest⟩ := groupConforms_cons.1 hys
      obtain ⟨hne, hgroup⟩ := patternWf_iff.1 hconf
      rw [loop_of_step hx hy, step_patternCap (hS.get hx).1 (hT.get hy).1 hcap]
      have hconf : groupConforms (group ++ ys) = true := by
        rw [groupConforms_append, hgroup, hrest]
        rfl
      exact ih hxs hconf _ _ hS (hT.push hne) hx (hT.remaining_push hy group) fuel
  | context hcap hctx hskip _ ih =>
    intro S T hS hT hx hy fuel
    cases fuel with
    | zero => exact .inl rfl
    | succ fuel =>
      rw [loop_of_step hx hy, step_context (hS.get hx).1 (hT.get hy).1 hcap hctx hskip]
      exact ih hxs (groupConforms_cons.1 hys).2 _ _ hS hT.next hx (hT.remaining_next hy) fuel
  | @any y ys passed z rest xs included hmeet hsplit hzero hone _ ih =>
    intro S T hS hT hx hy fuel
    cases fuel with
    | zero => exact .inl rfl
    | succ fuel =>
      have hz : z.multiplicity ≠ .zero := by
        rw [hone]
        nofun
      obtain ⟨T', hT', hy', hskip⟩ := skipZero_stops hT (hy.trans hsplit) hzero hz
      rw [loop_of_step hx hy, step_any (hS.get hx).1 (hT.get hy).1 hmeet, hskip fuel]
      split
      · rw [Option.bind_some, (hT'.get hy').1, Option.map_some, if_pos hone]
        rw [hsplit, groupConforms_append, Bool.and_eq_true, groupConforms_cons] at hys
        exact ih (groupConforms_cons.1 hxs).2 hys.2.2 _ _ hS.next hT'.next (hS.remaining_next hx)
          (hT'.remaining_next hy') fuel
      · exact .inl rfl
  | exhausted hmeet hzero =>
    intro S T hS hT hx hy fuel
    cases fuel with
    | zero => exact .inl rfl
    | succ fuel =>
      rw [← hy] at hzero
      rw [loop_of_step hx hy, step_any (hS.get hx).1 (hT.get hy).1 hmeet,
        skipZero_exhausted hT hzero]
      exact .inl rfl
  | node hmeet hne hcovers _ ih =>
    intro S T hS hT hx hy fuel
    cases fuel with
    | zero => exact .inl rfl
    | succ fuel =>
      rw [loop_of_step hx hy, step_node (hS.get hx).1 (hT.get hy).1 hmeet hne, hcovers]
      exact ih (groupConforms_cons.1 hxs).2 (groupConforms_cons.1 hys).2 _ _ hS.next hT.next
        (hS.remaining_next hx) (hT.remaining_next hy) fuel
  | nested hcompares _ _ _ ih ih' ih'' =>
    intro S T hS hT hx hy fuel
    cases fuel with
    | zero => exact .inl rfl
    | succ fuel =>
      obtain ⟨hxc, hxs⟩ := groupConforms_cons.1 hxs
      obtain ⟨hyc, hys⟩ := groupConforms_cons.1 hys
      obtain ⟨hg, hg', hb, hb'⟩ := hcompares.conforms hxc hyc
      have hfirst := Answers.single (ih (patternWf_iff.1 hg).2 (patternWf_iff.1 hg').2) hg hg' fuel
      have hsecond := Answers.single (ih' (patternWf_iff.1 hb).2 (patternWf_iff.1 hb').2) hb hb' fuel
      rw [loop_of_step hx hy, step_node (hS.get hx).1 (hT.get hy).1 hcompares.meet.1
        hcompares.meet.2, hcompares.covers]
      rcases hfirst with hnone | ⟨-, htrue⟩
      · rw [hnone]
        exact .inl rfl
      rcases hsecond with hnone | ⟨-, htrue'⟩
      · rw [htrue, Option.bind_some, if_pos rfl, hnone]
        exact .inl rfl
      · rw [htrue, Option.bind_some, if_pos rfl, htrue']
        exact ih'' hxs hys _ _ hS.next hT.next (hS.remaining_next hx) (hT.remaining_next hy) fuel
  | nestedFirst hcompares _ ih =>
    intro S T hS hT hx hy fuel
    cases fuel with
    | zero => exact .inl rfl
    | succ fuel =>
      obtain ⟨hg, hg', -⟩ := hcompares.conforms (groupConforms_cons.1 hxs).1
        (groupConforms_cons.1 hys).1
      have hfirst := Answers.single (ih (patternWf_iff.1 hg).2 (patternWf_iff.1 hg').2) hg hg' fuel
      rw [loop_of_step hx hy, step_node (hS.get hx).1 (hT.get hy).1 hcompares.meet.1
        hcompares.meet.2, hcompares.covers, hfirst.resolve_right fun h => Bool.false_ne_true h.1]
      exact .inl rfl
  | nestedSecond hcompares _ _ ih ih' =>
    intro S T hS hT hx hy fuel
    cases fuel with
    | zero => exact .inl rfl
    | succ fuel =>
      obtain ⟨hg, hg', hb, hb'⟩ := hcompares.conforms (groupConforms_cons.1 hxs).1
        (groupConforms_cons.1 hys).1
      have hfirst := Answers.single (ih (patternWf_iff.1 hg).2 (patternWf_iff.1 hg').2) hg hg' fuel
      have hsecond := Answers.single (ih' (patternWf_iff.1 hb).2 (patternWf_iff.1 hb').2) hb hb' fuel
      rw [loop_of_step hx hy, step_node (hS.get hx).1 (hT.get hy).1 hcompares.meet.1
        hcompares.meet.2, hcompares.covers]
      rcases hfirst with hnone | ⟨-, htrue⟩
      · rw [hnone]
        exact .inl rfl
      · rw [htrue, Option.bind_some, if_pos rfl,
          hsecond.resolve_right fun h => Bool.false_ne_true h.1]
        exact .inl rfl

mutual

/-- The number of nodes that walks over the node come to. -/
def Reified.weight : Reified → Nat
  | .cap group _ | .opt group | .rep group => groupWeight group + 1
  | .children group below => groupWeight group + groupWeight below + 1
  | _ => 1

def groupWeight : List Reified → Nat
  | [] => 0
  | node :: rest => node.weight + groupWeight rest

end

theorem groupWeight_append (xs ys : List Reified) :
    groupWeight (xs ++ ys) = groupWeight xs + groupWeight ys := by
  induction xs with
  | nil => exact (Nat.zero_add _).symm
  | cons x xs ih => rw [List.cons_append, groupWeight, groupWeight, ih, Nat.add_assoc]

theorem weight_pos (x : Reified) : 0 < x.weight := by
  cases x <;> exact Nat.succ_pos _

theorem Compares.weight (h : Compares x y group group' below below') :
    groupWeight group + groupWeight group' < x.weight + y.weight ∧
      groupWeight below + groupWeight below' < x.weight + y.weight := by
  cases h with
  | children =>
    simp only [Reified.weight]
    omega
  | rep =>
    simp only [Reified.weight]
    omega
  | opt =>
    simp only [Reified.weight]
    omega

/-- Walks over the lists answer, with success only where the prefix is included, or they come to
an `Any` that is left with nothing. -/
def Settled (same : Bool) (S T : StackedIterator) (xs ys : List Reified) : Prop :=
  (∃ bound found, (∀ fuel, bound ≤ fuel → includesLoop same fuel S T = some found) ∧
    (found = true → Aligns same xs ys true)) ∨ Aligns same xs ys false

section Settled
variable {same : Bool} {S T S' T' : StackedIterator}

/-- An iteration that goes on. -/
theorem Settled.go (h : Settled same S' T' xs' ys') (hS : S.remaining = x :: xs)
    (hT : T.remaining = y :: ys)
    (hstep : ∀ fuel, bound ≤ fuel →
      includesStep (fun p q => includesLoop same fuel [p] [q]) same fuel S T = some (.go S' T'))
    (haligns : ∀ included, Aligns same xs' ys' included → Aligns same (x :: xs) (y :: ys) included) :
    Settled same S T (x :: xs) (y :: ys) := by
  rcases h with ⟨bound', found, hloop, hfound⟩ | hexhausted
  · refine .inl ⟨max bound bound' + 1, found, ?_, fun h => haligns true (hfound h)⟩
    intro fuel hfuel
    cases fuel with
    | zero => exact absurd hfuel (Nat.not_succ_le_zero _)
    | succ fuel =>
      have hmax := Nat.max_le.1 (Nat.le_of_succ_le_succ hfuel)
      rw [loop_of_step hS hT, hstep fuel hmax.1]
      exact hloop fuel hmax.2
  · exact .inr (haligns false hexhausted)

/-- An iteration that ends the walk without success. -/
theorem Settled.answer (hS : S.remaining = x :: xs) (hT : T.remaining = y :: ys)
    (hstep : ∀ fuel, bound ≤ fuel →
      includesStep (fun p q => includesLoop same fuel [p] [q]) same fuel S T =
        some (.answer false)) : Settled same S T (x :: xs) (y :: ys) := by
  refine .inl ⟨bound + 1, false, ?_, nofun⟩
  intro fuel hfuel
  cases fuel with
  | zero => exact absurd hfuel (Nat.not_succ_le_zero _)
  | succ fuel =>
    rw [loop_of_step hS hT, hstep fuel (Nat.le_of_succ_le_succ hfuel)]
    rfl

end Settled

theorem zero_or_first (ys : List Reified) : (∀ w ∈ ys, w.multiplicity = .zero) ∨
    ∃ passed z rest, ys = passed ++ z :: rest ∧ (∀ w ∈ passed, w.multiplicity = .zero) ∧
      z.multiplicity ≠ .zero := by
  induction ys with
  | nil => exact .inl fun _ h => nomatch h
  | cons y ys ih =>
    by_cases hy : y.multiplicity = .zero
    · rcases ih with hzero | ⟨passed, z, rest, rfl, hzero, hz⟩
      · exact .inl (List.forall_mem_cons.2 ⟨hy, hzero⟩)
      · exact .inr ⟨y :: passed, z, rest, rfl, List.forall_mem_cons.2 ⟨hy, hzero⟩, hz⟩
    · exact .inr ⟨[], y, ys, rfl, (fun _ h => nomatch h), hy⟩

def SettledUpTo (same : Bool) (n : Nat) : Prop :=
  ∀ xs ys, groupWeight xs + groupWeight ys < n → groupConforms xs = true →
    groupConforms ys = true → ∀ S T : StackedIterator, S.Whole → T.Whole → S.remaining = xs →
      T.remaining = ys → Settled same S T xs ys

section Cases
variable {same : Bool} {n : Nat} {S T : StackedIterator} {x y : Reified} {xs ys : List Reified}

theorem SettledUpTo.single (h : SettledUpTo same n) (hg : patternWf group = true)
    (hg' : patternWf group' = true) (hn : groupWeight group + groupWeight group' < n) :
    Settled same [group] [group'] group group' :=
  h group group' hn (patternWf_iff.1 hg).2 (patternWf_iff.1 hg').2 [group] [group']
    (.single (patternWf_iff.1 hg).1) (.single (patternWf_iff.1 hg').1)
    (StackedIterator.remaining_single group) (StackedIterator.remaining_single group')

theorem settled_any (h : SettledUpTo same n)
    (hn : groupWeight (.any :: xs) + groupWeight (y :: ys) ≤ n)
    (hxs : groupConforms xs = true) (hys : groupConforms (y :: ys) = true) (hS : S.Whole)
    (hT : T.Whole) (hx : S.remaining = .any :: xs) (hy : T.remaining = y :: ys)
    (hmeet : Meet .any y) : Settled same S T (.any :: xs) (y :: ys) := by
  have hSget := (hS.get hx).1
  have hTget := (hT.get hy).1
  rcases zero_or_first (y :: ys) with hzero | ⟨passed, z, rest, hsplit, hzero, hz⟩
  · exact .inr (.exhausted hmeet hzero)
  obtain ⟨T', hT', hy', hskip⟩ := skipZero_stops hT (hy.trans hsplit) hzero hz
  have hstep : ∀ fuel, passed.length + 1 ≤ fuel →
      includesStep (fun p q => includesLoop same fuel [p] [q]) same fuel S T =
        some (if z.multiplicity = .one then .go S.next T'.next else .answer false) := by
    intro fuel hfuel
    have hlt : passed.length < fuel := hfuel
    rw [step_any hSget hTget hmeet, hskip fuel, if_pos hlt, Option.bind_some, (hT'.get hy').1]
    rfl
  by_cases hone : z.multiplicity = .one
  · simp only [if_pos hone] at hstep
    rw [hsplit, groupConforms_append, Bool.and_eq_true, groupConforms_cons] at hys
    rw [hsplit, groupWeight_append, groupWeight, groupWeight] at hn
    have hpos := weight_pos .any
    refine Settled.go (h xs rest (by omega) hxs hys.2.2 _ _ hS.next hT'.next
      (hS.remaining_next hx) (hT'.remaining_next hy')) hx hy hstep ?_
    exact fun included hrest => .any hmeet hsplit hzero hone hrest
  · simp only [if_neg hone] at hstep
    exact Settled.answer hx hy hstep

theorem settled_nested (h : SettledUpTo same n)
    (hn : groupWeight (x :: xs) + groupWeight (y :: ys) ≤ n)
    (hxs : groupConforms (x :: xs) = true) (hys : groupConforms (y :: ys) = true) (hS : S.Whole)
    (hT : T.Whole) (hx : S.remaining = x :: xs) (hy : T.remaining = y :: ys)
    (hcompares : Compares x y group group' below below') :
    Settled same S T (x :: xs) (y :: ys) := by
  obtain ⟨hxc, hxs⟩ := groupConforms_cons.1 hxs
  obtain ⟨hyc, hys⟩ := groupConforms_cons.1 hys
  obtain ⟨hg, hg', hb, hb'⟩ := hcompares.conforms hxc hyc
  obtain ⟨hweight, hweight'⟩ := hcompares.weight
  rw [groupWeight, groupWeight] at hn
  have hstep : ∀ fuel ok, ((includesLoop same fuel [group] [group']).bind fun ok =>
        if ok then includesLoop same fuel [below] [below'] else some false) = some ok →
      includesStep (fun p q => includesLoop same fuel [p] [q]) same fuel S T =
        some (if ok then .go S.next T.next else .answer false) := by
    intro fuel ok hok
    rw [step_node (hS.get hx).1 (hT.get hy).1 hcompares.meet.1 hcompares.meet.2,
      hcompares.covers, hok]
    rfl
  rcases h.single hg hg' (by omega) with ⟨bound, found, hfirst, halign⟩ | hexhausted
  · cases found with
    | false =>
      have hfalse : ∀ fuel, bound ≤ fuel →
          includesStep (fun p q => includesLoop same fuel [p] [q]) same fuel S T =
            some (.answer false) := by
        intro fuel hfuel
        apply hstep fuel false
        rw [hfirst fuel hfuel]
        rfl
      exact Settled.answer hx hy hfalse
    | true =>
      rcases h.single hb hb' (by omega) with ⟨bound', found, hsecond, halign'⟩ | hexhausted
      · have hboth : ∀ fuel, max bound bound' ≤ fuel →
            includesStep (fun p q => includesLoop same fuel [p] [q]) same fuel S T =
              some (if found then .go S.next T.next else .answer false) := by
          intro fuel hfuel
          have hmax := Nat.max_le.1 hfuel
          apply hstep fuel found
          rw [hfirst fuel hmax.1]
          exact hsecond fuel hmax.2
        cases found with
        | false => exact Settled.answer hx hy hboth
        | true =>
          refine Settled.go (h xs ys (by omega) hxs hys _ _ hS.next hT.next (hS.remaining_next hx)
            (hT.remaining_next hy)) hx hy hboth ?_
          exact fun included hrest => .nested hcompares (halign rfl) (halign' rfl) hrest
      · exact .inr (.nestedSecond hcompares (halign rfl) hexhausted)
  · exact .inr (.nestedFirst hcompares hexhausted)

theorem settled_node (h : SettledUpTo same n)
    (hn : groupWeight (x :: xs) + groupWeight (y :: ys) ≤ n)
    (hxs : groupConforms xs = true) (hys : groupConforms ys = true) (hS : S.Whole)
    (hT : T.Whole) (hx : S.remaining = x :: xs) (hy : T.remaining = y :: ys)
    (hmeet : Meet x y) (hne : x ≠ .any) (hcovers : ∀ includes, x.covers includes same y = some ok) :
    Settled same S T (x :: xs) (y :: ys) := by
  have hstep : ∀ fuel, 0 ≤ fuel →
      includesStep (fun p q => includesLoop same fuel [p] [q]) same fuel S T =
        some (if ok then .go S.next T.next else .answer false) := by
    intro fuel _
    rw [step_node (hS.get hx).1 (hT.get hy).1 hmeet hne, hcovers]
    rfl
  have hpos := weight_pos x
  rw [groupWeight, groupWeight] at hn
  cases ok with
  | false => exact Settled.answer hx hy hstep
  | true =>
    refine Settled.go (h xs ys (by omega) hxs hys _ _ hS.next hT.next (hS.remaining_next hx)
      (hT.remaining_next hy)) hx hy hstep ?_
    exact fun included hrest => .node hmeet hne hcovers hrest

end Cases

theorem settledUpTo (same : Bool) (n : Nat) : SettledUpTo same n := by
  induction n with
  | zero =>
    intro xs ys hn
    exact absurd hn (Nat.not_lt_zero _)
  | succ n ih =>
    intro xs ys hn hxs hys S T hS hT hx hy
    have hn := Nat.le_of_lt_succ hn
    cases xs with
    | nil =>
      refine .inl ⟨1, true, ?_, fun _ => .done⟩
      intro fuel hfuel
      obtain ⟨fuel, rfl⟩ := Nat.exists_eq_add_of_le' hfuel
      rw [hS.eq_nil hx]
      rfl
    | cons x xs =>
      cases ys with
      | nil =>
        refine .inl ⟨1, false, ?_, nofun⟩
        intro fuel hfuel
        obtain ⟨fuel, rfl⟩ := Nat.exists_eq_add_of_le' hfuel
        rw [hT.eq_nil hy, includesLoop, if_pos (.inr rfl),
          decide_eq_false (StackedIterator.ne_nil_of_remaining hx)]
      | cons y ys =>
        have hx₀ := (hS.get hx).1
        have hy₀ := (hT.get hy).1
        obtain ⟨hxc, hxr⟩ := groupConforms_cons.1 hxs
        obtain ⟨hyc, hyr⟩ := groupConforms_cons.1 hys
        have hpos := weight_pos y
        cases hxcap : x.isCap with
        | true =>
          obtain ⟨group, name, rfl⟩ : ∃ group name, x = .cap group name := by
            cases x <;> first | exact ⟨_, _, rfl⟩ | cases hxcap
          obtain ⟨hne, hgroup⟩ := patternWf_iff.1 hxc
          have hconf : groupConforms (group ++ xs) = true := by
            rw [groupConforms_append, hgroup, hxr]
            rfl
          have hlt : groupWeight (group ++ xs) + groupWeight (y :: ys) < n := by
            rw [groupWeight, Reified.weight] at hn
            rw [groupWeight_append]
            omega
          exact Settled.go (ih _ _ hlt hconf hys _ _ (hS.push hne) hT (hS.remaining_push hx group)
            hy) hx hy (fun fuel (_ : 0 ≤ fuel) => step_prefixCap hx₀ hy₀) fun _ => .prefixCap
        | false =>
          cases hycap : y.isCap with
          | true =>
            obtain ⟨group, name, rfl⟩ : ∃ group name, y = .cap group name := by
              cases y <;> first | exact ⟨_, _, rfl⟩ | cases hycap
            obtain ⟨hne, hgroup⟩ := patternWf_iff.1 hyc
            have hconf : groupConforms (group ++ ys) = true := by
              rw [groupConforms_append, hgroup, hyr]
              rfl
            have hlt : groupWeight (x :: xs) + groupWeight (group ++ ys) < n := by
              rw [groupWeight, groupWeight, Reified.weight] at hn
              rw [groupWeight_append, groupWeight]
              omega
            exact Settled.go (ih _ _ hlt hxs hconf _ _ hS (hT.push hne) hx
              (hT.remaining_push hy group)) hx hy
              (fun fuel (_ : 0 ≤ fuel) => step_patternCap hx₀ hy₀ hxcap) fun _ => .patternCap hxcap
          | false =>
            by_cases hpass : y.isContext = true ∧ x.isContext = false
            · have hlt : groupWeight (x :: xs) + groupWeight ys < n := by
                rw [groupWeight, groupWeight] at hn
                rw [groupWeight]
                omega
              exact Settled.go (ih _ _ hlt hxs hyr _ _ hS hT.next hx (hT.remaining_next hy)) hx hy
                (fun fuel (_ : 0 ≤ fuel) => step_context hx₀ hy₀ hxcap hpass.2 hpass.1)
                fun _ => .context hxcap hpass.2 hpass.1
            have hmeet : Meet x y := by
              refine ⟨hxcap, hycap, fun hctx => ?_⟩
              by_contra hx
              exact hpass ⟨hctx, Bool.eq_false_iff.2 hx⟩
            by_cases hany : x = .any
            · subst hany
              exact settled_any ih hn hxr hys hS hT hx hy hmeet
            rcases compares_or same x y with ⟨_, _, _, _, hcompares⟩ | ⟨ok, hcovers⟩
            · exact settled_nested ih hn hxs hys hS hT hx hy hcompares
            · exact settled_node ih hn hxr hyr hS hT hx hy hmeet hany hcovers

theorem not_aligns_of_answer (hpref : patternWf pref = true) (hpattern : patternWf pattern = true)
    (h : includesPrefix same fuel pref pattern = some found) : ¬ Aligns same pref pattern false := by
  intro hexhausted
  have hanswers := answers_of_aligns hexhausted (patternWf_iff.1 hpref).2
    (patternWf_iff.1 hpattern).2
  have hnone := (hanswers.single hpref hpattern fuel).resolve_right fun h =>
    Bool.false_ne_true h.1
  rw [includesPrefix, hnone] at h
  cases h

/-- The test for shadowing ends and stays within the patterns exactly where no walk that it makes
comes to an `Any` of the prefix with nothing left but nodes that match nothing. -/
theorem includesPrefix_iff (same : Bool) (pref pattern : List Reified)
    (hpref : patternWf pref = true) (hpattern : patternWf pattern = true) :
    (∃ bound found, ∀ fuel, bound ≤ fuel → includesPrefix same fuel pref pattern = some found) ↔
      ¬ Aligns same pref pattern false := by
  constructor
  · intro hanswer
    obtain ⟨bound, found, hloop⟩ := hanswer
    exact not_aligns_of_answer hpref hpattern (hloop bound (Nat.le_refl _))
  · intro hsafe
    have hsettled := (settledUpTo same _).single hpref hpattern (Nat.lt_succ_self _)
    obtain ⟨bound, found, hloop, -⟩ := hsettled.resolve_right hsafe
    exact ⟨bound, found, hloop⟩

/-- `Any` against `++Any * Any`. -/
theorem includesPrefix_behind : ∃ bound found, ∀ fuel, bound ≤ fuel →
    includesPrefix false fuel [.any] [.pred [.any], .any] = some found := by
  have hanswer : includesPrefix false 4 [.any] [.pred [.any], .any] = some true := by decide
  have hpattern : patternWf [.pred [.any], .any] = true := by decide
  exact (includesPrefix_iff false [.any] _ (by decide) hpattern).2
    (not_aligns_of_answer (by decide) hpattern hanswer)

/-- `Any` against `++Any`, where the walk goes on behind the only node of the pattern. -/
theorem includesPrefix_exhausted : patternWf [.any] = true ∧ patternWf [.pred [.any]] = true ∧
    ∀ fuel, includesPrefix false fuel [.any] [.pred [.any]] = none := by
  have hany : patternWf [.any] = true := by decide
  have hpred : patternWf [.pred [.any]] = true := by decide
  have hexhausted : Aligns false [.any] [.pred [.any]] false :=
    .exhausted ⟨rfl, rfl, nofun⟩ (List.forall_mem_singleton.2 rfl)
  refine ⟨hany, hpred, fun fuel => ?_⟩
  have hanswers := answers_of_aligns hexhausted (patternWf_iff.1 hany).2 (patternWf_iff.1 hpred).2
  exact (hanswers.single hany hpred fuel).resolve_right fun h => Bool.false_ne_true h.1

end Trieste
