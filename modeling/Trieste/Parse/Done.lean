import Mathlib.Data.List.TakeWhile
import Trieste.Parse.Steps

namespace Trieste
set_option autoImplicit true
open Relation

namespace Make

/-- How many open groups right below the root are nested inside each other. -/
def groupsAtRoot (ts : List Token) : Nat := (ts.reverse.takeWhile (· == .group)).length

/-- Where the loop of `done` gets to the root, given the types of the open nodes below it. -/
def Ends (ts : List Token) : Prop :=
  if ∀ t ∈ ts, t = .group then ts.length % 3 ≠ 1 else groupsAtRoot ts % 3 ≠ 2

theorem groupsAtRoot_of_groups (h : ∀ t ∈ ts, t = .group) : groupsAtRoot ts = ts.length := by
  have hall : ∀ t ∈ ts.reverse, (t == Token.group) = true := by
    intro t ht
    exact beq_iff_eq.2 (h t (List.mem_reverse.1 ht))
  rw [groupsAtRoot, List.takeWhile_eq_self_iff.2 hall, List.length_reverse]

theorem groupsAtRoot_cons (h : t ≠ .group ∨ ¬ ∀ t ∈ ts, t = .group) :
    groupsAtRoot (t :: ts) = groupsAtRoot ts := by
  rw [groupsAtRoot, groupsAtRoot, List.reverse_cons, List.takeWhile_append]
  split
  · next hall =>
    have hgroups : ∀ t ∈ ts, t = .group := by
      intro t ht
      have hself := List.takeWhile_eq_self_iff.1
        ((List.takeWhile_prefix _).eq_of_length hall) t (List.mem_reverse.2 ht)
      exact beq_iff_eq.1 hself
    have ht : (t == Token.group) = false :=
      beq_eq_false_iff_ne.2 (h.resolve_right (not_not_intro hgroups))
    simp [ht, hall]
  · rfl

theorem length_dropGroup_le (ts : List Token) : (dropGroup ts).length ≤ ts.length := by
  unfold dropGroup
  split
  · rw [List.length_tail]
    exact Nat.sub_le _ _
  · exact Nat.le_refl _

theorem length_dropGroup_lt {us : List Token} (hdrop : dropGroup ts = u :: us)
    (hfuel : ts.length < fuel + 1) : (dropGroup us).length < fuel := by
  have hts := length_dropGroup_le ts
  have hus := length_dropGroup_le us
  rw [hdrop, List.length_cons] at hts
  omega

theorem ends_dropGroup (ts : List Token) : Ends (dropGroup ts) ↔ groupsAtRoot ts % 3 ≠ 2 := by
  cases ts with
  | nil =>
    exact iff_of_true (by simp [Ends, dropGroup]) (by simp [groupsAtRoot])
  | cons t ts =>
    by_cases ht : t = .group
    · have hdrop : dropGroup (t :: ts) = ts := if_pos ht
      rw [hdrop, Ends]
      split
      · next hall =>
        have hall' : ∀ u ∈ t :: ts, u = .group := List.forall_mem_cons.2 ⟨ht, hall⟩
        rw [groupsAtRoot_of_groups hall', List.length_cons]
        omega
      · next hall => rw [groupsAtRoot_cons (.inr hall)]
    · have hdrop : dropGroup (t :: ts) = t :: ts := if_neg ht
      have hall : ¬ ∀ u ∈ t :: ts, u = .group := fun hall => ht (hall t List.mem_cons_self)
      rw [hdrop, Ends, if_neg hall]

theorem ends_round (hne : ts ≠ []) :
    Ends ts ↔ ∃ t ts', dropGroup ts = t :: ts' ∧ Ends (dropGroup ts') := by
  cases ts with
  | nil => exact absurd rfl hne
  | cons t ts =>
    by_cases ht : t = .group
    · have hdrop : dropGroup (t :: ts) = ts := if_pos ht
      rw [hdrop]
      cases ts with
      | nil =>
        apply iff_of_false
        · simp [Ends, ht]
        · simp
      | cons u ts =>
        have hround : (∃ t ts', u :: ts = t :: ts' ∧ Ends (dropGroup ts')) ↔
            groupsAtRoot ts % 3 ≠ 2 := by
          rw [← ends_dropGroup]
          constructor
          · intro h
            obtain ⟨_, _, heq, h⟩ := h
            rw [(List.cons.inj heq).2]
            exact h
          · intro h
            exact ⟨u, ts, rfl, h⟩
        rw [hround, Ends]
        split
        · next hall =>
          have hall' : ∀ t ∈ ts, t = .group := fun v hv =>
            hall v (List.mem_cons_of_mem _ (List.mem_cons_of_mem _ hv))
          rw [groupsAtRoot_of_groups hall', List.length_cons, List.length_cons]
          omega
        · next hall =>
          have hrest : u ≠ .group ∨ ¬ ∀ t ∈ ts, t = .group := by
            by_contra hno
            rw [not_or, not_not, not_not] at hno
            exact hall (List.forall_mem_cons.2 ⟨ht, List.forall_mem_cons.2 hno⟩)
          have hrest' : ¬ ∀ t ∈ u :: ts, t = .group := by
            intro hno
            exact hall (List.forall_mem_cons.2 ⟨ht, hno⟩)
          rw [groupsAtRoot_cons (.inr hrest'), groupsAtRoot_cons hrest]
    · have hdrop : dropGroup (t :: ts) = t :: ts := if_neg ht
      have hall : ¬ ∀ u ∈ t :: ts, u = .group := fun hall => ht (hall t List.mem_cons_self)
      rw [hdrop, Ends, if_neg hall, groupsAtRoot_cons (.inl ht), ← ends_dropGroup]
      constructor
      · intro h
        exact ⟨t, ts, rfl, h⟩
      · intro h
        obtain ⟨_, _, heq, h⟩ := h
        rw [(List.cons.inj heq).2]
        exact h

namespace Built

theorem popAll_group (ts : List Token) : popAll [.group] ts = some (dropGroup ts) := by
  rw [popAll, dropGroup]
  split
  · next hgroup =>
    cases ts with
    | nil => exact absurd hgroup (by decide)
    | cons t ts => rfl
  · rfl

theorem term (h : Built m ns ts) : ∃ m' ns', m.term [] = .ok m' ∧ Built m' ns' (dropGroup ts) :=
  h.tryPopAll (popAll_group ts)

theorem term_null {m : Make} (h : m.node = none) (types : List Token) : m.term types = .error .nullNode := by
  rw [Make.term, Make.tryPopAll, Make.tryPop, Make.isIn, Make.deref, h]
  rfl

theorem closeNodes_root (h : Built m [] []) : Make.closeNodes (fuel + 1) m = .ok m := by
  have hnone := h.opened.parent_top
  rw [Make.closeNodes, h.deref]
  simp only [bind, Except.bind, List.headD_nil, hnone]
  rfl

theorem closeNodes_round (h : Built m (n :: ns) (t :: ts)) : ∃ m' ns',
    Built m' ns' (dropGroup (t :: ts)) ∧ ∀ fuel, Make.closeNodes (fuel + 1) m =
      ({ m' with node := (m'.heap.get (ns'.headD m'.top)).parent }.term []).bind
        (Make.closeNodes fuel) := by
  obtain ⟨hparent, -⟩ := h.leave
  obtain ⟨m₁, happend, h₁⟩ := h.appendError (m.heap.get n).location "this is unclosed"
  obtain ⟨m₂, ns₂, hterm, h₂⟩ := h₁.term
  refine ⟨m₂, ns₂, h₂, fun fuel => ?_⟩
  rw [Make.closeNodes, h.deref]
  simp only [bind, Except.bind, List.headD_cons, hparent, happend, hterm, h₂.deref]

theorem closeNodes (h : Built m ns ts) (hfuel : ts.length < fuel) (hends : Ends ts) :
    ∃ m', Make.closeNodes fuel m = .ok m' ∧ Built m' [] [] := by
  induction fuel generalizing m ns ts with
  | zero => cases hfuel
  | succ fuel ih =>
    rcases ts with _ | ⟨t, ts⟩
    · obtain rfl := h.nil_iff.2 rfl
      exact ⟨m, h.closeNodes_root, h⟩
    rcases ns with _ | ⟨n, ns⟩
    · cases h.nil_iff.1 rfl
    obtain ⟨m₁, ns₁, h₁, hround⟩ := h.closeNodes_round
    obtain ⟨u, us, hdrop, hends'⟩ := (ends_round (List.cons_ne_nil t ts)).1 hends
    rw [hdrop] at h₁
    rcases ns₁ with _ | ⟨n₁, ns₁⟩
    · cases h₁.nil_iff.1 rfl
    obtain ⟨m₂, ns₂, hterm, h₂⟩ := h₁.leave.2.term
    have hlen : (dropGroup us).length < fuel := length_dropGroup_lt hdrop hfuel
    obtain ⟨m₃, hclose, h₃⟩ := ih h₂ hlen hends'
    refine ⟨m₃, ?_, h₃⟩
    rw [hround]
    simp only [List.headD_cons, hterm]
    exact hclose

theorem lost_closeNodes (h : Built m ns ts) (hfuel : ts.length < fuel) (hends : ¬ Ends ts) :
    Make.closeNodes fuel m = .error .nullNode := by
  induction fuel generalizing m ns ts with
  | zero => cases hfuel
  | succ fuel ih =>
    rcases ts with _ | ⟨t, ts⟩
    · exact absurd (by simp [Ends]) hends
    rcases ns with _ | ⟨n, ns⟩
    · cases h.nil_iff.1 rfl
    obtain ⟨m₁, ns₁, h₁, hround⟩ := h.closeNodes_round
    rw [ends_round (List.cons_ne_nil t ts)] at hends
    rw [hround]
    cases hdrop : dropGroup (t :: ts) with
    | nil =>
      rw [hdrop] at h₁
      obtain rfl := h₁.nil_iff.2 rfl
      rw [term_null h₁.opened.parent_top]
      rfl
    | cons u us =>
      rw [hdrop] at h₁
      rcases ns₁ with _ | ⟨n₁, ns₁⟩
      · cases h₁.nil_iff.1 rfl
      obtain ⟨m₂, ns₂, hterm, h₂⟩ := h₁.leave.2.term
      have hlen : (dropGroup us).length < fuel := length_dropGroup_lt hdrop hfuel
      have hclose := ih h₂ hlen fun hends' => hends ⟨u, us, hdrop, hends'⟩
      simp only [List.headD_cons, hterm]
      exact hclose

theorem length_lt (h : Built m ns ts) : ts.length < m.heap.nodes.length := by
  rw [← h.typed, List.length_map]
  exact h.opened.length_lt h.bound

/-- `done` returns the root of all nodes. -/
theorem done (h : Built m ns ts) (hgroups : groupsAtRoot ts % 3 ≠ 2) :
    ∃ m', m.done = .ok (m', 0) ∧ Built m' [] [] := by
  obtain ⟨m₁, ns₁, hterm, h₁⟩ := h.term
  obtain ⟨m₂, hclose, h₂⟩ := h₁.closeNodes h₁.length_lt ((ends_dropGroup ts).2 hgroups)
  refine ⟨m₂, ?_, h₂⟩
  rw [Make.done, hterm]
  have hnode : m₂.node = some 0 := by
    rw [h₂.node, List.headD_nil, h₂.first]
  simp only [bind, Except.bind, hclose, h₂.first, hnode]
  rfl

theorem lost_done (h : Built m ns ts) (hgroups : groupsAtRoot ts % 3 = 2) :
    m.done = .error .nullNode := by
  obtain ⟨m₁, ns₁, hterm, h₁⟩ := h.term
  have hends : ¬ Ends (dropGroup ts) := fun hends => (ends_dropGroup ts).1 hends hgroups
  have hclose := h₁.lost_closeNodes h₁.length_lt hends
  rw [Make.done, hterm]
  simp only [bind, Except.bind, hclose]

theorem perform {op : MakeOp} (h : Built m ns ts) (reMatch : Nat → Location) (hkept : op.KeepsRoot ts) :
    Steady (op.perform reMatch m) ∨ ∃ what, op.perform reMatch m = .error (.thrown what) := by
  cases op with
  | error msg location => exact .inl (h.error reMatch msg location).steady
  | add type index =>
    obtain ⟨m', ns', hadd, h', -⟩ := h.add reMatch type index
    exact .inl ⟨m', ns', _, hadd, h'⟩
  | seq type skip => exact .inl (h.seq reMatch type hkept)
  | push type index => exact .inl (h.push reMatch type index).steady
  | pop =>
    rw [MakeOp.perform, h.pop_eq]
    split
    · exact .inr ⟨_, rfl⟩
    · exact .inl (h.popType reMatch fun hnil => absurd hnil hkept)
  | popType type => exact .inl (h.popType reMatch hkept)
  | term types =>
    obtain ⟨ts', hpop⟩ := Option.ne_none_iff_exists'.1 hkept
    obtain ⟨m', ns', hterm, h'⟩ := h.tryPopAll hpop
    exact .inl ⟨m', ns', ts', hterm, h'⟩
  | extendBefore type => exact .inl (h.extendBefore reMatch type)
  | extend type index =>
    rcases h.extend reMatch type index with h | h
    · exact .inl h.steady
    · exact .inl h.steady
  | invalid =>
    rcases h.invalid reMatch with h | h
    · exact .inl h.steady
    · exact .inl h.steady

theorem lost_perform {op : MakeOp} (h : Built m ns ts) (reMatch : Nat → Location) (hlost : ¬ op.KeepsRoot ts) :
    Lost (op.perform reMatch m) := by
  cases op with
  | pop =>
    obtain rfl : ts = [] := not_not.1 hlost
    obtain rfl := h.nil_iff.2 rfl
    rw [MakeOp.perform, h.pop_eq, if_neg (by decide)]
    exact h.lost_popType reMatch
  | popType type =>
    obtain ⟨hnil, hfile⟩ := Classical.not_imp.1 hlost
    obtain rfl := hnil
    obtain rfl := h.nil_iff.2 rfl
    obtain rfl := not_not.1 hfile
    exact h.lost_popType reMatch
  | term types => exact h.lost_tryPopAll (not_not.1 hlost)
  | seq type skip =>
    apply h.lost_seq reMatch type
    intro t ht
    by_contra hout
    exact hlost ⟨t, ht, hout⟩
  | _ => exact absurd trivial hlost

end Built

theorem perform_null {m : Make} (h : m.node = none) (reMatch : Nat → Location) (op : MakeOp) :
    op.perform reMatch m = .error .nullNode := by
  have hderef : m.deref = .error .nullNode := by rw [Make.deref, h]
  have hin : ∀ type, m.isIn type = .error .nullNode := by
    intro type
    rw [Make.isIn, hderef]
    rfl
  have hopen : m.openGroup reMatch = .error .nullNode := by
    rw [Make.openGroup, hin]
    rfl
  have hadd : ∀ type index, m.add reMatch type index = .error .nullNode := by
    intro type index
    by_cases hgroup : type = .group
    · subst hgroup
      have happend : m.add reMatch .group index = m.append .group (reMatch index) := rfl
      rw [happend, Make.append.eq_def, hderef]
      rfl
    · rw [Make.add, if_neg hgroup, hopen]
      rfl
  cases op with
  | error msg location =>
    rw [MakeOp.perform, Make.error, hopen]
    rfl
  | add type index => exact hadd type index
  | seq type skip =>
    rw [MakeOp.perform, Make.seq, hopen]
    rfl
  | push type index =>
    rw [MakeOp.perform, Make.push, hadd]
    rfl
  | pop =>
    rw [MakeOp.perform, Make.pop, hin]
    rfl
  | popType type =>
    rw [MakeOp.perform, Make.popType, Make.tryPop, hin]
    rfl
  | term types => exact Built.term_null h types
  | extendBefore type =>
    rw [MakeOp.perform, Make.extendBefore, hderef]
    rfl
  | extend type index =>
    rw [MakeOp.perform, Make.extend, hderef]
    rfl
  | invalid =>
    rw [MakeOp.perform, Make.invalid, Make.extend, Make.deref, h]
    rfl

/-- The operations that rules issue, each with the locations of its match. -/
def run (m : Make) : List ((Nat → Location) × MakeOp) → Except Fault Make
  | [] => .ok m
  | (reMatch, op) :: ops => do
    let m ← op.perform reMatch m
    m.run ops

/-- An operation throws an exception, or `done` returns the root of all nodes. -/
def Closes (m : Make) (ops : List ((Nat → Location) × MakeOp)) : Prop :=
  (∃ what, m.run ops = .error (.thrown what)) ∨
    ∃ m₁ m₂, m.run ops = .ok m₁ ∧ m₁.done = .ok (m₂, m.top) ∧
      ∀ n < m₂.heap.nodes.length, m₂.heap.InTree m.top n

/-- No operation leaves the root, and the groups that are open right below the root in the end can
be closed. -/
def RootKept (m : Make) : List ((Nat → Location) × MakeOp) → Prop
  | [] => groupsAtRoot m.openTypes % 3 ≠ 2
  | (reMatch, op) :: ops =>
    op.KeepsRoot m.openTypes ∧ ∀ m', op.perform reMatch m = .ok m' → m'.RootKept ops

theorem run_null {m : Make} (h : m.node = none) (ops : List ((Nat → Location) × MakeOp)) :
    m.run ops = .error .nullNode ∨ ∃ m', m.run ops = .ok m' ∧ m'.done = .error .nullNode := by
  cases ops with
  | nil =>
    refine .inr ⟨m, rfl, ?_⟩
    rw [Make.done, Built.term_null h]
    rfl
  | cons op ops =>
    obtain ⟨reMatch, op⟩ := op
    refine .inl ?_
    rw [Make.run, perform_null h]
    rfl

theorem not_closes {m : Make} (h : m.run ops = .error .nullNode ∨
    ∃ m', m.run ops = .ok m' ∧ m'.done = .error .nullNode) : ¬ m.Closes ops := by
  intro hcloses
  rcases h with hrun | ⟨m', hrun, hdone⟩
  · rcases hcloses with ⟨what, hthrown⟩ | ⟨m₁, m₂, hok, -⟩
    · rw [hrun] at hthrown
      cases hthrown
    · rw [hrun] at hok
      cases hok
  · rcases hcloses with ⟨what, hthrown⟩ | ⟨m₁, m₂, hok, hret, -⟩
    · rw [hrun] at hthrown
      cases hthrown
    · rw [hrun] at hok
      cases hok
      rw [hdone] at hret
      cases hret

theorem not_closes_of_lost {m : Make} (h : Lost (op.perform reMatch m))
    (ops : List ((Nat → Location) × MakeOp)) : ¬ m.Closes ((reMatch, op) :: ops) := by
  apply not_closes
  rcases h with hperform | ⟨m', hperform, hnode⟩
  · refine .inl ?_
    rw [Make.run, hperform]
    rfl
  · have hrun : m.run ((reMatch, op) :: ops) = m'.run ops := by
      rw [Make.run, hperform]
      rfl
    rw [hrun]
    exact run_null hnode ops

theorem Built.closes_nil (h : Built m ns ts) : m.Closes [] ↔ m.RootKept [] := by
  rw [RootKept, h.openTypes]
  constructor
  · rintro (⟨what, hrun⟩ | ⟨m₁, m₂, hrun, hdone, -⟩)
    · cases hrun
    · cases hrun
      intro hgroups
      rw [h.lost_done hgroups] at hdone
      cases hdone
  · intro hgroups
    obtain ⟨m', hdone, h'⟩ := h.done hgroups
    refine .inr ⟨m, m', rfl, ?_, ?_⟩
    · rw [hdone, h.first]
    · rw [h.first, ← h'.first]
      exact h'.reached

theorem Built.closes (h : Built m ns ts) (ops : List ((Nat → Location) × MakeOp)) :
    m.Closes ops ↔ m.RootKept ops := by
  induction ops generalizing m ns ts with
  | nil => exact h.closes_nil
  | cons op ops ih =>
    obtain ⟨reMatch, op⟩ := op
    rw [RootKept, h.openTypes]
    by_cases hkept : op.KeepsRoot ts
    · rcases h.perform reMatch hkept with ⟨m', ns', ts', hperform, h'⟩ | ⟨what, hperform⟩
      · have hrun : m.run ((reMatch, op) :: ops) = m'.run ops := by
          rw [Make.run, hperform]
          rfl
        have hcloses : m.Closes ((reMatch, op) :: ops) ↔ m'.Closes ops := by
          rw [Closes, Closes, hrun, h.first, h'.first]
        rw [hcloses, ih h', hperform]
        constructor
        · intro hroot
          refine ⟨hkept, fun m'' heq => ?_⟩
          cases heq
          exact hroot
        · intro hroot
          exact hroot.2 m' rfl
      · have hrun : m.run ((reMatch, op) :: ops) = .error (.thrown what) := by
          rw [Make.run, hperform]
          rfl
        apply iff_of_true
        · exact .inl ⟨what, hrun⟩
        · refine ⟨hkept, fun m' heq => ?_⟩
          rw [hperform] at heq
          cases heq
    · apply iff_of_false
      · exact not_closes_of_lost (h.lost_perform reMatch hkept) ops
      · intro hboth
        exact hkept hboth.1

theorem built_create (location : Location) : Built (create .file location) [] [] := by
  refine ⟨rfl, rfl, .root rfl, Nat.one_pos, rfl, rfl, fun n hn => ?_⟩
  obtain rfl : n = 0 := Nat.lt_one_iff.1 hn
  exact .refl

/-- A parse ends with the root of all nodes, or with an exception, if and only if no operation
leaves the root, and the groups that are open right below the root in the end can be closed. -/
theorem parse_closes (location : Location) (ops : List ((Nat → Location) × MakeOp)) :
    (create .file location).Closes ops ↔ (create .file location).RootKept ops :=
  (built_create location).closes ops

/-- Of two groups right below the root, `done` leaves the inner one, then the outer one and the
root. -/
theorem nested_groups_unclosed : ∃ ops, ¬ (create .file {}).Closes ops := by
  refine ⟨[(fun _ => {}, .push .group 0), (fun _ => {}, .push .group 0)], ?_⟩
  apply not_closes
  exact .inr ⟨_, rfl, rfl⟩

end Make

end Trieste
