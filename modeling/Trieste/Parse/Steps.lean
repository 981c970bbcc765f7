import Trieste.Parse.Open

namespace Trieste
set_option autoImplicit true
open Relation

namespace Make

/-- The types of the open nodes below the root after some pops, and nothing where the root is
popped. -/
def popAll : List Token → List Token → Option (List Token)
  | [], ts => some ts
  | type :: types, ts =>
    (if ts.headD .file = type then ts.tail? else some ts).bind (popAll types)

def openNodes (h : Heap) : Nat → Node → List Node
  | 0, _ => []
  | fuel + 1, n =>
    match (h.get n).parent with
    | none => []
    | some p => n :: openNodes h fuel p

def openTypes (m : Make) : List Token :=
  match m.node with
  | none => []
  | some n => (openNodes m.heap m.heap.nodes.length n).map fun n => (m.heap.get n).type

def dropGroup (ts : List Token) : List Token := if ts.headD .file = .group then ts.tail else ts

/-- The types of the open nodes after a token of a type was added. -/
def afterAdd (type : Token) (ts : List Token) : List Token :=
  if type = .group then ts else .group :: dropGroup ts

end Make

namespace MakeOp

/-- The operation does not leave the root, given the types of the open nodes below it. -/
def KeepsRoot (ts : List Token) : MakeOp → Prop
  | pop => ts ≠ []
  | popType type => ts = [] → type ≠ .file
  | term types => Make.popAll (.group :: types) ts ≠ none
  | seq _ skip => ∃ t ∈ Make.dropGroup ts ++ [.file], t ∉ skip
  | _ => True

end MakeOp

namespace Make

def Lost (r : Except Fault Make) : Prop := r = .error .nullNode ∨ ∃ m, r = .ok m ∧ m.node = none

/-- The result of an operation that does not leave the root. -/
def Steady (r : Except Fault Make) : Prop := ∃ m ns ts, r = .ok m ∧ Built m ns ts

/-- The result of an operation whose open nodes are of the given types. -/
def Opens (r : Except Fault Make) (ts : List Token) : Prop := ∃ m ns, r = .ok m ∧ Built m ns ts

theorem Opens.steady (h : Opens r ts) : Steady r := by
  obtain ⟨m, ns, hr, h⟩ := h
  exact ⟨m, ns, ts, hr, h⟩

namespace Built

theorem deref (h : Built m ns ts) : m.deref = .ok (ns.headD m.top) := by
  rw [Make.deref, h.node]

theorem isIn (h : Built m ns ts) (type : Token) : m.isIn type = .ok (ts.headD .file == type) := by
  rw [Make.isIn, h.deref, ← h.type_head]
  rfl

theorem extendBack (h : Built m ns ts) : ∃ heap, m.extendBack = .ok { m with heap := heap } ∧
    Built { m with heap := heap } ns ts := by
  rw [Make.extendBack, h.deref]
  simp only [bind, Except.bind]
  split
  · exact ⟨m.heap, rfl, h⟩
  · exact ⟨_, rfl, h.grow (Heap.grown_extendLocation ..) rfl rfl⟩

theorem tryPop_other (h : Built m ns ts) (hne : ts.headD .file ≠ type) :
    m.tryPop type = .ok (m, false) := by
  have hin : (ts.headD .file == type) = false := beq_eq_false_iff_ne.2 hne
  rw [Make.tryPop, h.isIn, hin]
  rfl

theorem tryPop_eq (h : Built m ns ts) : ∃ m', Built m' ns ts ∧
    m.tryPop (ts.headD .file) =
      .ok ({ m' with node := (m'.heap.get (ns.headD m'.top)).parent }, true) := by
  obtain ⟨heap, hextend, h'⟩ := h.extendBack
  refine ⟨_, h', ?_⟩
  rw [Make.tryPop, h.isIn, beq_self_eq_true]
  simp only [bind, Except.bind, if_true, hextend, h'.deref]
  rfl

theorem tryPop_child (h : Built m (n :: ns) (type :: ts)) :
    ∃ m', m.tryPop type = .ok (m', true) ∧ Built m' ns ts := by
  obtain ⟨m', h', hpop⟩ := h.tryPop_eq
  exact ⟨_, hpop, h'.leave.2⟩

theorem tryPop_root (h : Built m [] []) : ∃ m', m.tryPop .file = .ok (m', true) ∧ m'.node = none := by
  obtain ⟨m', h', hpop⟩ := h.tryPop_eq
  exact ⟨_, hpop, h'.opened.parent_top⟩

theorem nil_iff (h : Built m ns ts) : ns = [] ↔ ts = [] := by
  rw [← h.typed, List.map_eq_nil_iff]

theorem tryPopAll (h : Built m ns ts) (hpop : popAll types ts = some ts') :
    ∃ m' ns', m.tryPopAll types = .ok m' ∧ Built m' ns' ts' := by
  induction types generalizing m ns ts with
  | nil =>
    cases hpop
    exact ⟨m, ns, rfl, h⟩
  | cons type types ih =>
    rw [popAll] at hpop
    split at hpop
    · next htype =>
      rcases ts with _ | ⟨t, ts⟩
      · cases hpop
      rcases ns with _ | ⟨n, ns⟩
      · cases h.nil_iff.1 rfl
      obtain rfl : t = type := htype
      obtain ⟨m', htry, h'⟩ := h.tryPop_child
      obtain ⟨m'', ns'', hall, h''⟩ := ih h' hpop
      refine ⟨m'', ns'', ?_, h''⟩
      rw [Make.tryPopAll, htry]
      exact hall
    · next htype =>
      obtain ⟨m', ns', hall, h'⟩ := ih h hpop
      refine ⟨m', ns', ?_, h'⟩
      rw [Make.tryPopAll, h.tryPop_other htype]
      exact hall

theorem lost_tryPopAll (h : Built m ns ts) (hpop : popAll types ts = none) :
    Lost (m.tryPopAll types) := by
  induction types generalizing m ns ts with
  | nil => cases hpop
  | cons type types ih =>
    rw [popAll] at hpop
    split at hpop
    · next htype =>
      rcases ts with _ | ⟨t, ts⟩
      · obtain rfl := h.nil_iff.2 rfl
        obtain rfl : Token.file = type := htype
        obtain ⟨m', htry, hnode⟩ := h.tryPop_root
        have hall : m.tryPopAll (.file :: types) = m'.tryPopAll types := by
          rw [Make.tryPopAll, htry]
          rfl
        rw [hall]
        cases types with
        | nil => exact .inr ⟨m', rfl, hnode⟩
        | cons type types =>
          refine .inl ?_
          rw [Make.tryPopAll, Make.tryPop, Make.isIn, Make.deref, hnode]
          rfl
      rcases ns with _ | ⟨n, ns⟩
      · cases h.nil_iff.1 rfl
      obtain rfl : t = type := htype
      obtain ⟨m', htry, h'⟩ := h.tryPop_child
      have hall : m.tryPopAll (t :: types) = m'.tryPopAll types := by
        rw [Make.tryPopAll, htry]
        rfl
      rw [hall]
      exact ih h' hpop
    · next htype =>
      have hall : m.tryPopAll (type :: types) = m.tryPopAll types := by
        rw [Make.tryPopAll, h.tryPop_other htype]
        rfl
      rw [hall]
      exact ih h hpop

theorem append (h : Built m ns ts) (type : Token) (loc : Location) :
    ∃ m', m.append type loc = .ok m' ∧ Built m' ns ts ∧
      ∃ m'' k, m'.enter = .ok m'' ∧ Built m'' (k :: ns) (type :: ts) := by
  have hlt := h.lt
  have hlt' : ns.headD m.top < (m.heap.create type loc).1.nodes.length := by
    rw [Heap.length_create]
    exact Nat.lt_succ_of_lt hlt
  have hrun : ∃ m', m.append type loc = .ok m' ∧
      m'.heap = (m.heap.create type loc).1.pushBack (ns.headD m.top) (some m.heap.nodes.length) ∧
      m'.top = m.top ∧ m'.node = m.node := by
    rw [Make.append, h.deref]
    exact ⟨_, rfl, rfl, rfl, rfl⟩
  obtain ⟨m', hrun, hheap, htop, hnode⟩ := hrun
  refine ⟨m', hrun, ?_⟩
  have hgrown := Heap.grown_append hlt type loc
  have h' : Built m' ns ts := h.grow (hheap ▸ hgrown) htop hnode
  refine ⟨h', { m' with node := some m.heap.nodes.length }, m.heap.nodes.length, ?_, ?_⟩
  · have hlast : (m'.heap.get (ns.headD m'.top)).children.getLast? = some m.heap.nodes.length := by
      rw [hheap, htop, Heap.children_pushBack _ hlt', if_pos rfl, List.getLast?_concat]
    rw [Make.enter, h'.deref]
    simp only [bind, Except.bind, hlast]
    rfl
  · apply h'.enter
    · rw [hheap, htop, Heap.children_pushBack _ hlt', if_pos rfl, List.getLast?_concat]
    · rw [hheap, htop, Heap.parent_pushBack, if_pos]
      refine ⟨rfl, ?_⟩
      rw [Heap.length_create]
      exact Nat.lt_succ_self _
    · rw [hheap, Heap.type_pushBack, Heap.get_create, if_pos rfl]

theorem openGroup (h : Built m ns ts) (reMatch : Nat → Location) :
    ∃ m' ns', m.openGroup reMatch = .ok m' ∧ Built m' ns' (.group :: dropGroup ts) := by
  by_cases hgroup : ts.headD .file = .group
  · have hin : m.isIn .group = .ok true := by
      rw [h.isIn, hgroup]
      rfl
    rcases ts with _ | ⟨t, ts⟩
    · exact absurd hgroup (by decide)
    obtain rfl : t = .group := hgroup
    refine ⟨m, ns, ?_, h⟩
    rw [Make.openGroup, hin]
    rfl
  · have hin : m.isIn .group = .ok false := by
      rw [h.isIn, beq_eq_false_iff_ne.2 hgroup]
    obtain ⟨m', happend, -, m'', k, henter, h''⟩ := h.append .group (reMatch 0)
    rw [dropGroup, if_neg hgroup]
    refine ⟨m'', k :: ns, ?_, h''⟩
    rw [Make.openGroup, hin]
    simp only [bind, Except.bind, happend, henter]
    rfl

theorem withErrors (h : Built m ns ts) (count : Nat) : Built { m with errorCount := count } ns ts :=
  ⟨h.first, h.node, h.opened, h.bound, h.root, h.typed, h.reached⟩

/-- What is added can be entered. -/
theorem add (h : Built m ns ts) (reMatch : Nat → Location) (type : Token) (index : Nat) :
    ∃ m' ns', m.add reMatch type index = .ok m' ∧ Built m' ns' (afterAdd type ts) ∧
      ∃ m'' k, m'.enter = .ok m'' ∧ Built m'' (k :: ns') (type :: afterAdd type ts) := by
  have hinner : ∀ m₁ ns₁ ts₁, Built m₁ ns₁ ts₁ →
      ∃ m', (if type = .error then { m₁ with errorCount := m₁.errorCount + 1 } else m₁).append type
        (reMatch index) = .ok m' ∧ Built m' ns₁ ts₁ ∧
        ∃ m'' k, m'.enter = .ok m'' ∧ Built m'' (k :: ns₁) (type :: ts₁) := by
    intro m₁ ns₁ ts₁ h₁
    split
    · exact (h₁.withErrors _).append type _
    · exact h₁.append type _
  by_cases hgroup : type = .group
  · obtain ⟨m', happend, h'⟩ := hinner m ns ts h
    rw [afterAdd, if_pos hgroup]
    refine ⟨m', ns, ?_, h'⟩
    rw [Make.add, if_pos hgroup]
    exact happend
  · obtain ⟨m₁, ns₁, hopen, h₁⟩ := h.openGroup reMatch
    obtain ⟨m', happend, h'⟩ := hinner m₁ ns₁ _ h₁
    rw [afterAdd, if_neg hgroup]
    refine ⟨m', ns₁, ?_, h'⟩
    rw [Make.add, if_neg hgroup, hopen]
    exact happend

theorem appendError (h : Built m ns ts) (loc : Location) (msg : String) :
    ∃ m', m.appendError loc msg = .ok m' ∧ Built m' ns ts := by
  rw [Make.appendError, h.deref]
  refine ⟨_, rfl, h.grow ?_ rfl rfl⟩
  have hlt : m.heap.nodes.length < (m.heap.create .error loc).1.nodes.length := by
    rw [Heap.length_create]
    exact Nat.lt_succ_self _
  have hmsg := Heap.grown_append hlt .errorMsg (.ofString msg)
  have hast := Heap.grown_append (Nat.lt_of_lt_of_le hlt hmsg.length) .errorAst loc
  exact Heap.grown_pushBack h.lt (hmsg.trans hast)

theorem error (h : Built m ns ts) (reMatch : Nat → Location) (msg : String) (location : Location) :
    Opens (m.error reMatch msg location) (.group :: dropGroup ts) := by
  obtain ⟨m₁, ns₁, hopen, h₁⟩ := h.openGroup reMatch
  obtain ⟨m', happend, h'⟩ := (h₁.withErrors (m₁.errorCount + 1)).appendError location msg
  refine ⟨m', ns₁, ?_, h'⟩
  rw [Make.error, hopen]
  exact happend

theorem push (h : Built m ns ts) (reMatch : Nat → Location) (type : Token) (index : Nat) :
    Opens (m.push reMatch type index) (type :: afterAdd type ts) := by
  obtain ⟨m', ns', hadd, -, m'', k, henter, h''⟩ := h.add reMatch type index
  refine ⟨m'', k :: ns', ?_, h''⟩
  rw [Make.push, hadd]
  exact henter

theorem extend (h : Built m ns ts) (reMatch : Nat → Location) (type : Token) (index : Nat) :
    Opens (m.extend reMatch type index) ts ∨
      Opens (m.extend reMatch type index) (afterAdd type ts) := by
  obtain ⟨m', ns', hadd, h', -⟩ := h.add reMatch type index
  rw [Make.extend, h.deref]
  simp only [bind, Except.bind]
  split
  · exact .inr ⟨m', ns', hadd, h'⟩
  · split
    · exact .inl ⟨_, ns, rfl, h.grow (Heap.grown_extendLocation ..) rfl rfl⟩
    · exact .inr ⟨m', ns', hadd, h'⟩

theorem extendBefore (h : Built m ns ts) (reMatch : Nat → Location) (type : Token) :
    Steady (m.extendBefore reMatch type) := by
  rw [Make.extendBefore, h.deref]
  simp only [bind, Except.bind]
  split
  · exact ⟨m, ns, ts, rfl, h⟩
  · split
    · exact ⟨_, ns, ts, rfl, h.grow (Heap.grown_extendLocation ..) rfl rfl⟩
    · exact ⟨m, ns, ts, rfl, h⟩

theorem invalid (h : Built m ns ts) (reMatch : Nat → Location) :
    Opens (m.invalid reMatch) ts ∨ Opens (m.invalid reMatch) (.group :: dropGroup ts) :=
  (h.withErrors _).extend reMatch .invalid 0

theorem popType_head (h : Built m (n :: ns) (type :: ts)) (reMatch : Nat → Location) :
    Opens (m.popType reMatch type) ts := by
  obtain ⟨m', htry, h'⟩ := h.tryPop_child
  refine ⟨m', ns, ?_, h'⟩
  rw [Make.popType, htry]
  rfl

theorem popType_other (h : Built m ns ts) (reMatch : Nat → Location)
    (htype : ts.headD .file ≠ type) : m.popType reMatch type = m.invalid reMatch := by
  rw [Make.popType, h.tryPop_other htype]
  rfl

theorem popType (h : Built m ns ts) (reMatch : Nat → Location) (hkept : ts = [] → type ≠ .file) :
    Steady (m.popType reMatch type) := by
  by_cases htype : ts.headD .file = type
  · rcases ts with _ | ⟨t, ts⟩
    · exact absurd htype.symm (hkept rfl)
    rcases ns with _ | ⟨n, ns⟩
    · cases h.nil_iff.1 rfl
    obtain rfl : t = type := htype
    exact (h.popType_head reMatch).steady
  · rw [h.popType_other reMatch htype]
    rcases h.invalid reMatch with h | h
    · exact h.steady
    · exact h.steady

theorem lost_popType (h : Built m [] []) (reMatch : Nat → Location) :
    Lost (m.popType reMatch .file) := by
  obtain ⟨m', htry, hnode⟩ := h.tryPop_root
  refine .inr ⟨m', ?_, hnode⟩
  rw [Make.popType, htry]
  rfl

/-- The type of the node is popped unless it is that of a top node. -/
theorem pop_eq (h : Built m ns ts) (reMatch : Nat → Location) : m.pop reMatch =
    if ts.headD .file = .top then .error (.thrown "cannot pop top node")
    else m.popType reMatch (ts.headD .file) := by
  rw [Make.pop, h.isIn]
  split
  · next htop =>
    rw [htop]
    rfl
  · next htop =>
    rw [beq_eq_false_iff_ne.2 htop]
    simp only [bind, Except.bind, h.deref, h.type_head]
    rfl

theorem leave_kept (h : Built m (n :: ns) (t :: ts)) (hfuel : ns.length + 1 ≤ fuel)
    (hkept : ∃ t ∈ ts ++ [.file], t ∉ skip) :
    ∃ m' n' ns' t' ts', Make.leave skip fuel m = .ok m' ∧ Built m' (n' :: ns') (t' :: ts') := by
  induction fuel generalizing m n ns t ts with
  | zero => cases hfuel
  | succ fuel ih =>
    obtain ⟨hparent, hup⟩ := h.leave
    have htype : (m.heap.get (ns.headD m.top)).type = ts.headD .file := by
      rw [hparent] at hup
      exact hup.type_head
    rw [Make.leave, h.deref]
    simp only [bind, Except.bind, List.headD_cons, hparent, htype]
    split
    · next hskip =>
      rcases ts with _ | ⟨t', ts⟩
      · obtain ⟨t', ht', hout⟩ := hkept
        obtain rfl := List.mem_singleton.1 ht'
        exact absurd hskip hout
      rcases ns with _ | ⟨n', ns⟩
      · cases hup.nil_iff.1 rfl
      obtain ⟨heap, hextend, h'⟩ := h.extendBack
      obtain ⟨hparent', hup'⟩ := h'.leave
      rw [hparent'] at hup'
      have hkept' : ∃ t ∈ ts ++ [.file], t ∉ skip := by
        obtain ⟨u, hu, hout⟩ := hkept
        refine ⟨u, (List.mem_cons.1 hu).resolve_left ?_, hout⟩
        intro heq
        exact hout (heq ▸ hskip)
      have hfuel' : ns.length + 1 ≤ fuel := Nat.le_of_succ_le_succ hfuel
      obtain ⟨m', hrun⟩ := ih hup' hfuel' hkept'
      refine ⟨m', ?_⟩
      rw [hextend]
      exact hrun
    · exact ⟨m, n, ns, t, ts, rfl, h⟩

theorem leave_lost (h : Built m (n :: ns) (t :: ts)) (hfuel : ns.length + 2 ≤ fuel)
    (hlost : ∀ t ∈ ts ++ [.file], t ∈ skip) : Make.leave skip fuel m = .error .nullNode := by
  induction fuel generalizing m n ns t ts with
  | zero => cases hfuel
  | succ fuel ih =>
    obtain ⟨hparent, hup⟩ := h.leave
    obtain ⟨heap, hextend, h'⟩ := h.extendBack
    obtain ⟨hparent', hup'⟩ := h'.leave
    rw [hparent] at hup
    rw [hparent'] at hup'
    have hskip : (m.heap.get (ns.headD m.top)).type ∈ skip := by
      apply hlost
      rw [hup.type_head]
      cases ts with
      | nil => exact List.mem_singleton_self _
      | cons t ts => exact List.mem_cons_self
    have hround : Make.leave skip (fuel + 1) m =
        Make.leave skip fuel { m with heap := heap, node := some (ns.headD m.top) } := by
      rw [Make.leave, h.deref]
      simp only [bind, Except.bind, List.headD_cons, hparent, if_pos hskip, hextend]
    rw [hround]
    rcases ns with _ | ⟨n', ns⟩
    · cases fuel with
      | zero => exact absurd hfuel (by simp)
      | succ fuel =>
        rw [Make.leave, hup'.deref]
        have hnone := hup'.opened.parent_top
        simp only [bind, Except.bind, List.headD_nil] at hnone ⊢
        rw [hnone]
    · rcases ts with _ | ⟨t', ts⟩
      · cases hup.nil_iff.2 rfl
      apply ih hup' (Nat.le_of_succ_le_succ hfuel)
      intro u hu
      exact hlost u (List.mem_cons_of_mem _ hu)

theorem enterSeq (h : Built m (n :: ns) (t :: ts)) (reMatch : Nat → Location) (type : Token) :
    Steady (m.enterSeq reMatch type) := by
  obtain ⟨heap, hextend, h'⟩ := h.extendBack
  obtain ⟨hparent, hup⟩ := h'.leave
  rw [hparent] at hup
  have hn : n < heap.nodes.length := h'.lt
  have hopen := h'.opened
  rcases hopen with _ | ⟨-, -, hlast⟩
  rw [Make.enterSeq, hextend]
  simp only [bind, Except.bind, h'.deref, List.headD_cons, hparent]
  split
  · exact ⟨_, ns, ts, rfl, hup⟩
  · obtain ⟨heap₁, hpop, hw⟩ := Heap.popBack_wrapped hup.lt hn hlast type
    simp only [hpop]
    exact ⟨_, heap₁.nodes.length :: ns, type :: ts, rfl, h'.wrap (hw _) rfl rfl⟩

theorem seq (h : Built m ns ts) (reMatch : Nat → Location) (type : Token)
    (hkept : ∃ t ∈ dropGroup ts ++ [.file], t ∉ skip) : Steady (m.seq reMatch type skip) := by
  obtain ⟨m', ns', hopen, h'⟩ := h.openGroup reMatch
  rcases ns' with _ | ⟨n', ns'⟩
  · cases h'.nil_iff.1 rfl
  have hfuel : ns'.length + 1 ≤ m'.heap.nodes.length := Nat.le_of_lt (h'.opened.length_lt h'.bound)
  obtain ⟨m'', n'', ns'', t'', ts'', hleave, h''⟩ := h'.leave_kept hfuel hkept
  have hrun : m.seq reMatch type skip = m''.enterSeq reMatch type := by
    rw [Make.seq, hopen]
    simp only [bind, Except.bind, hleave]
  rw [hrun]
  exact h''.enterSeq reMatch type

theorem lost_seq (h : Built m ns ts) (reMatch : Nat → Location) (type : Token)
    (hlost : ∀ t ∈ dropGroup ts ++ [.file], t ∈ skip) : Lost (m.seq reMatch type skip) := by
  obtain ⟨m', ns', hopen, h'⟩ := h.openGroup reMatch
  rcases ns' with _ | ⟨n', ns'⟩
  · cases h'.nil_iff.1 rfl
  have hleave := h'.leave_lost (h'.opened.length_lt h'.bound) hlost
  refine .inl ?_
  rw [Make.seq, hopen]
  simp only [bind, Except.bind, hleave]

theorem openNodes {h : Heap} {top : Node} (h' : h.Open top ns) (hfuel : ns.length ≤ fuel) :
    Make.openNodes h fuel (ns.headD top) = ns := by
  induction h' generalizing fuel with
  | root hnone =>
    cases fuel with
    | zero => rfl
    | succ fuel =>
      rw [Make.openNodes, List.headD_nil, hnone]
  | @child ns n _ hparent _ ih =>
    cases fuel with
    | zero => cases hfuel
    | succ fuel =>
      have hrest := ih (Nat.le_of_succ_le_succ hfuel)
      simp only [Make.openNodes, List.headD_cons, hparent, hrest]

theorem openTypes (h : Built m ns ts) : m.openTypes = ts := by
  have hnodes := openNodes h.opened (Nat.le_of_lt (h.opened.length_lt h.bound))
  simp only [Make.openTypes, h.node, hnodes, h.typed]

end Built

end Make

end Trieste
