import Trieste.Bindings.Growth
import Trieste.Library.Transition
import Trieste.Wf.Returns

namespace Trieste.Bindings
set_option autoImplicit true
open Library Relation Wf

def place (n : Node) : Location := .ofString (String.ofList (List.replicate (n + 1) 'x'))

theorem place_len (n : Node) : (place n).len = n + 1 := by
  simp [place, Location.ofString]

/-- Each node gets its own fresh location, without a random number. -/
def numbered : Generator.FreshLocations := fun _ child _ i => (place child, i)

namespace Wellformed
variable {wf : Wellformed} {g : Generator}

theorem childLocation_congr {draws draws' : Draws} (h : draws' j = draws j) (n : Node) (s : Scopes)
    (type : Token) :
    g.childLocation numbered draws' n s type j = g.childLocation numbered draws n s type j := by
  rw [Generator.childLocation, Generator.childLocation, h]
  rfl

theorem afterChild_numbered (draws : Draws) (n : Node) (s : Scopes) (type : Token) (j : Nat) :
    g.afterChild numbered draws n s type j = j + 1 := by
  rw [Generator.afterChild]
  split <;> rfl

theorem perform_congr {draws draws' : Draws} (h : ∀ j, i ≤ j → draws' j = draws j) (t : Task)
    (s : Scopes) :
    wf.perform g numbered draws' t s i = wf.perform g numbered draws t s i := by
  cases t with
  | choice c depth n =>
    rw [perform, perform, Generator.genChoice_eq, Generator.genChoice_eq,
      Gen.choose_congr _ _ _ _ (h i (Nat.le_refl i))]
    cases hchoose : g.choose c.types depth (s.heap.get n).type draws i with
    | error e => rfl
    | ok r =>
      have hle : i ≤ r.2 := by
        rcases Gen.choose_reads hchoose with ⟨hj, -⟩ | ⟨hj, -⟩ <;> rw [hj]
        exact Nat.le_succ i
      simp only [Except.mapError, ok_bind, childLocation_congr (h r.2 hle), afterChild_numbered]
  | more c depth n left =>
    cases left with
    | zero => rfl
    | succ left => rw [perform, perform, h i (Nat.le_refl i)]
  | _ => rfl

theorem perform_reads (h : wf.perform g numbered draws t s i = .ok (ts, s', i')) :
    i ≤ i' ∧ ∀ draws', (∀ j, i ≤ j → j < i' → draws' j = draws j) →
      wf.perform g numbered draws' t s i = .ok (ts, s', i') := by
  cases t with
  | node depth n =>
    refine ⟨?_, fun _ _ => h⟩
    rw [perform] at h
    split at h <;> cases h <;> exact Nat.le_refl _
  | choice c depth n =>
    obtain ⟨r, hr, hr'⟩ := map_eq_ok.1 h
    obtain ⟨type, j, location, hchoose, hlocation, rfl⟩ := Generator.genChoice_ok.1 hr
    cases hr'
    rw [afterChild_numbered]
    have hperform (draws' : Draws) (hd : ∀ j', i ≤ j' → j' < j + 1 → draws' j' = draws j')
        (hsame : g.choose c.types depth (s.heap.get n).type draws' i = .ok (type, j))
        (hj : i ≤ j) : wf.perform g numbered draws' (.choice c depth n) s i =
          .ok ([], { s with heap := chosen s.heap n type location }, j + 1) := by
      have hloc := hlocation
      rw [← childLocation_congr (hd j hj (Nat.lt_succ_self j))] at hloc
      rw [perform, Generator.genChoice_ok.2 ⟨type, j, location, hsame, hloc, rfl⟩,
        afterChild_numbered]
      rfl
    rcases Gen.choose_reads hchoose with ⟨rfl, hsame⟩ | ⟨rfl, hsame⟩
    · exact ⟨Nat.le_succ _, fun draws' hd => hperform draws' hd (hsame _ _ _) (Nat.le_refl _)⟩
    · refine ⟨Nat.le_succ_of_le (Nat.le_succ i), fun draws' hd => ?_⟩
      have hi : draws' i = draws i := hd i (Nat.le_refl i) (Nat.lt_succ_of_lt (Nat.lt_succ_self i))
      exact hperform draws' hd (hsame _ _ _ hi) (Nat.le_succ i)
  | bind n =>
    refine ⟨?_, fun _ _ => h⟩
    rw [perform] at h
    split at h <;> cases h
    exact Nat.le_refl _
  | more c depth n left =>
    cases left with
    | zero =>
      cases h
      exact ⟨Nat.le_refl _, fun _ _ => rfl⟩
    | succ left =>
      rw [perform] at h
      have hi : i' = i + 1 := by split at h <;> cases h <;> rfl
      rw [hi]
      refine ⟨Nat.le_succ i, fun draws' hd => ?_⟩
      rw [perform, hd i (Nat.le_refl i) (Nat.lt_succ_self i)]
      exact hi ▸ h
  | children depth n =>
    cases h
    exact ⟨Nat.le_refl _, fun _ _ => rfl⟩

theorem step_congr {k : Config} {draws draws' : Draws}
    (h : ∀ j, k.index ≤ j → draws' j = draws j) :
    wf.step g numbered draws' k = wf.step g numbered draws k := by
  rw [step, step]
  split
  · rfl
  · rw [perform_congr h]

theorem next_supplied (wf : Wellformed) (g : Generator) :
    Supplied (wf.Next g numbered) Config.index := by
  constructor
  · intro draws k k' h
    obtain ⟨t, rest, ts, s', i', -, hperform, rfl⟩ := next_cases h
    exact (perform_reads hperform).1
  · intro draws draws' k k' h hd
    obtain ⟨t, rest, ts, s', i', htasks, hperform, rfl⟩ := next_cases h
    have hnext := next_perform ((perform_reads hperform).2 draws' hd) rest
    rwa [← htasks] at hnext

/-- The generation of a tree comes to its end. -/
def Ends (wf : Wellformed) (g : Generator) (gloc : Generator.FreshLocations) (draws : Draws) :
    Prop := ∃ fuel r, wf.genNodes g gloc draws fuel [(0, 0)] topOnly 0 = some (.ok r)

namespace Ends

theorem acc (h : wf.Ends g gloc draws) :
    Acc (fun k' k => wf.Next g gloc draws k k') ⟨[.node 0 0], topOnly, 0⟩ := by
  obtain ⟨fuel, r, hr⟩ := h
  obtain ⟨n, hn⟩ := loop_of_genNodes hr
  exact loop_acc hn

theorem no_throw (h : wf.Ends g gloc draws) (hk : wf.Reached g gloc draws k) :
    wf.step g gloc draws k ≠ .error e := by
  intro he
  obtain ⟨fuel, r, hr⟩ := h
  obtain ⟨n, hn⟩ := loop_of_genNodes hr
  have hthrow : loop (wf.step g gloc draws) 1 k = some (.error e) := by rw [loop, he]
  obtain ⟨m, hm⟩ := reaches_loop hk hthrow
  cases loop_unique hn hm

end Ends

/-- Whatever the random numbers are from a configuration on, nothing is thrown. -/
def Safe (wf : Wellformed) (g : Generator) (k : Config) : Prop :=
  ∀ k', ReflTransGen (Leads (wf.Next g numbered)) k k' → ∀ draws e,
    wf.step g numbered draws k' ≠ .error e

theorem safe_start (h : ∀ draws, wf.Ends g numbered draws) :
    wf.Safe g ⟨[.node 0 0], topOnly, 0⟩ := by
  intro k hk draws e he
  obtain ⟨draws', hreach, hrest⟩ := (next_supplied wf g).reaches hk draws
  rw [← step_congr hrest] at he
  exact (h draws').no_throw hreach he

namespace Safe

theorem reaches (h : wf.Safe g k) (hk : ReflTransGen (Leads (wf.Next g numbered)) k k') :
    wf.Safe g k' := fun k'' hk'' => h k'' (hk.trans hk'')

theorem leads (h : wf.Safe g k) (hk : Leads (wf.Next g numbered) k k') : wf.Safe g k' :=
  h.reaches (.single hk)

theorem perform_ok (h : wf.Safe g ⟨t :: rest, s, i⟩) (draws : Draws) :
    ∃ r, wf.perform g numbered draws t s i = .ok r := by
  cases hperform : wf.perform g numbered draws t s i with
  | error e => exact absurd (step_throws hperform rest) (h _ .refl draws e)
  | ok r => exact ⟨r, rfl⟩

/-- Any token that a choice can take is taken with some random numbers. -/
theorem choice (h : wf.Safe g ⟨.choice c depth n :: rest, s, i⟩)
    (ht : g.Chooses c.types depth t) (hn : n < s.heap.nodes.length) :
    ∃ s' i', Leads (wf.Next g numbered) ⟨.choice c depth n :: rest, s, i⟩ ⟨rest, s', i'⟩ ∧
      Adds n [t] s.heap s'.heap := by
  obtain ⟨draws, j, hchoose⟩ : ∃ draws j,
      g.choose c.types depth (s.heap.get n).type draws i = .ok (t, j) := by
    obtain ⟨parent, draws, i₀, j, hchoose⟩ := ht
    rcases Gen.choose_reads hchoose with ⟨-, hsame⟩ | ⟨-, hsame⟩
    · exact ⟨draws, i, hsame _ draws i⟩
    · exact ⟨fun _ => draws i₀, i + 1, hsame _ _ i rfl⟩
  obtain ⟨r, hr⟩ := h.perform_ok draws
  obtain ⟨r', hr', rfl⟩ := map_eq_ok.1 hr
  obtain ⟨type, j', location, hchoose', -, rfl⟩ := Generator.genChoice_ok.1 hr'
  cases hchoose.symm.trans hchoose'
  exact ⟨_, _, ⟨draws, next_done hr rest⟩, Adds.chosen hn t location⟩

theorem bind (h : wf.Safe g ⟨.bind n :: rest, s, i⟩) :
    ∃ s', Leads (wf.Next g numbered) ⟨.bind n :: rest, s, i⟩ ⟨rest, s', i⟩ ∧
      s'.heap = s.heap := by
  obtain ⟨r, hr⟩ := h.perform_ok fun _ => 0
  have hperform := hr
  rw [perform] at hr
  split at hr
  · cases hr
  · next s' ok hb =>
    cases hr
    obtain ⟨st, -, hs⟩ := Option.map_eq_some_iff.1 hb
    obtain ⟨rfl, -⟩ := Prod.mk.inj hs
    exact ⟨_, ⟨_, next_done hperform rest⟩, rfl⟩

/-- The tasks lead to the rest, with new children of the types. -/
def LeadsTo (wf : Wellformed) (g : Generator) (tasks : List Task) (s : Scopes) (i : Nat)
    (rest : List Task) (n : Node) (ts : List Token) : Prop :=
  ∃ s' i', ReflTransGen (Leads (wf.Next g numbered)) ⟨tasks ++ rest, s, i⟩ ⟨rest, s', i'⟩ ∧
    Adds n ts s.heap s'.heap

theorem append (h : wf.Safe g ⟨tasks ++ (tasks' ++ rest), s, i⟩) (hn : n < s.heap.nodes.length)
    (hfirst : LeadsTo wf g tasks s i (tasks' ++ rest) n ts)
    (hrest : ∀ s i, wf.Safe g ⟨tasks' ++ rest, s, i⟩ → n < s.heap.nodes.length →
      LeadsTo wf g tasks' s i rest n us) :
    LeadsTo wf g (tasks ++ tasks') s i rest n (ts ++ us) := by
  obtain ⟨s₁, i₁, hreach, ha⟩ := hfirst
  obtain ⟨s₂, i₂, hreach', ha'⟩ :=
    hrest s₁ i₁ (h.reaches hreach) (Nat.lt_of_lt_of_le hn ha.length)
  refine ⟨s₂, i₂, ?_, ha.trans ha'⟩
  rw [List.append_assoc]
  exact hreach.trans hreach'

theorem cons (h : wf.Safe g ⟨.choice c depth n :: tasks ++ rest, s, i⟩)
    (ht : g.Chooses c.types depth t) (hn : n < s.heap.nodes.length)
    (hrest : ∀ s i, wf.Safe g ⟨tasks ++ rest, s, i⟩ → n < s.heap.nodes.length →
      LeadsTo wf g tasks s i rest n ts) :
    LeadsTo wf g (.choice c depth n :: tasks) s i rest n (t :: ts) := by
  obtain ⟨s₁, i₁, hlead, ha⟩ := h.choice ht hn
  obtain ⟨s₂, i₂, hreach, ha'⟩ :=
    hrest s₁ i₁ (h.leads hlead) (Nat.lt_of_lt_of_le hn ha.length)
  exact ⟨s₂, i₂, .head hlead hreach, ha.trans ha'⟩

theorem fields {f : Fields} {fields : List Field}
    (hts : List.Forall₂ (fun field t => g.Chooses field.choice.types depth t)
      (fields.map Field.toField) ts)
    (h : wf.Safe g ⟨Generator.fieldTasks f depth n fields ++ rest, s, i⟩)
    (hn : n < s.heap.nodes.length) :
    LeadsTo wf g (Generator.fieldTasks f depth n fields) s i rest n ts := by
  induction fields generalizing s i ts with
  | nil =>
    cases hts
    exact ⟨s, i, .refl, .refl n s.heap⟩
  | cons field fields ih =>
    obtain ⟨t, ts, ht, hrest, rfl⟩ := List.forall₂_cons_left_iff.1 hts
    rw [Generator.fieldTasks, List.flatMap_cons, List.cons_append] at h ⊢
    refine h.cons ht hn fun s i h hn => ?_
    by_cases hbinding : f.binding = field.name
    · rw [if_pos hbinding] at h ⊢
      obtain ⟨s', hlead, hheap⟩ := h.bind
      obtain ⟨s₁, i₁, hreach, ha⟩ := ih hrest (h.leads hlead) (hheap ▸ hn)
      exact ⟨s₁, i₁, .head hlead hreach, hheap ▸ ha⟩
    · rw [if_neg hbinding] at h ⊢
      exact ih hrest h hn

theorem count (hts : ∀ t ∈ ts, g.Chooses c.types depth t) (hlen : ts.length = len)
    (h : wf.Safe g ⟨List.replicate len (.choice c depth n) ++ rest, s, i⟩)
    (hn : n < s.heap.nodes.length) :
    LeadsTo wf g (List.replicate len (.choice c depth n)) s i rest n ts := by
  subst hlen
  induction ts generalizing s i with
  | nil => exact ⟨s, i, .refl, .refl n s.heap⟩
  | cons t ts ih =>
    rw [List.forall_mem_cons] at hts
    exact h.cons hts.1 hn fun s i h hn => ih hts.2 hn h

theorem more (hts : ∀ t ∈ ts, g.Chooses c.types depth t) (hle : ts.length ≤ left)
    (h : wf.Safe g ⟨.more c depth n left :: rest, s, i⟩) (hn : n < s.heap.nodes.length) :
    LeadsTo wf g [.more c depth n left] s i rest n ts := by
  induction left generalizing ts s i with
  | zero =>
    cases List.eq_nil_of_length_eq_zero (Nat.le_zero.1 hle)
    exact ⟨s, i, .single ⟨fun _ => 0, next_done (by rw [perform]) rest⟩, .refl n s.heap⟩
  | succ left ih =>
    cases ts with
    | nil =>
      have hnext : wf.Next g numbered (fun _ => 0) ⟨.more c depth n (left + 1) :: rest, s, i⟩
          ⟨rest, s, i + 1⟩ := next_done (by rw [perform, if_neg (by decide)]) rest
      exact ⟨s, i + 1, .single ⟨_, hnext⟩, .refl n s.heap⟩
    | cons t ts =>
      rw [List.forall_mem_cons] at hts
      have hlead : Leads (wf.Next g numbered) ⟨.more c depth n (left + 1) :: rest, s, i⟩
          ⟨[.choice c depth n, .more c depth n left] ++ rest, s, i + 1⟩ :=
        ⟨fun _ => 1, next_perform (by rw [perform, if_pos (by decide)]) rest⟩
      obtain ⟨s', i', hreach, ha⟩ := (h.leads hlead).cons hts.1 hn fun s i h hn =>
        ih hts.2 (Nat.le_of_succ_le_succ hle) h hn
      exact ⟨s', i', .head hlead hreach, ha⟩

/-- Any children that a shape can get, it gets with some random numbers. -/
theorem shape {shape : Shape} (hts : g.Lays depth shape.plain ts)
    (h : wf.Safe g ⟨g.shapeTasks depth n shape ++ rest, s, i⟩) (hn : n < s.heap.nodes.length) :
    LeadsTo wf g (g.shapeTasks depth n shape) s i rest n ts := by
  cases shape with
  | fields f =>
    cases hts with
    | fields hts => exact fields hts h hn
  | sequence q =>
    cases hts with
    | sequence hmin hmax hall =>
      rw [Generator.shapeTasks, List.append_assoc] at h
      rw [Generator.shapeTasks, ← List.take_append_drop q.minLen ts]
      have hfirst := count (fun t ht => hall t (List.mem_of_mem_take ht))
        (List.length_take_of_le hmin) h hn
      refine h.append hn hfirst fun s i h hn => ?_
      by_cases hstop : g.targetDepth ≤ depth ∨
          (q.choice.types.map g.weightFor).sum % UInt64.size = 0
      · have hle : ts.length ≤ q.minLen := by
          refine hmax.resolve_right fun hmore => ?_
          rcases hstop with hdepth | hsum
          · exact Nat.not_lt.2 hdepth hmore.2.1
          · exact hmore.2.2 hsum
        rw [if_pos hstop, List.drop_eq_nil_of_le hle]
        exact ⟨s, i, .refl, .refl n s.heap⟩
      · rw [if_neg hstop] at h ⊢
        refine h.more (fun t ht => hall t (List.mem_of_mem_drop ht)) ?_ hn
        rw [List.length_drop]
        rcases hmax with hmax | hmax
        · rw [Nat.sub_eq_zero_of_le hmax]
          exact Nat.zero_le _
        · exact Nat.sub_le_sub_right hmax.1 _

end Safe

/-- The nodes that are to be expanded are apart and have no children yet. -/
structure Fresh (pending : List (Nat × Node)) (h : Heap) : Prop where
  nodup : (pending.map Prod.snd).Nodup
  lt : ∀ p ∈ pending, p.2 < h.nodes.length
  childless : ∀ p ∈ pending, (h.get p.2).children = []

def typesOf (h : Heap) (pending : List (Nat × Node)) : List (Nat × Token) :=
  pending.map fun p => (p.1, (h.get p.2).type)

theorem Fresh.expand {h h' : Heap} (hf : Fresh ((depth, n) :: pending) h) (ha : Adds n ts h h') :
    Fresh ((h'.get n).children.map (depth + 1, ·) ++ pending) h' ∧
      typesOf h' ((h'.get n).children.map (depth + 1, ·) ++ pending) =
        ts.map (depth + 1, ·) ++ typesOf h pending := by
  obtain ⟨new, hchildren, hnew, htypes, hlt⟩ := ha.children
  have hlt' := (List.forall_mem_cons.1 hf.lt).2
  rw [hf.childless _ (.head _), List.nil_append] at hchildren
  have hnodup := hf.nodup
  rw [List.map_cons, List.nodup_cons] at hnodup
  have hchild : ∀ c ∈ new, (h'.get c).children = [] := by
    intro c hc
    rw [ha.others c, Heap.get_of_le h (hlt c hc).1]
    rintro rfl
    exact Nat.not_lt.2 (hlt c hc).1 (List.forall_mem_cons.1 hf.lt).1
  rw [hchildren]
  refine ⟨⟨?_, fun p hp => ?_, fun p hp => ?_⟩, ?_⟩
  · have hsnd : (new.map (depth + 1, ·)).map Prod.snd = new := by
      rw [List.map_map]
      exact List.map_id new
    rw [List.map_append, hsnd]
    refine hnew.append hnodup.2 fun c hc hc' => ?_
    obtain ⟨p, hp, rfl⟩ := List.mem_map.1 hc'
    exact Nat.not_lt.2 (hlt _ hc).1 (hlt' p hp)
  · rcases List.mem_append.1 hp with hp | hp
    · obtain ⟨c, hc, rfl⟩ := List.mem_map.1 hp
      exact (hlt c hc).2
    · exact Nat.lt_of_lt_of_le (hlt' p hp) ha.length
  · rcases List.mem_append.1 hp with hp | hp
    · obtain ⟨c, hc, rfl⟩ := List.mem_map.1 hp
      exact hchild c hc
    · rw [ha.others p.2, hf.childless p (.tail _ hp)]
      rintro heq
      exact hnodup.1 (List.mem_map.2 ⟨p, hp, heq⟩)
  · rw [typesOf, List.map_append, List.map_map, ← htypes, List.map_map]
    congr 1
    exact List.map_congr_left fun p hp => by rw [ha.type p.2 (hlt' p hp)]

theorem fresh_start : Fresh [(0, 0)] topOnly.heap := by
  refine ⟨List.nodup_singleton _, fun p hp => ?_, fun p hp => ?_⟩
  · rw [List.mem_singleton.1 hp]
    exact Nat.one_pos
  · rw [List.mem_singleton.1 hp]
    rfl

theorem Safe.stackEnds (hsafe : wf.Safe g ⟨nodeTasks pending, s, i⟩)
    (hacc : Acc (fun k' k => Leads (wf.Next g numbered) k k') ⟨nodeTasks pending, s, i⟩)
    (hf : Fresh pending s.heap) :
    StackEnds (wf.plain.Expands g.toGen) (typesOf s.heap pending) := by
  have hacc' := hacc.transGen
  generalize hk : (⟨nodeTasks pending, s, i⟩ : Config) = k at hacc'
  induction hacc' generalizing pending s i with
  | intro k _ ih =>
    subst hk
    refine .intro _ fun stack hstack => ?_
    cases pending with
    | nil => cases hstack
    | cons p pending =>
      obtain ⟨depth, n⟩ := p
      cases hstack with
      | pop hexpands =>
        have hfind := plain_find wf (s.heap.get n).type
        cases hexpands with
        | leaf hleaf =>
          have hnone := Option.map_eq_none_iff.1 (hfind.symm.trans hleaf)
          have hlead : Leads (wf.Next g numbered) ⟨nodeTasks ((depth, n) :: pending), s, i⟩
              ⟨nodeTasks pending, s, i⟩ := ⟨fun _ => 0, next_leaf hnone depth i pending⟩
          have hf' : Fresh pending s.heap := ⟨(List.nodup_cons.1 hf.nodup).2,
            fun p hp => hf.lt p (.tail _ hp), fun p hp => hf.childless p (.tail _ hp)⟩
          exact ih _ (.single hlead) (hsafe.leads hlead) (hacc.inv hlead) hf' rfl
        | node hnode hts =>
          obtain ⟨shape, hshape, rfl⟩ := Option.map_eq_some_iff.1 (hfind.symm.trans hnode)
          have hlead : Leads (wf.Next g numbered) ⟨nodeTasks ((depth, n) :: pending), s, i⟩
              ⟨g.shapeTasks depth n shape ++ .children depth n :: nodeTasks pending, s, i⟩ :=
            ⟨fun _ => 0, next_node hshape depth i _⟩
          obtain ⟨s', i', hreach, ha⟩ := Safe.shape hts (hsafe.leads hlead) (hf.lt _ (.head _))
          have hlast : Leads (wf.Next g numbered) ⟨.children depth n :: nodeTasks pending, s', i'⟩
              ⟨nodeTasks ((s'.heap.get n).children.map (depth + 1, ·) ++ pending), s', i'⟩ :=
            ⟨fun _ => 0, next_children depth n s' i' pending⟩
          have htrans := TransGen.head' hlead (hreach.tail hlast)
          obtain ⟨hf', htypes⟩ := hf.expand ha
          have hends := ih _ (transGen_swap.2 htrans) (hsafe.reaches htrans.to_reflTransGen)
            (acc_reaches hacc htrans.to_reflTransGen) hf' rfl
          rwa [htypes] at hends

variable {s s' : Scopes}

theorem genChoice_adds (h : g.genChoice gloc draws c depth n s i = .ok (s', i'))
    (hn : n < s.heap.nodes.length) :
    ∃ t, g.Chooses c.types depth t ∧ Adds n [t] s.heap s'.heap := by
  obtain ⟨type, j, location, hchoose, -, hs⟩ := Generator.genChoice_ok.1 h
  cases hs
  exact ⟨type, ⟨_, _, _, _, hchoose⟩, .chosen hn type location⟩

theorem genFields_adds {f : Fields} {fields : List Field}
    (h : g.genFields gloc draws f depth n fields (s, i) = .ok (s', i'))
    (hn : n < s.heap.nodes.length) :
    ∃ ts, List.Forall₂ (fun field t => g.Chooses field.choice.types depth t)
      (fields.map Field.toField) ts ∧ Adds n ts s.heap s'.heap := by
  induction fields generalizing s i with
  | nil =>
    cases h
    exact ⟨[], .nil, .refl n _⟩
  | cons field fields ih =>
    rw [Generator.genFields] at h
    obtain ⟨⟨s₁, i₁⟩, hr, h⟩ := bind_eq_ok.1 h
    obtain ⟨t, ht, ha⟩ := genChoice_adds hr hn
    have hn' := Nat.lt_of_lt_of_le hn ha.length
    dsimp only at h
    split at h
    · split at h
      · cases h
      · next hb =>
        obtain ⟨st, -, hs⟩ := Option.map_eq_some_iff.1 hb
        obtain ⟨rfl, -⟩ := Prod.mk.inj hs
        obtain ⟨ts, hts, ha'⟩ := ih h hn'
        exact ⟨t :: ts, .cons ht hts, ha.trans ha'⟩
    · obtain ⟨ts, hts, ha'⟩ := ih h hn'
      exact ⟨t :: ts, .cons ht hts, ha.trans ha'⟩

theorem genCount_adds (h : g.genCount gloc draws c depth n count (s, i) = .ok (s', i'))
    (hn : n < s.heap.nodes.length) :
    ∃ ts, ts.length = count ∧ (∀ t ∈ ts, g.Chooses c.types depth t) ∧
      Adds n ts s.heap s'.heap := by
  induction count generalizing s i with
  | zero =>
    cases h
    exact ⟨[], rfl, fun _ ht => absurd ht List.not_mem_nil, .refl n _⟩
  | succ count ih =>
    rw [Generator.genCount] at h
    obtain ⟨⟨s₁, i₁⟩, hr, h⟩ := bind_eq_ok.1 h
    obtain ⟨t, ht, ha⟩ := genChoice_adds hr hn
    obtain ⟨ts, hlen, hts, ha'⟩ := ih h (Nat.lt_of_lt_of_le hn ha.length)
    exact ⟨t :: ts, congrArg Nat.succ hlen, List.forall_mem_cons.2 ⟨ht, hts⟩, ha.trans ha'⟩

theorem genMore_adds (h : g.genMore gloc draws c depth n left (s, i) = .ok (s', i'))
    (hn : n < s.heap.nodes.length) :
    ∃ ts, ts.length ≤ left ∧ (∀ t ∈ ts, g.Chooses c.types depth t) ∧
      Adds n ts s.heap s'.heap := by
  induction left generalizing s i with
  | zero =>
    cases h
    exact ⟨[], Nat.le_refl _, fun _ ht => absurd ht List.not_mem_nil, .refl n _⟩
  | succ left ih =>
    rw [Generator.genMore] at h
    split at h
    · obtain ⟨⟨s₁, i₁⟩, hr, h⟩ := bind_eq_ok.1 h
      obtain ⟨t, ht, ha⟩ := genChoice_adds hr hn
      obtain ⟨ts, hlen, hts, ha'⟩ := ih h (Nat.lt_of_lt_of_le hn ha.length)
      exact ⟨t :: ts, Nat.succ_le_succ hlen, List.forall_mem_cons.2 ⟨ht, hts⟩, ha.trans ha'⟩
    · cases h
      exact ⟨[], Nat.zero_le _, fun _ ht => absurd ht List.not_mem_nil, .refl n _⟩

theorem genShape_lays {shape : Shape} (h : g.genShape gloc draws depth n s i shape = .ok (s', i'))
    (hn : n < s.heap.nodes.length) :
    ∃ ts, g.Lays depth shape.plain ts ∧ Adds n ts s.heap s'.heap := by
  cases shape with
  | fields f =>
    obtain ⟨ts, hts, ha⟩ := genFields_adds h hn
    exact ⟨ts, .fields hts, ha⟩
  | sequence q =>
    rw [Generator.genShape] at h
    obtain ⟨⟨s₁, i₁⟩, hr, h⟩ := bind_eq_ok.1 h
    obtain ⟨ts, hlen, hts, ha⟩ := genCount_adds hr hn
    dsimp only at h
    split at h
    · cases h
      exact ⟨ts, .sequence (Nat.le_of_eq hlen.symm) (.inl (Nat.le_of_eq hlen)) hts, ha⟩
    · next hmore =>
      obtain ⟨us, hle, hus, ha'⟩ := genMore_adds h (Nat.lt_of_lt_of_le hn ha.length)
      rw [not_or, Nat.not_le] at hmore
      refine ⟨ts ++ us, .sequence ?_ ?_ (List.forall_mem_append.2 ⟨hts, hus⟩), ha.trans ha'⟩
      all_goals rw [List.length_append, hlen]
      · exact Nat.le_add_right _ _
      · by_cases hus : us.length = 0
        · exact .inl (by rw [hus]; exact Nat.le_refl _)
        · exact .inr ⟨by omega, hmore⟩

theorem genNodes_ends
    (hthrow : ∀ k e, wf.Reached g gloc draws k → wf.step g gloc draws k ≠ .error e)
    (hreached : wf.Reached g gloc draws ⟨nodeTasks pending, s, i⟩) (hf : Fresh pending s.heap)
    (hends : StackEnds (wf.plain.Expands g.toGen) (typesOf s.heap pending)) :
    ∃ fuel r, wf.genNodes g gloc draws fuel pending s i = some (.ok r) := by
  generalize hstack : typesOf s.heap pending = stack at hends
  induction hends generalizing pending s i with
  | intro stack _ ih =>
    subst hstack
    cases pending with
    | nil => exact ⟨1, (s, i), rfl⟩
    | cons p pending =>
      obtain ⟨depth, n⟩ := p
      have hplain := plain_find wf (s.heap.get n).type
      cases hfind : wf.find (s.heap.get n).type with
      | none =>
        rw [hfind] at hplain
        have hf' : Fresh pending s.heap := ⟨(List.nodup_cons.1 hf.nodup).2,
          fun p hp => hf.lt p (.tail _ hp), fun p hp => hf.childless p (.tail _ hp)⟩
        obtain ⟨fuel, r, hr⟩ := ih _ (.pop (.leaf hplain) _)
          (hreached.tail (next_leaf hfind depth i pending)) hf' rfl
        refine ⟨fuel + 1, r, ?_⟩
        rw [genNodes, hfind]
        exact hr
      | some shape =>
        cases hshape : g.genShape gloc draws depth n s i shape with
        | error e =>
          obtain ⟨k, hk, he⟩ := shape_throws hfind hshape pending
          exact absurd he (hthrow k e (hreached.trans hk))
        | ok r =>
          rw [hfind] at hplain
          obtain ⟨ts, hts, ha⟩ := genShape_lays hshape (hf.lt _ (.head _))
          obtain ⟨hf', htypes⟩ := hf.expand ha
          obtain ⟨fuel, r', hr'⟩ := ih _ (.pop (.node hplain hts) _)
            (hreached.trans (shape_leads hfind hshape pending).to_reflTransGen) hf' htypes
          refine ⟨fuel + 1, r', ?_⟩
          simp only [genNodes, hfind, hshape]
          exact hr'

def boundGenerator (wf : Wellformed) (targetDepth : Nat) (genBound : Bool) : Generator :=
  { wf.plain.generator targetDepth with
    bindingKeys := match wf.genKeys genBound with
      | .ok keys => keys
      | .error _ => []
    genBoundVars := genBound }

/-- The definition and the target depth are such that no generation throws or goes on for ever. -/
structure Finishes (wf : Wellformed) (targetDepth : Nat) (genBound : Bool) : Prop where
  /-- With bound variables, each binding names a field. -/
  keys : genBound = true → ∀ type f, (type, .fields f) ∈ wf.shapes → f.binding ≠ .invalid →
    ∃ field ∈ f.fields, field.name = f.binding
  /-- The top node, which is in no scope, is not bound. -/
  top : ∀ f, wf.find .top = some (.fields f) → ∀ field ∈ f.fields, f.binding ≠ field.name
  /-- Where a location is asked for, the definition that is selected has a child at the index. -/
  inside : ∀ gloc draws s parent child result symbol,
    wf.Asks (wf.boundGenerator targetDepth genBound) gloc draws s parent child result →
    (wf.boundGenerator targetDepth genBound).selected s parent child result = some symbol →
    (wf.boundGenerator targetDepth genBound).keyIndex (s.heap.get child).type <
      (s.heap.get symbol).children.length
  /-- From the greedy depth on, the candidates with the smallest distance lead to leaves. -/
  greedy : ∀ t, ReflTransGen (wf.plain.Makes (wf.plain.generator targetDepth)) (0, .top)
      ((wf.plain.generator targetDepth).greedyDepth, t) →
    ¬ CycleFrom (wf.plain.Picks (wf.plain.generator targetDepth).tokenTerminalDistance) t

theorem keysOf_ok_iff {shapes : List (Token × Shape)} :
    (∃ keys, keysOf shapes = .ok keys) ↔ ∀ type f, (type, .fields f) ∈ shapes →
      f.binding ≠ .invalid → ∃ field ∈ f.fields, field.name = f.binding := by
  induction shapes with
  | nil => exact ⟨fun _ _ _ h => absurd h List.not_mem_nil, fun _ => ⟨[], rfl⟩⟩
  | cons entry shapes ih =>
    obtain ⟨t, shape⟩ := entry
    cases shape with
    | sequence q =>
      rw [keysOf, ih]
      constructor
      · intro h type f hf
        rcases List.mem_cons.1 hf with hf | hf
        · cases hf
        · exact h type f hf
      · exact fun h type f hf => h type f (.tail _ hf)
    | fields f =>
      have hall : (∀ type f', (type, Shape.fields f') ∈ (t, Shape.fields f) :: shapes →
          f'.binding ≠ .invalid → ∃ field ∈ f'.fields, field.name = f'.binding) ↔
            (f.binding ≠ .invalid → ∃ field ∈ f.fields, field.name = f.binding) ∧
              ∃ keys, keysOf shapes = .ok keys := by
        rw [ih]
        constructor
        · exact fun h => ⟨h t f (.head _), fun type f' hf => h type f' (.tail _ hf)⟩
        · intro h type f' hf
          rcases List.mem_cons.1 hf with hf | hf
          · cases hf
            exact h.1
          · exact h.2 type f' hf
      rw [hall, keysOf]
      by_cases hinvalid : f.binding = .invalid
      · rw [if_pos hinvalid]
        exact ⟨fun h => ⟨fun hne => absurd hinvalid hne, h⟩, And.right⟩
      · rw [if_neg hinvalid]
        cases hindex : f.index f.binding with
        | none =>
          have hnone : ¬ ∃ field ∈ f.fields, field.name = f.binding := by
            rw [Fields.index, List.findIdx?_eq_none_iff] at hindex
            intro h
            obtain ⟨field, hfield, hname⟩ := h
            have hno := hindex field hfield
            rw [hname, decide_eq_true rfl] at hno
            cases hno
          constructor
          · intro h
            obtain ⟨keys, h⟩ := h
            cases h
          · exact fun h => absurd (h.1 hinvalid) hnone
        | some index =>
          have hfound := List.findIdx?_eq_some_iff_getElem.1 hindex
          obtain ⟨hlt, hname, -⟩ := hfound
          have hfield := List.getElem?_eq_getElem hlt
          simp only [hfield]
          constructor
          · intro h
            obtain ⟨keys, h⟩ := h
            obtain ⟨rest, hrest, -⟩ := bind_eq_ok.1 h
            exact ⟨fun _ => ⟨_, List.getElem_mem hlt, of_decide_eq_true hname⟩, rest, hrest⟩
          · intro h
            obtain ⟨-, rest, hrest⟩ := h
            rw [hrest]
            exact ⟨_, rfl⟩

theorem genKeys_ok_iff : (∃ keys, wf.genKeys genBound = .ok keys) ↔ (genBound = true →
    ∀ type f, (type, .fields f) ∈ wf.shapes → f.binding ≠ .invalid →
      ∃ field ∈ f.fields, field.name = f.binding) := by
  rw [genKeys]
  cases genBound with
  | false => exact ⟨fun _ h => absurd h Bool.false_ne_true, fun _ => ⟨[], rfl⟩⟩
  | true =>
    rw [if_pos rfl, populateBindingKeys, keysOf_ok_iff]
    exact ⟨fun h _ => h, fun h => h rfl⟩

theorem genWith_eq {bindingKeys : List (Token × SymtabKeys)}
    (h : wf.genKeys genBound = .ok bindingKeys) :
    wf.genWith gloc draws targetDepth genBound [] fuel =
      (wf.genNodes (wf.boundGenerator targetDepth genBound) gloc draws fuel [(0, 0)] topOnly 0).map
        fun
          | .ok (tree, _) => .tree tree
          | .error e => .thrown e := by
  obtain ⟨known, hknown, -⟩ := wf.plain.computeMinimumDistanceToTerminal_complete targetDepth
  have hgenerator : wf.boundGenerator targetDepth genBound =
      { tokenTerminalDistance := known, targetDepth, bindingKeys, genBoundVars := genBound } := by
    simp only [boundGenerator, Trieste.Wellformed.generator, h, hknown, Option.getD_some]
  rewrite [genWith, h, hknown, hgenerator]
  rfl

theorem genWith_returns : (∃ fuel tree,
    wf.genWith gloc draws targetDepth genBound [] fuel = some (.tree tree)) ↔
      (∃ keys, wf.genKeys genBound = .ok keys) ∧
        wf.Ends (wf.boundGenerator targetDepth genBound) gloc draws := by
  cases hkeys : wf.genKeys genBound with
  | error e =>
    constructor
    · intro h
      obtain ⟨fuel, tree, h⟩ := h
      simp only [genWith, hkeys, Option.some.injEq, reduceCtorEq] at h
    · intro h
      obtain ⟨⟨keys, h⟩, -⟩ := h
      cases h
  | ok keys =>
    simp only [Ends, genWith_eq hkeys, Option.map_eq_some_iff]
    constructor
    · intro h
      obtain ⟨fuel, tree, r, hr, htree⟩ := h
      cases r with
      | error e => cases htree
      | ok r => exact ⟨⟨keys, rfl⟩, fuel, r, hr⟩
    · intro h
      obtain ⟨-, fuel, r, hr⟩ := h
      exact ⟨fuel, r.1, .ok r, hr, rfl⟩

theorem Finishes.no_throw (h : wf.Finishes targetDepth genBound) (hne : wf.plain.NonemptyChoices)
    (hk : wf.Reached (wf.boundGenerator targetDepth genBound) gloc draws k) :
    wf.step (wf.boundGenerator targetDepth genBound) gloc draws k ≠ .error e := by
  intro he
  have hserves := wf.plain.generator_serves hne targetDepth
  obtain ⟨tasks, s, i⟩ := k
  have hgen : wf.Generating tasks s := hk.generating
  cases tasks with
  | nil => cases he
  | cons t rest =>
    have hperform : wf.perform (wf.boundGenerator targetDepth genBound) gloc draws t s i =
        .error e := by
      cases hperform : wf.perform (wf.boundGenerator targetDepth genBound) gloc draws t s i with
      | error e' => exact congrArg _ (Except.error.inj ((step_throws hperform rest).symm.trans he))
      | ok r =>
        rw [step] at he
        simp only [hperform] at he
        cases he
    cases t with
    | node depth n =>
      rw [perform] at hperform
      split at hperform <;> cases hperform
    | choice c depth n =>
      obtain ⟨type, shape, hshape, hc⟩ := (List.forall_mem_cons.1 hgen.fits).1
      obtain ⟨hcne, hknown⟩ := hserves.handles type shape hshape c hc
      have herror : (wf.boundGenerator targetDepth genBound).genChoice gloc draws c depth n s i =
          .error e := by
        rw [perform] at hperform
        cases hr : (wf.boundGenerator targetDepth genBound).genChoice gloc draws c depth n s i with
        | error e' =>
          rw [hr] at hperform
          cases hperform
          rfl
        | ok r =>
          rw [hr] at hperform
          cases hperform
      rcases Generator.genChoice_error herror with ⟨e', he'⟩ | ⟨t, j, hchoose, hlocation⟩
      · obtain ⟨u, -, j, hu⟩ := Gen.choose_ok hserves.weights hknown hcne depth
          (s.heap.get n).type draws i
        cases he'.symm.trans hu
      · rw [Generator.childLocation, Generator.location] at hlocation
        split at hlocation
        · cases hlocation
        · next symbol hsymbol =>
          have hlt := h.inside gloc draws _ n _ _ symbol (.choice hk hchoose) hsymbol
          rw [List.getElem?_eq_getElem hlt] at hlocation
          cases hlocation
    | bind n =>
      obtain ⟨f, hf, field, hfield, hbinding⟩ := (List.forall_mem_cons.1 hgen.fits).1
      have hn : n ≠ 0 := by
        rintro rfl
        rw [hgen.rooted.top.2] at hf
        exact h.top f hf field hfield hbinding
      have hlt : n < s.heap.nodes.length := (List.forall_mem_cons.1 hgen.targets).1
      obtain ⟨st, hst⟩ := hgen.rooted.scope hlt hn
      rw [perform, Scopes.bind, Scopes.scope, hst] at hperform
      cases hperform
    | more c depth n left =>
      cases left with
      | zero => cases hperform
      | succ left =>
        rw [perform] at hperform
        split at hperform <;> cases hperform
    | children depth n => cases hperform

theorem genFields_orphan {f : Fields} {fields : List Field} {r : Scopes × Nat}
    (h : g.genFields gloc draws f depth n fields (s, i) = .ok r) (hn : n < s.heap.nodes.length)
    (hparent : (s.heap.get n).parent = none) : ∀ field ∈ fields, f.binding ≠ field.name := by
  induction fields generalizing s i with
  | nil => exact fun _ h => absurd h List.not_mem_nil
  | cons field fields ih =>
    rw [Generator.genFields] at h
    obtain ⟨⟨s₁, i₁⟩, hr, h⟩ := bind_eq_ok.1 h
    obtain ⟨type, j, location, -, -, hs⟩ := Generator.genChoice_ok.1 hr
    cases hs
    have hparent' : ((chosen s.heap n type location).get n).parent = none := by
      rw [parent_chosen, if_neg (Nat.ne_of_lt hn), hparent]
    have hn' : n < (chosen s.heap n type location).nodes.length := by
      rw [length_chosen]
      exact Nat.lt_succ_of_lt hn
    dsimp only at h
    by_cases hbinding : f.binding = field.name
    · rw [if_pos hbinding, Scopes.bind, Scopes.scope, Json.Store.scope, hparent'] at h
      cases h
    · rw [if_neg hbinding] at h
      exact List.forall_mem_cons.2 ⟨hbinding, ih h hn' hparent'⟩

theorem Ends.top (h : wf.Ends g gloc draws) (hf : wf.find .top = some (.fields f)) :
    ∀ field ∈ f.fields, f.binding ≠ field.name := by
  have hfind : wf.find (topOnly.heap.get 0).type = some (.fields f) := hf
  cases hshape : g.genShape gloc draws 0 0 topOnly 0 (.fields f) with
  | error e =>
    obtain ⟨k, hk, he⟩ := shape_throws hfind hshape []
    exact absurd he (h.no_throw hk)
  | ok r => exact genFields_orphan hshape Nat.one_pos rfl

theorem Ends.inside (h : wf.Ends g gloc draws) (hask : wf.Asks g gloc draws s parent child result)
    (hsymbol : g.selected s parent child result = some symbol) :
    g.keyIndex (s.heap.get child).type < (s.heap.get symbol).children.length := by
  cases hask with
  | @choice c depth _ rest s i type j hk hc =>
    by_contra hle
    have hnone := List.getElem?_eq_none (Nat.le_of_not_lt hle)
    have hlocation : g.childLocation gloc draws parent s type j = .error .outside := by
      rw [Generator.childLocation, Generator.location]
      simp only [hsymbol, hnone]
    have hthrow : wf.perform g gloc draws (.choice c depth parent) s i = .error .outside := by
      rw [perform, Generator.genChoice_eq, hc]
      simp only [Except.mapError, ok_bind, hlocation]
      rfl
    exact h.no_throw hk (step_throws hthrow rest)

/-- Trees are returned for all random numbers exactly where the definition and the target depth meet
the conditions, and then for all seeds. -/
theorem gen_returns_iff (wf : Wellformed) (targetDepth : Nat) (genBound : Bool)
    (hne : wf.plain.NonemptyChoices) :
    ((∀ gloc draws, ∃ fuel tree,
      wf.genWith gloc draws targetDepth genBound [] fuel = some (.tree tree)) ↔
        wf.Finishes targetDepth genBound) ∧
    (wf.Finishes targetDepth genBound → ∀ gloc seed, seed ≠ 0 → ∃ fuel tree,
      wf.gen gloc seed targetDepth genBound [] fuel = some (.tree tree)) := by
  have hserves := wf.plain.generator_serves hne targetDepth
  have hiff : (∀ gloc draws, ∃ fuel tree,
      wf.genWith gloc draws targetDepth genBound [] fuel = some (.tree tree)) ↔
        wf.Finishes targetDepth genBound := by
    simp only [genWith_returns]
    constructor
    · intro h
      have hends : ∀ gloc draws, wf.Ends (wf.boundGenerator targetDepth genBound) gloc draws :=
        fun gloc draws => (h gloc draws).2
      refine ⟨genKeys_ok_iff.1 (h numbered fun _ => 0).1, fun f hf => ?_,
        fun gloc draws s parent child result symbol hask hsymbol => ?_, ?_⟩
      · exact (hends numbered fun _ => 0).top hf
      · exact (hends gloc draws).inside hask hsymbol
      · rw [← hserves.stackEnds_iff]
        have hacc := (next_supplied wf _).acc fun draws => (hends numbered draws).acc
        exact (safe_start (hends numbered)).stackEnds hacc fresh_start
    · intro h gloc draws
      refine ⟨genKeys_ok_iff.2 h.keys, ?_⟩
      have hends := hserves.stackEnds_iff.2 h.greedy
      exact genNodes_ends (fun k e hk => h.no_throw hne hk) .refl fresh_start hends
  refine ⟨hiff, fun h gloc seed hseed => ?_⟩
  obtain ⟨hstate, -⟩ := Rand.state_eq hseed 10
  obtain ⟨fuel, tree, htree⟩ := hiff.2 h gloc (Rand.results _)
  exact ⟨fuel, tree, (wf.gen_genWith hstate).trans htree⟩

/-- `Top <<= Expr` and `Expr <<= Expr | Lit`. -/
def expressions : Wellformed where
  shapes := [
    (⟨"expr", 0⟩, .fields {
      fields := [{ name := ⟨"expr", 0⟩, choice := ⟨[⟨"expr", 0⟩, ⟨"lit", 0⟩]⟩ }]
      apart := by decide }),
    (.top, .fields {
      fields := [{ name := ⟨"expr", 0⟩, choice := ⟨[⟨"expr", 0⟩]⟩ }]
      apart := by decide })]
  distinct := (by decide : [⟨"expr", 0⟩, Token.top].Nodup)

theorem expressions_nonempty : expressions.plain.NonemptyChoices := by
  intro t shape hs choice hc
  obtain ⟨before, after, he, _⟩ := List.lookup_eq_some_iff.1 hs
  have hentry : (t, shape) ∈ expressions.plain.shapes :=
    he ▸ List.mem_append_right _ List.mem_cons_self
  have hall : ∀ e ∈ expressions.plain.shapes, ∀ c ∈ e.2.choices, c.types ≠ [] := by decide
  exact hall _ hentry choice hc

theorem expressions_find (ht : t ≠ ⟨"expr", 0⟩) (htop : t ≠ .top) :
    expressions.plain.find t = none := by
  have hexpr : (t == ⟨"expr", 0⟩) = false := beq_eq_false_iff_ne.2 ht
  have htop : (t == .top) = false := beq_eq_false_iff_ne.2 htop
  simp only [Trieste.Wellformed.find, plain, expressions, List.map_cons, List.map_nil,
    List.lookup_cons, hexpr, htop, List.lookup_nil]

theorem expressions_picks (h : expressions.plain.Picks known t c) :
    (t = ⟨"expr", 0⟩ ∧ pick known [⟨"expr", 0⟩, ⟨"lit", 0⟩] = some c) ∨
      (t = .top ∧ c = ⟨"expr", 0⟩) := by
  obtain ⟨shape, hshape, hc⟩ := h
  by_cases he : t = ⟨"expr", 0⟩
  · refine .inl ⟨he, ?_⟩
    rw [he] at hshape
    cases hshape
    obtain ⟨choice, hm, hc⟩ := List.mem_filterMap.1 hc
    rwa [List.mem_singleton.1 hm] at hc
  · by_cases htop : t = .top
    · refine .inr ⟨htop, ?_⟩
      rw [htop] at hshape
      cases hshape
      obtain ⟨choice, hm, hc⟩ := List.mem_filterMap.1 hc
      rw [List.mem_singleton.1 hm] at hc
      exact List.mem_singleton.1 (List.mem_of_find?_eq_some hc)
    · cases (expressions_find he htop).symm.trans hshape

theorem expressions_finishes : expressions.Finishes 2 true := by
  have hshapes : ∀ type f, (type, Shape.fields f) ∈ expressions.shapes → f.binding = .invalid ∧
      ∀ field ∈ f.fields, f.binding ≠ field.name := by
    intro type f hf
    rcases List.mem_cons.1 hf with hf | hf
    · cases hf
      exact ⟨rfl, by decide⟩
    · cases List.mem_singleton.1 hf
      exact ⟨rfl, by decide⟩
  refine ⟨fun _ type f hf hb => absurd (hshapes type f hf).1 hb, fun f hf => ?_,
    fun gloc draws s parent child result symbol _ hsymbol => ?_, fun t _ => ?_⟩
  · obtain ⟨before, after, he, _⟩ := List.lookup_eq_some_iff.1 hf
    exact (hshapes .top f (he ▸ List.mem_append_right _ List.mem_cons_self)).2
  · have hkeys : (expressions.boundGenerator 2 true).bindingKeys = [] := rfl
    cases (Generator.selected_none (.inr hkeys)).symm.trans hsymbol
  · have hlit : Acc (fun x y => expressions.plain.Picks
        (expressions.plain.generator 2).tokenTerminalDistance y x) ⟨"lit", 0⟩ := by
      refine .intro _ fun c hc => ?_
      rcases expressions_picks hc with ⟨h, -⟩ | ⟨h, -⟩ <;> exact absurd h (by decide)
    have hexpr : Acc (fun x y => expressions.plain.Picks
        (expressions.plain.generator 2).tokenTerminalDistance y x) ⟨"expr", 0⟩ := by
      refine .intro _ fun c hc => ?_
      rcases expressions_picks hc with ⟨-, h⟩ | ⟨h, -⟩
      · have hpick : pick (expressions.plain.generator 2).tokenTerminalDistance
            [⟨"expr", 0⟩, ⟨"lit", 0⟩] = some ⟨"lit", 0⟩ := by decide
        cases hpick.symm.trans h
        exact hlit
      · exact absurd h (by decide)
    apply not_cycleFrom_of_acc
    refine .intro _ fun c hc => ?_
    rcases expressions_picks hc with ⟨rfl, -⟩ | ⟨-, rfl⟩
    · exact hexpr.inv hc
    · exact hexpr

theorem gen_returns_expressions : ∃ fuel tree,
    expressions.gen numbered 3 2 true [] fuel = some (.tree tree) :=
  (gen_returns_iff expressions 2 true expressions_nonempty).2 expressions_finishes numbered 3
    (by decide)

open Trieste.Wellformed (Derives)

theorem expressions_derives (t : Token) : expressions.plain.Derives t := by
  have hlit : expressions.plain.Derives ⟨"lit", 0⟩ := .leaf rfl
  have hexpr : expressions.plain.Derives ⟨"expr", 0⟩ :=
    .fields (fun _ => ⟨"lit", 0⟩) rfl (by decide) fun _ _ => hlit
  by_cases he : t = ⟨"expr", 0⟩
  · exact he ▸ hexpr
  · by_cases htop : t = .top
    · exact htop ▸ .fields (fun _ => ⟨"expr", 0⟩) rfl (by decide) fun _ _ => hexpr
    · exact .leaf (expressions_find he htop)

theorem genNodes_single {f : Fields} (hg : g.genBoundVars = false)
    (hfind : wf.find (s.heap.get n).type = some (.fields f)) (hf : f.fields = [field])
    (hbinding : f.binding ≠ field.name)
    (hchoose : g.choose field.choice.types depth (s.heap.get n).type draws i = .ok (t, j))
    (hn : n < s.heap.nodes.length) (hchildless : (s.heap.get n).children = []) (fuel : Nat) :
    wf.genNodes g numbered draws (fuel + 1) [(depth, n)] s i =
      wf.genNodes g numbered draws fuel [(depth + 1, s.heap.nodes.length)]
        { s with heap := chosen s.heap n t (place s.heap.nodes.length) } (j + 1) := by
  have hlocation : g.childLocation numbered draws n s t j = .ok (place s.heap.nodes.length) := by
    rw [Generator.childLocation, Generator.location, Generator.selected_none (.inl hg)]
    rfl
  have hchoice := Generator.genChoice_ok.2 ⟨t, j, _, hchoose, hlocation, rfl⟩
  rw [afterChild_numbered] at hchoice
  have hshape : g.genShape numbered draws depth n s i (.fields f) =
      .ok ({ s with heap := chosen s.heap n t (place s.heap.nodes.length) }, j + 1) := by
    rw [Generator.genShape, hf, Generator.genFields, hchoice, ok_bind]
    simp only [if_neg hbinding]
    rfl
  rw [genNodes]
  simp only [hfind, hshape, children_chosen hn, hchildless, if_true, List.nil_append,
    List.map_singleton, List.append_nil]

/-- The penalty of an ancestor disappears in the average, and `Expr` is taken forever. -/
theorem gen_cycle : expressions.plain.NonemptyChoices ∧ (∀ t, expressions.plain.Derives t) ∧
    ∀ fuel, expressions.gen numbered 3 1 false [] fuel = none := by
  refine ⟨expressions_nonempty, expressions_derives, fun fuel => ?_⟩
  have hserves := expressions.plain.generator_serves expressions_nonempty 1
  have hpick : pick (expressions.plain.generator 1).tokenTerminalDistance
      [⟨"expr", 0⟩, ⟨"lit", 0⟩] = some ⟨"expr", 0⟩ := by decide
  have hbound : (expressions.boundGenerator 1 false).genBoundVars = false := rfl
  obtain ⟨rand, hrand⟩ : ∃ rand, Rand.state 3 10 = some rand :=
    ⟨_, (Rand.state_eq (by decide) 10).1⟩
  have heven : (rand.results 1).toNat % 2 = 0 := by
    have hmap : (Rand.state 3 10).map (fun r => (r.results 1).toNat % 2) = some 0 := by
      decide +kernel
    rw [hrand] at hmap
    exact Option.some.inj hmap
  rw [gen_genWith _ hrand, genWith_eq rfl, Option.map_eq_none_iff]
  have hloop (fuel depth : Nat) (n : Node) (s : Scopes) (i : Nat) (hd : 2 ≤ depth)
      (htype : (s.heap.get n).type = ⟨"expr", 0⟩) (hn : n < s.heap.nodes.length)
      (hchildless : (s.heap.get n).children = []) :
      expressions.genNodes (expressions.boundGenerator 1 false) numbered rand.results fuel
        [(depth, n)] s i = none := by
    induction fuel generalizing depth n s i with
    | zero => rfl
    | succ fuel ih =>
      obtain ⟨t, ht, hchoose⟩ := Gen.choose_greedy hserves.weights hd
        (hserves.handles ⟨"expr", 0⟩ _ rfl _ (List.mem_singleton_self _)).2 (List.cons_ne_nil _ _)
        (s.heap.get n).type rand.results i
      cases hpick.symm.trans ht
      have hfind : expressions.find (s.heap.get n).type = expressions.find ⟨"expr", 0⟩ := by
        rw [htype]
      rw [genNodes_single hbound hfind rfl (by decide) hchoose hn hchildless]
      apply ih _ _ _ _ (Nat.le_succ_of_le hd)
      · rw [type_chosen, if_pos rfl]
      · rw [length_chosen]
        exact Nat.lt_succ_self _
      · rw [children_chosen hn, if_neg (Nat.ne_of_lt hn), Heap.get_of_le _ (Nat.le_refl _)]
  -- the first child is an expression, and so is the second one by the draw
  have hsecond : (expressions.boundGenerator 1 false).choose [⟨"expr", 0⟩, ⟨"lit", 0⟩] 1
      ⟨"expr", 0⟩ rand.results 1 = .ok (⟨"expr", 0⟩, 2) := by
    have hweights : (expressions.boundGenerator 1 false).tokenWeights = [] := rfl
    have hdepth : 1 ≤ (expressions.boundGenerator 1 false).targetDepth := Nat.le_refl 1
    simp only [Gen.choose, hweights, hdepth, if_true, ne_eq, not_true_eq_false, if_false,
      List.length_cons, List.length_nil, heven]
    rfl
  cases fuel with
  | zero => rfl
  | succ fuel =>
    have htop : expressions.find (topOnly.heap.get 0).type = expressions.find .top := rfl
    have hfirst : (expressions.boundGenerator 1 false).choose [⟨"expr", 0⟩] 0
        (topOnly.heap.get 0).type rand.results 0 = .ok (⟨"expr", 0⟩, 0) := rfl
    have hlt : 0 < topOnly.heap.nodes.length := Nat.one_pos
    rw [genNodes_single hbound htop rfl (by decide) hfirst hlt rfl]
    cases fuel with
    | zero => rfl
    | succ fuel =>
      rw [genNodes_single hbound rfl rfl (by decide) hsecond (Nat.lt_succ_self 1) rfl]
      exact hloop fuel 2 _ _ _ (Nat.le_refl 2) rfl (Nat.lt_succ_self 2) rfl

end Wellformed

end Trieste.Bindings
