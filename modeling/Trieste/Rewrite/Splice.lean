import Trieste.Ast.Errors
import Trieste.Ast.Touched

namespace Trieste
set_option autoImplicit true
open Library Relation

namespace Heap

def writeLocation (h : Heap) (n : Node) (loc : Location) : Heap :=
  h.modify n fun d => { d with location := loc }

/-- The traversal of `set_location`, with the nodes that are left at each depth; nothing where it
does not end within the fuel. -/
def setLocationLoop (loc : Location) : Nat → Heap → List (List Node) → Option Heap
  | 0, _, _ => none
  | _ + 1, h, [] => some h
  | fuel + 1, h, [] :: path => setLocationLoop loc fuel h path
  | fuel + 1, h, (curr :: rest) :: path =>
    if (h.get curr).location.source.isSome then setLocationLoop loc fuel h (rest :: path)
    else
      let h := h.writeLocation curr loc
      setLocationLoop loc fuel h ((h.get curr).children :: rest :: path)

/-- `set_location` -/
def setLocation (h : Heap) (fuel : Nat) (n : Node) (loc : Location) : Option Heap :=
  setLocationLoop loc fuel h [[n]]

/-- The nodes that have no source may have got the location, and nothing else is changed. -/
structure Located (loc : Location) (h h' : Heap) : Prop where
  length : h'.nodes.length = h.nodes.length
  type : ∀ m, (h'.get m).type = (h.get m).type
  children : ∀ m, (h'.get m).children = (h.get m).children
  parent : ∀ m, (h'.get m).parent = (h.get m).parent
  location : ∀ m, (h'.get m).location = (h.get m).location ∨
    (h.get m).location.source = none ∧ (h'.get m).location = loc

namespace Located

theorem refl (loc : Location) (h : Heap) : Located loc h h :=
  ⟨rfl, fun _ => rfl, fun _ => rfl, fun _ => rfl, fun _ => .inl rfl⟩

theorem trans (h : Located loc heap heap₁) (h' : Located loc heap₁ heap₂) :
    Located loc heap heap₂ := by
  refine ⟨h'.length.trans h.length, fun m => (h'.type m).trans (h.type m),
    fun m => (h'.children m).trans (h.children m), fun m => (h'.parent m).trans (h.parent m),
    fun m => ?_⟩
  rcases h.location m with hsame | ⟨hnone, hloc⟩
  · rw [← hsame]
    exact h'.location m
  · rcases h'.location m with hsame' | ⟨-, hloc'⟩
    · exact .inr ⟨hnone, hsame'.trans hloc⟩
    · exact .inr ⟨hnone, hloc'⟩

/-- A node that has got the location keeps it. -/
theorem keeps (h : Located loc heap heap') (hm : (heap.get m).location = loc) :
    (heap'.get m).location = loc := by
  rcases h.location m with hsame | ⟨-, hloc⟩
  · rw [hsame, hm]
  · exact hloc

theorem write (hn : (heap.get n).location.source = none) :
    Located loc heap (heap.writeLocation n loc) := by
  refine ⟨length_modify .., fun m => ?_, fun m => ?_, fun m => ?_, fun m => ?_⟩
  · exact proj_modify (π := NodeDef.type) heap n m _ fun _ => rfl
  · exact proj_modify (π := NodeDef.children) heap n m _ fun _ => rfl
  · exact proj_modify (π := NodeDef.parent) heap n m _ fun _ => rfl
  · rw [writeLocation, get_modify]
    split
    · next heq => exact .inr ⟨heq.1 ▸ hn, rfl⟩
    · exact .inl rfl

end Located

/-- The second node is the first one or below it, and no node on the way down to it has a source. -/
inductive Bare (h : Heap) : Node → Node → Prop
  | here : (h.get n).location.source = none → Bare h n n
  | child : (h.get n).location.source = none → h.HasChild n c → Bare h c m → Bare h n m

/-- Where a node has got a source, the nodes below it that are to get the location have got it. -/
structure Spread (loc : Location) (h h' : Heap) : Prop extends Located loc h h' where
  below : ∀ p m, (h'.get p).location.source ≠ none → m < h.nodes.length → Bare h p m →
    (h'.get m).location = loc

theorem Spread.refl (loc : Location) (h : Heap) : Spread loc h h := by
  refine ⟨.refl loc h, fun p m hsome _ hbare => ?_⟩
  cases hbare with
  | here hnone => exact absurd hnone hsome
  | child hnone _ _ => exact absurd hnone hsome

/-- What is left to be done, once some nodes have got the location. -/
theorem Bare.left (h : Bare heap n m) (hs : Spread loc heap heap') (hm : m < heap.nodes.length) :
    Bare heap' n m ∨ (heap'.get m).location = loc := by
  induction h with
  | @here n hn =>
    by_cases hn' : (heap'.get n).location.source = none
    · exact .inl (.here hn')
    · exact .inr (hs.below n n hn' hm (.here hn))
  | @child n c m hn hc hrest ih =>
    by_cases hn' : (heap'.get n).location.source = none
    · have hc' : heap'.HasChild n c := by
        rw [HasChild, hs.children]
        exact hc
      exact (ih hm).imp_left (.child hn' hc')
    · exact .inr (hs.below n m hn' hm (.child hn hc hrest))

theorem Spread.trans (h : Spread loc heap heap₁) (h' : Spread loc heap₁ heap₂) :
    Spread loc heap heap₂ := by
  refine ⟨h.toLocated.trans h'.toLocated, fun p m hsome hm hbare => ?_⟩
  rcases hbare.left h hm with hleft | hdone
  · exact h'.below p m hsome (h.length.symm ▸ hm) hleft
  · exact h'.keeps hdone

/-- The way down to a node leads through the node that gets the location, or it is left. -/
theorem Bare.write (h : Bare heap p m) (n : Node) (loc : Location) :
    Bare (heap.writeLocation n loc) p m ∨ heap.InTree p n ∧ Bare heap n m := by
  have hother : ∀ p ≠ n, (heap.writeLocation n loc).get p = heap.get p := by
    intro p hp
    rw [writeLocation, get_modify, if_neg fun heq => hp heq.1.symm]
  induction h with
  | @here p hp =>
    by_cases heq : p = n
    · subst heq
      exact .inr ⟨.refl, .here hp⟩
    · exact .inl (.here ((hother p heq).symm ▸ hp))
  | @child p c m hp hc hrest ih =>
    by_cases heq : p = n
    · subst heq
      exact .inr ⟨.refl, .child hp hc hrest⟩
    · rcases ih with hleft | ⟨hin, hbare⟩
      · have hc' : (heap.writeLocation n loc).HasChild p c := by
          rw [HasChild, hother p heq]
          exact hc
        exact .inl (.child ((hother p heq).symm ▸ hp) hc' hleft)
      · exact .inr ⟨.head hc hin, hbare⟩

theorem setLocationLoop_list {h₀ : Heap} (loc : Location) {cs : List Node}
    (hnode : ∀ c ∈ cs, ∀ heap : Heap, (∀ m, (heap.get m).children = (h₀.get m).children) →
      ∃ k heap', Spread loc heap heap' ∧
        (∀ m < heap.nodes.length, Bare heap c m → (heap'.get m).location = loc) ∧
        ∀ fuel rest path, setLocationLoop loc (fuel + k) heap ((c :: rest) :: path) =
          setLocationLoop loc fuel heap' (rest :: path))
    (heap : Heap) (hsame : ∀ m, (heap.get m).children = (h₀.get m).children) :
    ∃ k heap', Spread loc heap heap' ∧
      (∀ c ∈ cs, ∀ m < heap.nodes.length, Bare heap c m → (heap'.get m).location = loc) ∧
      ∀ fuel path,
        setLocationLoop loc (fuel + k) heap (cs :: path) = setLocationLoop loc fuel heap' path := by
  induction cs generalizing heap with
  | nil => exact ⟨1, heap, .refl loc heap, (fun _ hc => nomatch hc), fun fuel path => rfl⟩
  | cons c cs ih =>
    obtain ⟨k, heap₁, hs, hc, hloop⟩ := hnode c List.mem_cons_self heap hsame
    have hsame₁ : ∀ m, (heap₁.get m).children = (h₀.get m).children := fun m =>
      (hs.children m).trans (hsame m)
    obtain ⟨k', heap₂, hs', hcs, hloop'⟩ :=
      ih (fun c' hc' => hnode c' (List.mem_cons_of_mem c hc')) heap₁ hsame₁
    refine ⟨k' + k, heap₂, hs.trans hs', fun c' hc' m hm hbare => ?_, fun fuel path => ?_⟩
    · rcases List.mem_cons.1 hc' with rfl | hc'
      · exact hs'.keeps (hc m hm hbare)
      · rcases hbare.left hs hm with hleft | hdone
        · exact hcs c' hc' m (hs.length.symm ▸ hm) hleft
        · exact hs'.keeps hdone
    · rw [← Nat.add_assoc, hloop, hloop']

theorem setLocationLoop_node {h₀ : Heap} (loc : Location) (htree : h₀.IsTree n) (heap : Heap)
    (hsame : ∀ m, (heap.get m).children = (h₀.get m).children) :
    ∃ k heap', Spread loc heap heap' ∧
      (∀ m < heap.nodes.length, Bare heap n m → (heap'.get m).location = loc) ∧
      ∀ fuel rest path, setLocationLoop loc (fuel + k) heap ((n :: rest) :: path) =
        setLocationLoop loc fuel heap' (rest :: path) := by
  induction htree generalizing heap with
  | intro n hacc ih =>
    cases hsource : (heap.get n).location.source with
    | some source =>
      refine ⟨1, heap, .refl loc heap, fun m hm hbare => ?_, fun fuel rest path => ?_⟩
      · exact (Spread.refl loc heap).below n m (by rw [hsource]; exact nofun) hm hbare
      · rw [setLocationLoop, hsource]
        rfl
    | none =>
      have hwrite : Located loc heap (heap.writeLocation n loc) := .write hsource
      have hsame₁ : ∀ m, ((heap.writeLocation n loc).get m).children = (h₀.get m).children :=
        fun m => (hwrite.children m).trans (hsame m)
      have hchild : ∀ c ∈ ((heap.writeLocation n loc).get n).children, h₀.HasChild n c := by
        intro c hc
        rw [hsame₁] at hc
        exact hc
      obtain ⟨k, heap', hs, hcs, hloop⟩ := setLocationLoop_list loc
        (fun c hc => ih c (hchild c hc)) (heap.writeLocation n loc) hsame₁
      -- the way down from a child does not come back to the node
      have hdone : ∀ m < heap.nodes.length, Bare heap n m → (heap'.get m).location = loc := by
        intro m hm hbare
        cases hbare with
        | here _ =>
          apply hs.keeps
          rw [writeLocation, get_modify, if_pos ⟨rfl, hm⟩]
        | @child _ c _ _ hc hrest =>
          have hc₁ : c ∈ ((heap.writeLocation n loc).get n).children := by
            rw [hwrite.children]
            exact hc
          rcases hrest.write n loc with hleft | ⟨hback, -⟩
          · exact hcs c hc₁ m (hwrite.length.symm ▸ hm) hleft
          · have hback₀ : h₀.InTree c n := by
              apply Relation.ReflTransGen.mono _ c n hback
              intro p q hq
              rw [HasChild, hsame] at hq
              exact hq
            have hcycle : TransGen h₀.HasChild n n := TransGen.head' (hchild c hc₁) hback₀
            exact absurd hcycle (acyclic_of_acc (Acc.intro n hacc))
      refine ⟨k + 1, heap', ⟨hwrite.trans hs.toLocated, fun p m hsome hm hbare => ?_⟩, hdone,
        fun fuel rest path => ?_⟩
      · rcases hbare.write n loc with hleft | ⟨-, hbare⟩
        · exact hs.below p m hsome (hwrite.length.symm ▸ hm) hleft
        · exact hdone m hm hbare
      · rw [← Nat.add_assoc, setLocationLoop, hsource]
        exact hloop fuel (rest :: path)

theorem setLocation_all {h₀ : Heap} (loc : Location) {ns : List Node}
    (htree : ∀ n ∈ ns, h₀.IsTree n) (heap : Heap)
    (hsame : ∀ m, (heap.get m).children = (h₀.get m).children) :
    ∃ bound heap', Spread loc heap heap' ∧
      (∀ n ∈ ns, ∀ m < heap.nodes.length, Bare heap n m → (heap'.get m).location = loc) ∧
      ∀ fuel, bound ≤ fuel →
        ns.foldlM (fun h n => h.setLocation fuel n loc) heap = some heap' := by
  induction ns generalizing heap with
  | nil => exact ⟨0, heap, .refl loc heap, (fun _ hn => nomatch hn), fun _ _ => rfl⟩
  | cons n ns ih =>
    obtain ⟨k, heap₁, hs, hn, hloop⟩ :=
      setLocationLoop_node loc (htree n List.mem_cons_self) heap hsame
    have hsame₁ : ∀ m, (heap₁.get m).children = (h₀.get m).children := fun m =>
      (hs.children m).trans (hsame m)
    obtain ⟨bound, heap₂, hs', hns, hfold⟩ :=
      ih (fun m hm => htree m (List.mem_cons_of_mem n hm)) heap₁ hsame₁
    refine ⟨max (2 + k) bound, heap₂, hs.trans hs', fun n' hn' m hm hbare => ?_,
      fun fuel hfuel => ?_⟩
    · rcases List.mem_cons.1 hn' with rfl | hn'
      · exact hs'.keeps (hn m hm hbare)
      · rcases hbare.left hs hm with hleft | hdone
        · exact hns n' hn' m (hs.length.symm ▸ hm) hleft
        · exact hs'.keeps hdone
    · obtain ⟨hk, hbound⟩ := Nat.max_le.1 hfuel
      obtain ⟨rest, rfl⟩ := Nat.exists_eq_add_of_le' hk
      have hset : heap.setLocation (rest + (2 + k)) n loc = some heap₁ := by
        rw [setLocation, ← Nat.add_assoc, hloop]
        rfl
      rw [List.foldlM_cons, hset]
      exact hfold _ hbound

end Heap

/-- What `PassDef::replace` returns: `NOCHANGE`, `REAPPLY` or the number of nodes. -/
inductive Replaced
  | noChange
  | reapply
  | replaced (count : Nat)
  deriving DecidableEq

/-- The locations of the nodes from `start` up to `it`, joined; there is a node at `start`. -/
def joinedLocation (h : Heap) (children : List Node) (start it : Nat) : Option Location :=
  children[start]?.map fun first =>
    ((children.take it).drop (start + 1)).foldl (fun loc n => loc.join (h.get n).location)
      (h.get first).location

/-- `PassDef::replace`, behind the effect, with the new position of `it`. -/
def PassDef.replace (h : Heap) (fuel : Nat) (node : Node) (start it : Nat)
    (result : Option Node) : Option (Heap × Replaced × Nat) :=
  match result with
  | none => (joinedLocation h (h.get node).children start it).map fun _ =>
    (h.erase node start it, .replaced 0, start)
  | some result =>
    if (h.get result).type = .noChange then some (h, .noChange, it)
    else
      (joinedLocation h (h.get node).children start it).bind fun loc =>
        let h := h.erase node start it
        if (h.get result).type = .seq ∨ (h.get result).type = .reapply then
          let nodes := (h.get result).children
          (nodes.foldlM (fun h n => Heap.setLocation h fuel n loc) h).map fun h =>
            (h.insertRange node start nodes,
              if (h.get result).type = .reapply then .reapply else .replaced nodes.length, start)
        else
          (h.setLocation fuel result loc).map fun h =>
            (h.insert node start (some result), .replaced 1, start)

def resultNodes (h : Heap) : Option Node → List Node
  | none => []
  | some result =>
    if (h.get result).type = .seq ∨ (h.get result).type = .reapply then (h.get result).children
    else [result]

/-- The nodes that a rule has matched, and the nodes below them. -/
def Matched (h : Heap) (node : Node) (start it : Nat) (n : Node) : Prop :=
  ∃ m ∈ ((h.get node).children.take it).drop start, h.InTree m n

/-- The nodes that an effect may use: those that it has made and those that were matched. -/
def Usable (h : Heap) (node : Node) (start it : Nat) (n : Node) : Prop :=
  h.nodes.length ≤ n ∨ Matched h node start it n

/-- An operation of an effect, which edits and attaches only nodes that it may use. -/
structure EffectStep (usable : Node → Prop) (h : Heap) (op : NodeOp) (h' : Heap) : Prop where
  performs : op.Performs h h'
  edits : ∀ p ∈ op.edited, usable p
  attaches : ∀ n ∈ op.attached, usable n

def Unused (ops : List NodeOp) (n : Node) : Prop := ∀ op ∈ ops, n ∉ op.attached

section Effect
variable {heap heap' : Heap} {node start it : Nat} {ops : List NodeOp} {usable : Node → Prop}

/-- What an effect leaves as it is, where it may not use a node. -/
structure Kept (heap heap' : Heap) (node : Node) (usable : Node → Prop) (ops : List NodeOp) :
    Prop where
  length : heap.nodes.length ≤ heap'.nodes.length
  children : (heap'.get node).children = (heap.get node).children
  parent : ∀ c < heap.nodes.length, (heap.get c).parent = some node → ¬ usable c ∨ Unused ops c →
    (heap'.get c).parent = some node
  location : ∀ c < heap.nodes.length, (heap'.get c).location = (heap.get c).location
  closed : ∀ p c, usable p → heap'.HasChild p c → usable c

theorem kept_of_run (hrun : Library.Run (EffectStep usable) heap ops heap') (hnode : ¬ usable node)
    (hlt : node < heap.nodes.length) (hnew : ∀ n, heap.nodes.length ≤ n → usable n)
    (hclosed : ∀ p c, usable p → heap.HasChild p c → usable c) :
    Kept heap heap' node usable ops := by
  induction hrun with
  | nil heap => exact ⟨Nat.le_refl _, rfl, fun _ _ hparent _ => hparent, fun _ _ => rfl, hclosed⟩
  | @cons heap op heap₁ ops heap' hstep _ ih =>
    have htouched := NodeOp.touched hstep.performs
    have hedited : node ∉ op.edited := fun hm => hnode (hstep.edits node hm)
    have hclosed₁ : ∀ p c, usable p → heap₁.HasChild p c → usable c := by
      intro p c hp hc
      rcases htouched.added p c hc with hold | hattached | hle
      · exact hclosed p c hp hold
      · exact hstep.attaches c hattached
      · exact hnew c hle
    have ih := ih (hlt.trans_le htouched.length) (fun n hn => hnew n (htouched.length.trans hn))
      hclosed₁
    refine ⟨htouched.length.trans ih.length, ?_, fun c hc hparent huse => ?_, fun c hc => ?_,
      ih.closed⟩
    · exact ih.children.trans (htouched.children node hlt hedited)
    · have hout : c ∉ op.attached := by
        intro hm
        rcases huse with huse | huse
        · exact huse (hstep.attaches c hm)
        · exact huse op List.mem_cons_self hm
      have hrest : ¬ usable c ∨ Unused ops c :=
        huse.imp_right fun hun op hop => hun op (List.mem_cons_of_mem _ hop)
      refine ih.parent c (hc.trans_le htouched.length) ?_ hrest
      rcases htouched.parent c hc hout with hsame | ⟨⟨p, hp, hcp⟩, -⟩
      · exact hsame.trans hparent
      · rw [hparent] at hcp
        cases hcp
        exact absurd hp hedited
    · exact (ih.location c (hc.trans_le htouched.length)).trans (htouched.location c hc)

theorem Usable.child (huse : Usable heap node start it p) (hc : heap.HasChild p c) :
    Usable heap node start it c := by
  rcases huse with hle | ⟨m, hm, hbelow⟩
  · rw [Heap.HasChild, Heap.get_of_le heap hle] at hc
    cases hc
  · exact .inr ⟨m, hm, hbelow.tail hc⟩

theorem not_usable_node (htree : heap.IsTree node) (hlt : node < heap.nodes.length) :
    ¬ Usable heap node start it node := by
  intro huse
  rcases huse with hle | ⟨m, hm, hbelow⟩
  · exact absurd hlt (Nat.not_lt.2 hle)
  · have hchild : heap.HasChild node m := List.mem_of_mem_take (List.mem_of_mem_drop hm)
    exact acyclic_of_acc htree (TransGen.head' hchild hbelow)

theorem not_usable_child (h : heap.Agree) (htree : heap.IsTree node)
    (hc : c ∈ (heap.get node).children)
    (hout : c ∉ ((heap.get node).children.take it).drop start) :
    ¬ Usable heap node start it c := by
  intro huse
  rcases huse with hle | ⟨m, hm, hbelow⟩
  · exact absurd (h.lt hc) (Nat.not_lt.2 hle)
  · have hchild : heap.HasChild node m := List.mem_of_mem_take (List.mem_of_mem_drop hm)
    rcases hbelow.cases_tail with rfl | ⟨p, hp, hpc⟩
    · exact hout hm
    · rw [h.unique hpc hc] at hp
      exact acyclic_of_acc htree (TransGen.head' hchild hp)

end Effect

section Splice
variable {heap heap' : Heap} {node start it : Nat} {ns : List Node} {usable : Node → Prop}

theorem erase_children (hlt : node < heap.nodes.length) (q : Node) :
    ((heap.erase node start it).get q).children =
      if node = q then (heap.get node).children.take start ++ (heap.get node).children.drop it
      else (heap.get q).children := by
  obtain ⟨hlen, -, hchildren, -, -⟩ :=
    heap.foldl_orphan_kept node (((heap.get node).children.take it).drop start)
  rw [Heap.erase, Heap.children_setChildren, hchildren, hlen]
  simp only [hlt, and_true]

theorem erase_parent (heap : Heap) (node start it c : Node) :
    ((heap.erase node start it).get c).parent =
      if c ∈ ((heap.get node).children.take it).drop start ∧ (heap.get c).parent = some node then
        none
      else (heap.get c).parent := by
  rw [Heap.erase, Heap.parent_setChildren, Heap.foldl_orphan_parent]

theorem erase_isTree (start it : Nat) (hlt : node < heap.nodes.length) (h : heap.IsTree n) :
    (heap.erase node start it).IsTree n := by
  apply Subrelation.accessible _ h
  intro c p hc
  have hmem : c ∈ ((heap.erase node start it).get p).children := hc
  rw [erase_children hlt] at hmem
  split at hmem
  · next heq =>
    subst heq
    rcases List.mem_append.1 hmem with hbefore | hbehind
    · exact List.mem_of_mem_take hbefore
    · exact List.mem_of_mem_drop hbehind
  · exact hmem

theorem insertRange_children (hlt : node < heap.nodes.length)
    (hns : ∀ n ∈ ns, n < heap.nodes.length) (pos : Nat) :
    ((heap.insertRange node pos ns).get node).children =
      Heap.insertAt (heap.get node).children pos ns := by
  obtain ⟨hlen, hchildren, -⟩ := heap.foldl_adopt_kept node ns hns
  unfold Heap.insertRange
  split
  · next hnil =>
    rw [hnil, Heap.insertAt, List.append_nil, List.take_append_drop]
  · rw [Heap.children_setChildren, hlen, if_pos ⟨rfl, hlt⟩]

theorem insertRange_parent (hns : ∀ n ∈ ns, n < heap.nodes.length) (pos : Nat) (c : Node) :
    ((heap.insertRange node pos ns).get c).parent =
      if c ∈ ns then some node else (heap.get c).parent := by
  obtain ⟨-, -, hparent⟩ := heap.foldl_adopt_kept node ns hns
  unfold Heap.insertRange
  split
  · next hnil =>
    rw [hnil, if_neg List.not_mem_nil]
  · rw [Heap.parent_setChildren, hparent]

theorem erase_location (heap : Heap) (node start it c : Node) :
    ((heap.erase node start it).get c).location = (heap.get c).location := by
  have htouched := Heap.Touched.erase heap node start it []
  by_cases hc : c < heap.nodes.length
  · exact htouched.location c hc
  · have hlen : (heap.erase node start it).nodes.length = heap.nodes.length := by
      rw [Heap.erase, Heap.length_setChildren, (heap.foldl_orphan_kept ..).1]
    rw [Heap.get_of_le _ (hlen ▸ Nat.le_of_not_lt hc), Heap.get_of_le _ (Nat.le_of_not_lt hc)]

theorem erase_type (heap : Heap) (node start it c : Node) :
    ((heap.erase node start it).get c).type = (heap.get c).type := by
  rw [Heap.erase, Heap.type_setChildren, (heap.foldl_orphan_kept ..).2.1]

theorem bare_erase (start it : Nat) (hb : heap.Bare n m) (hlt : node < heap.nodes.length)
    (hnode : ¬ usable node) (hclosed : ∀ p c, usable p → heap.HasChild p c → usable c)
    (hn : usable n) : (heap.erase node start it).Bare n m := by
  induction hb with
  | @here n hnone => exact .here ((erase_location ..).symm ▸ hnone)
  | @child n c m hnone hc _ ih =>
    have hne : node ≠ n := fun heq => hnode (heq ▸ hn)
    have hc' : (heap.erase node start it).HasChild n c := by
      rw [Heap.HasChild, erase_children hlt, if_neg hne]
      exact hc
    exact .child ((erase_location ..).symm ▸ hnone) hc' (ih (hclosed n c hn hc))

theorem joinedLocation_eq {children : List Node}
    (hsame : ∀ c ∈ children, (heap'.get c).location = (heap.get c).location) :
    joinedLocation heap' children start it = joinedLocation heap children start it := by
  rw [joinedLocation, joinedLocation]
  cases hfirst : children[start]? with
  | none => rfl
  | some first =>
    rw [Option.map_some, Option.map_some, hsame first (List.mem_of_getElem? hfirst)]
    congr 1
    apply List.foldl_ext
    intro loc n hn
    rw [hsame n (List.mem_of_mem_take (List.mem_of_mem_drop hn))]

end Splice

/-- What a rule leaves behind, from the nodes before its effect, behind it and at the end. -/
structure Spliced (h₀ h₁ h₂ : Heap) (node start it : Nat) (ops : List NodeOp)
    (results : List Node) (pos : Nat) : Prop where
  children : (h₂.get node).children =
    (h₀.get node).children.take start ++ results ++ (h₀.get node).children.drop it
  parent : ∀ c ∈ (h₂.get node).children, (h₂.get c).parent = some node
  removed : ∀ c ∈ ((h₀.get node).children.take it).drop start, c ∉ results → Unused ops c →
    (h₂.get c).parent = none
  location : ∃ loc, joinedLocation h₀ (h₀.get node).children start it = some loc ∧
    ∀ r ∈ results, ∀ m < h₁.nodes.length, h₁.Bare r m → (h₂.get m).location = loc
  iterator : ∀ r, results.head? = some r → (h₂.get node).children[pos]? = some r

section Replace
variable {heap₀ heap₁ : Heap} {node start it : Nat} {ops : List NodeOp} {ns : List Node}

theorem spliced_insertRange (h : heap₀.Agree) (htree : heap₀.IsTree node)
    (hstart : start < (heap₀.get node).children.length)
    (hkept : Kept heap₀ heap₁ node (Usable heap₀ node start it) ops)
    (hloc : joinedLocation heap₀ (heap₀.get node).children start it = some loc)
    (husable : ∀ r ∈ ns, Usable heap₀ node start it r)
    (hbuilt : ∀ r ∈ ns, r < heap₁.nodes.length ∧ heap₁.IsTree r) :
    ∃ bound heap', (∀ fuel, bound ≤ fuel →
      ns.foldlM (fun h n => h.setLocation fuel n loc) (heap₁.erase node start it) = some heap') ∧
      Spliced heap₀ heap₁ (heap'.insertRange node start ns) node start it ops ns start := by
  have hlt₀ : node < heap₀.nodes.length := Heap.lt_of_mem_children (List.getElem_mem hstart)
  have hlt : node < heap₁.nodes.length := hlt₀.trans_le hkept.length
  have hnode : ¬ Usable heap₀ node start it node := not_usable_node htree hlt₀
  have hlen : (heap₁.erase node start it).nodes.length = heap₁.nodes.length := by
    rw [Heap.erase, Heap.length_setChildren, (heap₁.foldl_orphan_kept ..).1]
  obtain ⟨bound, heap', hs, hset, hfold⟩ := Heap.setLocation_all loc
    (fun r hr => erase_isTree start it hlt (hbuilt r hr).2)
    (heap₁.erase node start it) (fun _ => rfl)
  have hlt' : ∀ r ∈ ns, r < heap'.nodes.length := by
    intro r hr
    rw [hs.length, hlen]
    exact (hbuilt r hr).1
  have hchildren : ((heap'.insertRange node start ns).get node).children =
      (heap₀.get node).children.take start ++ ns ++ (heap₀.get node).children.drop it := by
    have hnode' : node < heap'.nodes.length := by
      rw [hs.length, hlen]
      exact hlt
    have htake : ((heap₀.get node).children.take start).length = start :=
      List.length_take_of_le (Nat.le_of_lt hstart)
    rw [insertRange_children hnode' hlt', hs.children, erase_children hlt, if_pos rfl,
      hkept.children, Heap.insertAt, List.take_left' htake, List.drop_left' htake]
  have hparent : ∀ c, ((heap'.insertRange node start ns).get c).parent = if c ∈ ns then some node
      else if c ∈ ((heap₀.get node).children.take it).drop start ∧
        (heap₁.get c).parent = some node then none else (heap₁.get c).parent := by
    intro c
    rw [insertRange_parent hlt', hs.parent, erase_parent, hkept.children]
  refine ⟨bound, heap', hfold, hchildren, fun c hc => ?_, fun c hc hout hunused => ?_,
    ⟨loc, hloc, fun r hr m hm hbare => ?_⟩, fun r hr => ?_⟩
  · rw [hparent]
    by_cases hres : c ∈ ns
    · rw [if_pos hres]
    · have hrest : c ∈ (heap₀.get node).children.take start ++ (heap₀.get node).children.drop it := by
        rw [hchildren, List.append_assoc] at hc
        rcases List.mem_append.1 hc with hbefore | hc
        · exact List.mem_append_left _ hbefore
        · exact List.mem_append_right _ ((List.mem_append.1 hc).resolve_left hres)
      have hin : c ∈ (heap₀.get node).children := by
        rcases List.mem_append.1 hrest with hbefore | hbehind
        · exact List.mem_of_mem_take hbefore
        · exact List.mem_of_mem_drop hbehind
      have hrange : c ∉ ((heap₀.get node).children.take it).drop start := fun hm =>
        Heap.not_mem_rest (h.nodup node) hm hrest
      rw [if_neg hres, if_neg fun heq => hrange heq.1]
      exact hkept.parent c (h.lt hin) ((h.parent c node).2 hin)
        (.inl (not_usable_child h htree hin hrange))
  · have hin : c ∈ (heap₀.get node).children := List.mem_of_mem_take (List.mem_of_mem_drop hc)
    have hkeeps : (heap₁.get c).parent = some node :=
      hkept.parent c (h.lt hin) ((h.parent c node).2 hin) (.inr hunused)
    rw [hparent, if_neg hout, if_pos ⟨hc, hkeeps⟩]
  · have hbare' := bare_erase start it hbare hlt hnode hkept.closed (husable r hr)
    rw [(Heap.Touched.insertRange heap' node start ns).location m (by rwa [hs.length, hlen])]
    exact hset r hr m (by rwa [hlen]) hbare'
  · obtain ⟨rest, rfl⟩ := List.head?_eq_some_iff.1 hr
    have htake : ((heap₀.get node).children.take start).length = start :=
      List.length_take_of_le (Nat.le_of_lt hstart)
    rw [hchildren, List.append_assoc, List.getElem?_append_right (Nat.le_of_eq htake), htake,
      Nat.sub_self]
    rfl

/-- Where an effect uses the matched nodes and its own new ones, the range is replaced by its
results, with all parents and locations as they should be. -/
theorem PassDef.replace_spliced (h : heap₀.Agree) (htree : heap₀.IsTree node)
    (hstart : start < (heap₀.get node).children.length)
    (hrun : Library.Run (EffectStep (Usable heap₀ node start it)) heap₀ ops heap₁)
    (hresult : ∀ r ∈ result, Usable heap₀ node start it r ∧ (heap₁.get r).type ≠ .noChange)
    (hbuilt : ∀ r ∈ resultNodes heap₁ result, r < heap₁.nodes.length ∧ heap₁.IsTree r) :
    ∃ bound heap₂ changed pos, (∀ fuel, bound ≤ fuel →
      PassDef.replace heap₁ fuel node start it result = some (heap₂, changed, pos)) ∧
      Spliced heap₀ heap₁ heap₂ node start it ops (resultNodes heap₁ result) pos := by
  have hlt : node < heap₀.nodes.length := Heap.lt_of_mem_children (List.getElem_mem hstart)
  have hnode : ¬ Usable heap₀ node start it node := not_usable_node htree hlt
  have hkept := kept_of_run hrun hnode hlt (fun n hn => .inl hn) fun p c hp hc => hp.child hc
  obtain ⟨loc, hloc⟩ : ∃ loc, joinedLocation heap₀ (heap₀.get node).children start it = some loc := by
    rw [joinedLocation, List.getElem?_eq_getElem hstart]
    exact ⟨_, rfl⟩
  have hloc₁ : joinedLocation heap₁ (heap₁.get node).children start it = some loc := by
    rw [hkept.children, joinedLocation_eq fun c hc => hkept.location c (h.lt hc), hloc]
  have husable : ∀ r ∈ resultNodes heap₁ result, Usable heap₀ node start it r := by
    intro r hr
    cases result with
    | none => cases hr
    | some result =>
      have huse := (hresult result rfl).1
      rw [resultNodes] at hr
      split at hr
      · exact hkept.closed result r huse hr
      · exact List.mem_singleton.1 hr ▸ huse
  obtain ⟨bound, heap', hfold, hspliced⟩ :=
    spliced_insertRange h htree hstart hkept hloc husable hbuilt
  cases result with
  | none =>
    have hnone := Option.some.inj (hfold bound (Nat.le_refl bound))
    subst hnone
    refine ⟨bound, _, .replaced 0, start, fun fuel _ => ?_, hspliced⟩
    rw [PassDef.replace, hloc₁]
    rfl
  | some result =>
    obtain ⟨huse, htype⟩ := hresult result rfl
    have hne : node ≠ result := fun heq => hnode (heq ▸ huse)
    by_cases hseq : (heap₁.get result).type = .seq ∨ (heap₁.get result).type = .reapply
    · rw [resultNodes, if_pos hseq] at hfold hspliced
      rw [resultNodes, if_pos hseq]
      refine ⟨bound, _, if (heap'.get result).type = .reapply then .reapply
        else .replaced (heap₁.get result).children.length, start, fun fuel hfuel => ?_, hspliced⟩
      rw [PassDef.replace, if_neg htype, hloc₁]
      simp only [Option.bind_some, erase_type, if_pos hseq, erase_children (hlt.trans_le hkept.length),
        if_neg hne, hfold fuel hfuel, Option.map_some]
    · rw [resultNodes, if_neg hseq] at hfold hspliced
      rw [resultNodes, if_neg hseq]
      refine ⟨bound, _, .replaced 1, start, fun fuel hfuel => ?_, hspliced⟩
      have hset : (heap₁.erase node start it).setLocation fuel result loc = some heap' := by
        have hfold := hfold fuel hfuel
        simpa only [List.foldlM_cons, List.foldlM_nil, bind_pure] using hfold
      rw [PassDef.replace, if_neg htype, hloc₁]
      simp only [Option.bind_some, erase_type, if_neg hseq, hset, Option.map_some]
      rfl

theorem EffectStep.create (usable : Node → Prop) (heap : Heap) (type : Token) :
    EffectStep usable heap (.build (.create type {})) (heap.create type {}).1 :=
  ⟨rfl, (fun _ hp => nomatch hp), (fun _ hn => nomatch hn)⟩

theorem EffectStep.pushBack {usable : Node → Prop} (heap : Heap) (hp : usable p) (hn : usable n) :
    EffectStep usable heap (.build (.pushBack p (some n))) (heap.pushBack p (some n)) := by
  refine ⟨rfl, fun q hq => ?_, fun m hm => ?_⟩
  · cases hq
    exact hp
  · exact List.mem_singleton.1 hm ▸ hn

/-- A rule that turns two of three children round, with a new node around one of them. -/
theorem PassDef.replace_spliced_round : ∃ (heap₀ heap₁ : Heap) (ops : List NodeOp) (bound : Nat)
    (heap₂ : Heap) (changed : Replaced) (pos : Nat), (heap₀.get 0).children = [1, 2, 3] ∧
    resultNodes heap₁ (some 4) = [3, 5] ∧
    (∀ fuel, bound ≤ fuel →
      PassDef.replace heap₁ fuel 0 1 3 (some 4) = some (heap₂, changed, pos)) ∧
    Spliced heap₀ heap₁ heap₂ 0 1 3 ops (resultNodes heap₁ (some 4)) pos := by
  obtain ⟨heap₀, hheap₀⟩ : ∃ heap : Heap, heap = ⟨[{ children := [1, 2, 3] }, { parent := some 0 },
    { parent := some 0 }, { parent := some 0 }]⟩ := ⟨_, rfl⟩
  have hagree : heap₀.Agree :=
    hheap₀ ▸ Heap.agree_of_nodes (by decide) (by decide) (by decide)
  have htree : heap₀.IsTree 0 := hheap₀ ▸ Heap.isTree_of_lt (by decide) 0
  have h₂ : Usable heap₀ 0 1 3 2 := .inr ⟨2, by rw [hheap₀]; decide, .refl⟩
  have h₃ : Usable heap₀ 0 1 3 3 := .inr ⟨3, by rw [hheap₀]; decide, .refl⟩
  have h₄ : Usable heap₀ 0 1 3 4 := .inl (by rw [hheap₀]; decide)
  have h₅ : Usable heap₀ 0 1 3 5 := .inl (by rw [hheap₀]; decide)
  obtain ⟨heap₁, hrun, hheap₁⟩ : ∃ heap₁, Library.Run (EffectStep (Usable heap₀ 0 1 3)) heap₀
      [.build (.create .seq {}), .build (.pushBack 4 (some 3)), .build (.create ⟨"group", 0⟩ {}),
        .build (.pushBack 5 (some 2)), .build (.pushBack 4 (some 5))] heap₁ ∧
      heap₁ = ⟨[{ children := [1, 2, 3] }, { parent := some 0 }, { parent := some 5 },
        { parent := some 4 }, { type := .seq, children := [3, 5] },
        { type := ⟨"group", 0⟩, parent := some 4, children := [2] }]⟩ := by
    refine ⟨_, .cons (.create ..) (.cons (.pushBack _ h₄ h₃) (.cons (.create ..)
      (.cons (.pushBack _ h₅ h₂) (.cons (.pushBack _ h₄ h₅) (.nil _))))), ?_⟩
    rw [hheap₀]
    decide
  have hresults : resultNodes heap₁ (some 4) = [3, 5] := by
    rw [hheap₁]
    decide
  have hlast : heap₁.IsTree 3 := .intro 3 fun c hc => by
    rw [hheap₁] at hc
    cases hc
  have hfresh : heap₁.IsTree 5 := .intro 5 fun c hc => .intro c fun d hd => by
    rw [hheap₁] at hc hd
    cases List.mem_singleton.1 hc
    cases hd
  have hstart : 1 < (heap₀.get 0).children.length := by
    rw [hheap₀]
    decide
  have hresult : ∀ r ∈ some 4, Usable heap₀ 0 1 3 r ∧ (heap₁.get r).type ≠ .noChange := by
    intro r hr
    cases hr
    exact ⟨h₄, by rw [hheap₁]; decide⟩
  have hbuilt : ∀ r ∈ resultNodes heap₁ (some 4), r < heap₁.nodes.length ∧ heap₁.IsTree r := by
    intro r hr
    rw [hresults] at hr
    rcases List.mem_pair.1 hr with rfl | rfl
    · exact ⟨by rw [hheap₁]; decide, hlast⟩
    · exact ⟨by rw [hheap₁]; decide, hfresh⟩
  obtain ⟨bound, heap₂, changed, pos, hreplace, hspliced⟩ :=
    replace_spliced hagree htree hstart hrun hresult hbuilt
  exact ⟨heap₀, heap₁, _, bound, heap₂, changed, pos, by rw [hheap₀]; rfl, hresults, hreplace,
    hspliced⟩

end Replace

end Trieste
