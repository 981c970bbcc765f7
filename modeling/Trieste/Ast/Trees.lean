import Trieste.Ast.Parents

namespace Trieste
set_option autoImplicit true
open Relation

/-- A tree without the addresses of its nodes. -/
inductive Tree
  | node (type : Token) (location : Location) (children : List Tree)

mutual

def Tree.depth : Tree → Nat
  | .node _ _ children => Tree.depthAll children + 1

def Tree.depthAll : List Tree → Nat
  | [] => 0
  | t :: ts => max t.depth (depthAll ts)

end

namespace Heap

mutual

/-- The node and those below it are the tree. -/
def Represents (h : Heap) (n : Node) : Tree → Prop
  | .node type location trees => n < h.nodes.length ∧ (h.get n).type = type ∧
      (h.get n).location = location ∧ h.RepresentsAll (h.get n).children trees

def RepresentsAll (h : Heap) : List Node → List Tree → Prop
  | [], [] => True
  | n :: ns, t :: ts => h.Represents n t ∧ h.RepresentsAll ns ts
  | _, _ => False

end

theorem Represents.lt (h : Represents heap n t) : n < heap.nodes.length := by
  cases t with
  | node type location trees =>
    rw [Represents] at h
    exact h.1

theorem RepresentsAll.append (h : RepresentsAll heap ns ts) (h' : RepresentsAll heap ns' ts') :
    RepresentsAll heap (ns ++ ns') (ts ++ ts') := by
  induction ns generalizing ts with
  | nil =>
    cases ts with
    | nil => exact h'
    | cons t ts => simp [RepresentsAll] at h
  | cons n ns ih =>
    cases ts with
    | nil => simp [RepresentsAll] at h
    | cons t ts =>
      rw [RepresentsAll] at h
      rw [List.cons_append, List.cons_append, RepresentsAll]
      exact ⟨h.1, ih h.2⟩

theorem RepresentsAll.split (h : RepresentsAll heap ns (t :: ts)) :
    ∃ n ns', ns = n :: ns' ∧ Represents heap n t ∧ RepresentsAll heap ns' ts := by
  cases ns with
  | nil => simp [RepresentsAll] at h
  | cons n ns =>
    rw [RepresentsAll] at h
    exact ⟨n, ns, rfl, h⟩

theorem RepresentsAll.nil (h : RepresentsAll heap ns []) : ns = [] := by
  cases ns with
  | nil => rfl
  | cons n ns => simp [RepresentsAll] at h

mutual

/-- A node stands for one tree only. -/
theorem Represents.unique (h : Represents heap n t) (h' : Represents heap n t') : t = t' := by
  cases t with
  | node type location trees =>
    cases t' with
    | node type' location' trees' =>
      rw [Represents] at h h'
      obtain ⟨-, rfl, rfl, hall⟩ := h
      obtain ⟨-, rfl, rfl, hall'⟩ := h'
      rw [hall.unique hall']
termination_by sizeOf t

theorem RepresentsAll.unique (h : RepresentsAll heap ns ts) (h' : RepresentsAll heap ns ts') :
    ts = ts' := by
  cases ts with
  | nil =>
    cases h.nil
    cases ts' with
    | nil => rfl
    | cons t' ts' => simp [RepresentsAll] at h'
  | cons t ts =>
    obtain ⟨n, ns, rfl, ht, hts⟩ := h.split
    cases ts' with
    | nil => cases h'.nil
    | cons t' ts' =>
      rw [RepresentsAll] at h'
      rw [ht.unique h'.1, hts.unique h'.2]
termination_by sizeOf ts

end

/-- What trees are made of is the same in two heaps. -/
def Alike (h h' : Heap) (n : Node) : Prop :=
  (h'.get n).type = (h.get n).type ∧ (h'.get n).location = (h.get n).location ∧
    (h'.get n).children = (h.get n).children

theorem Alike.of_get {h h' : Heap} (hget : h'.get n = h.get n) : Alike h h' n := by
  rw [Alike, hget]
  exact ⟨rfl, rfl, rfl⟩

theorem Alike.trans {h h' h'' : Heap} (h₁ : Alike h h' n) (h₂ : Alike h' h'' n) : Alike h h'' n :=
  ⟨h₂.1.trans h₁.1, h₂.2.1.trans h₁.2.1, h₂.2.2.trans h₁.2.2⟩

mutual

/-- A tree stays one while its nodes, which satisfy an invariant, are alike. -/
theorem Represents.alike {I : Node → Prop} (h : Represents heap n t)
    (hlen : heap.nodes.length ≤ heap'.nodes.length) (hn : I n)
    (hdown : ∀ p c, I p → c ∈ (heap.get p).children → I c)
    (halike : ∀ m < heap.nodes.length, I m → Alike heap heap' m) : Represents heap' n t := by
  cases t with
  | node type location trees =>
    rw [Represents] at h ⊢
    obtain ⟨hlt, htype, hlocation, hall⟩ := h
    obtain ⟨htype', hlocation', hchildren⟩ := halike n hlt hn
    rw [htype', hlocation', hchildren]
    exact ⟨Nat.lt_of_lt_of_le hlt hlen, htype, hlocation,
      hall.alike hlen (fun c hc => hdown n c hn hc) hdown halike⟩
termination_by sizeOf t

theorem RepresentsAll.alike {I : Node → Prop} (h : RepresentsAll heap ns ts)
    (hlen : heap.nodes.length ≤ heap'.nodes.length) (hn : ∀ n ∈ ns, I n)
    (hdown : ∀ p c, I p → c ∈ (heap.get p).children → I c)
    (halike : ∀ m < heap.nodes.length, I m → Alike heap heap' m) :
    RepresentsAll heap' ns ts := by
  cases ts with
  | nil =>
    cases h.nil
    rw [RepresentsAll]
    trivial
  | cons t ts =>
    obtain ⟨n, ns, rfl, ht, hts⟩ := h.split
    rw [RepresentsAll]
    exact ⟨ht.alike hlen (hn n (.head _)) hdown halike,
      hts.alike hlen (fun m hm => hn m (.tail _ hm)) hdown halike⟩
termination_by sizeOf ts

end

theorem Represents.frame (h : Represents heap n t) (hf : Frame heap.nodes.length heap heap') :
    Represents heap' n t :=
  h.alike (I := fun _ => True) hf.length trivial (fun _ _ _ _ => trivial) fun m hm _ =>
    .of_get (hf.kept m hm)

mutual

/-- What is left of a tree when children are taken out of it is a tree. -/
theorem Represents.sublist (h : Represents heap n t)
    (hlen : heap'.nodes.length = heap.nodes.length)
    (hsub : ∀ m, (heap'.get m).children.Sublist (heap.get m).children) :
    ∃ t', Represents heap' n t' := by
  cases t with
  | node type location trees =>
    rw [Represents] at h
    obtain ⟨hlt, -, -, hall⟩ := h
    obtain ⟨trees', htrees⟩ := hall.sublist hlen hsub (hsub n)
    refine ⟨.node (heap'.get n).type (heap'.get n).location trees', ?_⟩
    rw [Represents]
    exact ⟨hlen ▸ hlt, rfl, rfl, htrees⟩
termination_by sizeOf t

theorem RepresentsAll.sublist (h : RepresentsAll heap ns ts)
    (hlen : heap'.nodes.length = heap.nodes.length)
    (hsub : ∀ m, (heap'.get m).children.Sublist (heap.get m).children) (hns : ns'.Sublist ns) :
    ∃ ts', RepresentsAll heap' ns' ts' := by
  cases ts with
  | nil =>
    rw [h.nil] at hns
    rw [List.sublist_nil.1 hns]
    exact ⟨[], by rw [RepresentsAll]; trivial⟩
  | cons t ts =>
    obtain ⟨n, ns, rfl, ht, hts⟩ := h.split
    cases hns with
    | cons _ hns => exact hts.sublist hlen hsub hns
    | cons_cons _ hns =>
      obtain ⟨t', ht'⟩ := ht.sublist hlen hsub
      obtain ⟨ts', hts'⟩ := hts.sublist hlen hsub hns
      exact ⟨t' :: ts', by rw [RepresentsAll]; exact ⟨ht', hts'⟩⟩
termination_by sizeOf ts

end

theorem RepresentsAll.depth_le (h : RepresentsAll heap ns ts)
    (hle : ∀ n ∈ ns, ∀ t, Represents heap n t → Tree.depth t ≤ Tree.depthAll ts → t.depth ≤ bound) :
    Tree.depthAll ts ≤ bound := by
  induction ts generalizing ns with
  | nil => exact Nat.zero_le _
  | cons t ts ih =>
    obtain ⟨n, ns, rfl, ht, hts⟩ := h.split
    rw [Tree.depthAll] at hle ⊢
    apply Nat.max_le.2
    constructor
    · exact hle n (.head _) t ht (Nat.le_max_left ..)
    · apply ih hts
      intro n hn t' ht' hle'
      exact hle n (.tail _ hn) t' ht' (Nat.le_trans hle' (Nat.le_max_right ..))

theorem Represents.depth_path (h : Represents heap n t) (path : List Node) (hnodup : path.Nodup)
    (hpath : ∀ m ∈ path, ∃ t', Represents heap m t' ∧ t.depth < t'.depth) :
    path.length + t.depth ≤ heap.nodes.length := by
  generalize hfuel : t.depth = fuel
  induction fuel using Nat.strongRecOn generalizing n t path with
  | ind fuel ih =>
    cases t with
    | node type location trees =>
      have hnot : n ∉ path := by
        intro hn
        obtain ⟨t', ht', hlt⟩ := hpath n hn
        rw [h.unique ht'] at hlt
        exact absurd hlt (Nat.lt_irrefl _)
      have hcount : (n :: path).length ≤ heap.nodes.length := by
        rw [← List.length_range (n := heap.nodes.length)]
        apply (List.nodup_cons.2 ⟨hnot, hnodup⟩).length_le_of_subset
        intro m hm
        apply List.mem_range.2
        rcases List.mem_cons.1 hm with rfl | hm
        · exact h.lt
        · obtain ⟨t', ht', -⟩ := hpath m hm
          exact ht'.lt
      have hall := h
      rw [Represents] at hall
      have hdepth : Tree.depthAll trees ≤ heap.nodes.length - (path.length + 1) := by
        apply hall.2.2.2.depth_le
        intro c hc t' ht' hle
        have hchild := ih t'.depth (by rw [← hfuel, Tree.depth]; omega) ht' (n :: path)
          (List.nodup_cons.2 ⟨hnot, hnodup⟩) ?_ rfl
        · rw [List.length_cons] at hchild
          omega
        · intro m hm
          rcases List.mem_cons.1 hm with rfl | hm
          · exact ⟨_, h, by rw [Tree.depth]; omega⟩
          · obtain ⟨t'', ht'', hlt⟩ := hpath m hm
            rw [Tree.depth] at hlt
            exact ⟨t'', ht'', by omega⟩
      rw [List.length_cons] at hcount
      rw [← hfuel, Tree.depth]
      omega

theorem Represents.depth_le (h : Represents heap n t) : t.depth ≤ heap.nodes.length := by
  have hdepth := h.depth_path [] List.nodup_nil fun m hm => absurd hm List.not_mem_nil
  rwa [List.length_nil, Nat.zero_add] at hdepth

theorem RepresentsAll.mem (h : RepresentsAll heap ns ts) (hn : n ∈ ns) :
    ∃ t ∈ ts, Represents heap n t := by
  induction ts generalizing ns with
  | nil =>
    rw [h.nil] at hn
    cases hn
  | cons t ts ih =>
    obtain ⟨m, ns, rfl, ht, hts⟩ := h.split
    rcases List.mem_cons.1 hn with rfl | hn
    · exact ⟨t, .head _, ht⟩
    · obtain ⟨t', hmem, ht'⟩ := ih hts hn
      exact ⟨t', .tail _ hmem, ht'⟩

theorem RepresentsAll.length_eq (h : RepresentsAll heap ns ts) : ns.length = ts.length := by
  induction ts generalizing ns with
  | nil =>
    rw [h.nil]
    rfl
  | cons t ts ih =>
    obtain ⟨n, ns, rfl, -, hns⟩ := h.split
    rw [List.length_cons, List.length_cons, ih hns]

theorem RepresentsAll.exists_getElem (h : RepresentsAll heap ns ts) {i : Nat}
    (ht : ts[i]? = some t) : ∃ n, ns[i]? = some n ∧ Represents heap n t := by
  induction ts generalizing ns i with
  | nil => cases ht
  | cons u ts ih =>
    obtain ⟨n, ns, rfl, hn, hns⟩ := h.split
    cases i with
    | zero =>
      cases ht
      exact ⟨n, rfl, hn⟩
    | succ i => exact ih hns ht

theorem RepresentsAll.exists_mem (h : RepresentsAll heap ns ts) (ht : t ∈ ts) :
    ∃ n ∈ ns, Represents heap n t := by
  obtain ⟨i, hi⟩ := List.getElem?_of_mem ht
  obtain ⟨n, hn, hrep⟩ := h.exists_getElem hi
  exact ⟨n, List.mem_of_getElem? hn, hrep⟩

theorem depth_le_depthAll {ts : List Tree} (ht : t ∈ ts) : t.depth ≤ Tree.depthAll ts := by
  induction ts with
  | nil => cases ht
  | cons t' ts ih =>
    rw [Tree.depthAll]
    rcases List.mem_cons.1 ht with rfl | ht
    · exact Nat.le_max_left ..
    · exact Nat.le_trans (ih ht) (Nat.le_max_right ..)

theorem depth_child_le (h : (Tree.node type location ts).depth ≤ bound + 1) (ht : t ∈ ts) :
    t.depth ≤ bound := by
  rw [Tree.depth] at h
  exact Nat.le_trans (depth_le_depthAll ht) (Nat.le_of_succ_le_succ h)

/-- The children stand for less deep trees. -/
theorem Represents.child (h : Represents heap n t) (hc : heap.HasChild n c) :
    ∃ t', Represents heap c t' ∧ t'.depth < t.depth := by
  cases t with
  | node type location trees =>
    rw [Represents] at h
    obtain ⟨t', hmem, ht'⟩ := h.2.2.2.mem hc
    refine ⟨t', ht', ?_⟩
    rw [Tree.depth]
    exact Nat.lt_succ_of_le (depth_le_depthAll hmem)

theorem Represents.inTree (h : Represents heap n t) (hm : heap.InTree n m) :
    ∃ t', Represents heap m t' ∧ t'.depth ≤ t.depth := by
  induction hm with
  | refl => exact ⟨t, h, Nat.le_refl _⟩
  | tail _ hc ih =>
    obtain ⟨t', ht', hle⟩ := ih
    obtain ⟨t'', ht'', hlt⟩ := ht'.child hc
    exact ⟨t'', ht'', Nat.le_trans (Nat.le_of_lt hlt) hle⟩

/-- No node of a tree is below its children. -/
theorem Represents.not_below (h : Represents heap n t) (hc : heap.HasChild n c) :
    ¬ heap.InTree c n := by
  intro hbelow
  obtain ⟨t', ht', hlt⟩ := h.child hc
  obtain ⟨t'', ht'', hle⟩ := ht'.inTree hbelow
  rw [h.unique ht''] at hlt
  exact absurd hlt (Nat.not_lt.2 hle)

theorem Represents.depth_lt (h : Represents heap n t) (hc : heap.HasChild n c)
    (hm : heap.InTree c m) (h' : Represents heap m t') : t'.depth < t.depth := by
  obtain ⟨u, hu, hlt⟩ := h.child hc
  obtain ⟨u', hu', hle⟩ := hu.inTree hm
  rw [h'.unique hu']
  exact Nat.lt_of_le_of_lt hle hlt

/-- A clone before the rest of the children is copied, in a heap that had no further nodes. -/
structure Copying (heap heap₁ : Heap) (type : Token) (location : Location) (copies : List Node)
    (trees : List Tree) : Prop where
  frame : Frame heap.nodes.length heap heap₁
  lt : heap.nodes.length < heap₁.nodes.length
  type : (heap₁.get heap.nodes.length).type = type
  location : (heap₁.get heap.nodes.length).location = location
  children : (heap₁.get heap.nodes.length).children = copies
  fresh : ∀ c ∈ copies, heap.nodes.length < c
  down : ∀ p c, heap.nodes.length < p → c ∈ (heap₁.get p).children → heap.nodes.length < c
  trees : RepresentsAll heap₁ copies trees

theorem Copying.create (heap : Heap) (type : Token) (location : Location) :
    Copying heap (heap.create type location).1 type location [] [] := by
  have hnew := heap.get_create type location heap.nodes.length
  rw [if_pos rfl] at hnew
  refine ⟨(Above.length heap).create (Nat.le_refl _) type location, by simp, by rw [hnew],
    by rw [hnew], by rw [hnew], fun c hc => absurd hc List.not_mem_nil, ?_, by simp [RepresentsAll]⟩
  intro p c hp hc
  rw [get_create, if_neg (Nat.ne_of_gt hp), heap.get_of_le (Nat.le_of_lt hp)] at hc
  cases hc

theorem location_mark (h : Heap) (bit : FlagBit) (fuel : Nat) (first : Option Node) (m : Node) :
    ((h.mark bit fuel first).get m).location = (h.get m).location := by
  induction fuel generalizing h first with
  | zero => rfl
  | succ fuel ih =>
    cases first with
    | none => rfl
    | some curr =>
      rw [mark]
      split
      · rfl
      · rw [ih]
        exact proj_modify (π := NodeDef.location) h curr m _ fun _ => rfl

theorem location_adopt (h : Heap) (p n m : Node) :
    ((h.adopt p n).get m).location = (h.get m).location := by
  have hparent : ((h.setParent n (some p)).get m).location = (h.get m).location :=
    proj_modify (π := NodeDef.location) h n m _ fun _ => rfl
  unfold adopt addFlags
  dsimp only
  split
  · rw [location_mark, hparent]
  split
  · rw [location_mark, hparent]
  · exact hparent

/-- Attaching a node changes no tree. -/
theorem alike_adopt (h : Heap) (p n m : Node) : Alike h (h.adopt p n) m :=
  ⟨(h.adopt_adopted p n).type m, location_adopt h p n m, (h.adopt_adopted p n).children m⟩

theorem alike_setChildren (h : Heap) (hm : m ≠ p) (children : List Node) :
    Alike h (h.setChildren p children) m := by
  apply Alike.of_get
  rw [setChildren, get_modify, if_neg fun hc => hm hc.1.symm]

theorem alike_pushBack (h : Heap) (hm : m ≠ p) (n : Node) : Alike h (h.pushBack p (some n)) m :=
  (alike_setChildren h hm _).trans (alike_adopt _ p n m)

theorem location_pushBack (h : Heap) (p n m : Node) :
    ((h.pushBack p (some n)).get m).location = (h.get m).location :=
  ((alike_adopt _ p n m).2.1).trans (proj_modify (π := NodeDef.location) h p m _ fun _ => rfl)

/-- The copy of the next child is attached. -/
theorem Copying.pushBack {copies : List Node} {trees : List Tree}
    (h : Copying heap heap₁ nodeType loc copies trees)
    (hf : Frame heap₁.nodes.length heap₁ heap₂) (ht : Represents heap₂ heap₁.nodes.length t) :
    Copying heap (heap₂.pushBack heap.nodes.length (some heap₁.nodes.length)) nodeType loc
      (copies ++ [heap₁.nodes.length]) (trees ++ [t]) := by
  have hf₁ : Frame heap.nodes.length heap₁ heap₂ :=
    ⟨hf.length, hf.type, fun n hn => hf.kept n (Nat.lt_trans hn h.lt), by
      constructor
      · intro n c hn hc
        rcases Nat.lt_or_ge n heap₁.nodes.length with hlt | hge
        · rw [hf.kept n hlt] at hc
          exact h.frame.above.children n c hn hc
        · exact Nat.le_trans (Nat.le_of_lt h.lt) (hf.above.children n c hge hc)
      · intro n p hn hp
        rcases Nat.lt_or_ge n heap₁.nodes.length with hlt | hge
        · rw [hf.kept n hlt] at hp
          exact h.frame.above.parent n p hn hp
        · exact Nat.le_trans (Nat.le_of_lt h.lt) (hf.above.parent n p hge hp)⟩
  have hdown : ∀ p c, heap.nodes.length < p → c ∈ (heap₂.get p).children →
      heap.nodes.length < c := by
    intro p c hp hc
    rcases Nat.lt_or_ge p heap₁.nodes.length with hlt | hge
    · rw [hf.kept p hlt] at hc
      exact h.down p c hp hc
    · exact Nat.lt_of_lt_of_le h.lt (hf.above.children p c hge hc)
  have hroot : heap₂.get heap.nodes.length = heap₁.get heap.nodes.length := hf.kept _ h.lt
  have hlen := Nat.lt_of_lt_of_le h.lt hf.length
  have halike : ∀ m < heap₂.nodes.length, heap.nodes.length < m →
      Alike heap₂ (heap₂.pushBack heap.nodes.length (some heap₁.nodes.length)) m :=
    fun m _ hm => alike_pushBack heap₂ (Nat.ne_of_gt hm) _
  have hle := Nat.le_of_eq (length_pushBack heap₂ heap.nodes.length heap₁.nodes.length).symm
  constructor
  · exact (h.frame.trans hf₁).trans
      (hf₁.above.pushBack (Nat.le_refl _) (Nat.le_of_lt h.lt))
  · rwa [length_pushBack]
  · rw [type_pushBack, hroot, h.type]
  · rw [location_pushBack, hroot, h.location]
  · rw [Heap.pushBack, (adopt_adopted ..).children, children_setChildren, if_pos ⟨rfl, hlen⟩, hroot,
      h.children]
  · intro c hc
    rcases List.mem_append.1 hc with hc | hc
    · exact h.fresh c hc
    · rw [List.mem_singleton.1 hc]
      exact h.lt
  · intro p c hp hc
    rw [(alike_pushBack heap₂ (Nat.ne_of_gt hp) _).2.2] at hc
    exact hdown p c hp hc
  · apply RepresentsAll.append
    · exact (h.trees.alike hf.length (fun _ _ => trivial) (fun _ _ _ _ => trivial)
        (fun m hm _ => .of_get (hf.kept m hm))).alike hle h.fresh hdown halike
    · rw [RepresentsAll, RepresentsAll]
      exact ⟨ht.alike hle h.lt hdown halike, trivial⟩

theorem Represents.clone (h : Represents heap n t) (hfuel : t.depth ≤ fuel) :
    ∃ heap', heap.clone fuel n = some (heap', heap.nodes.length) ∧
      Represents heap' heap.nodes.length t := by
  induction fuel generalizing heap n t with
  | zero =>
    cases t with
    | node type location trees =>
      rw [Tree.depth] at hfuel
      exact absurd hfuel (Nat.not_succ_le_zero _)
  | succ fuel ih =>
    cases t with
    | node type location trees =>
      rw [Represents] at h
      obtain ⟨-, htype, hlocation, hall⟩ := h
      rw [Tree.depth] at hfuel
      -- the loop over the children, which have all been copied but for the rest
      have hloop : ∀ ts ns heap₁ copies done, RepresentsAll heap ns ts →
          Tree.depthAll ts ≤ fuel → Copying heap heap₁ type location copies done →
          ∃ heap₂ copies', ns.foldlM (fun h child => (Heap.clone fuel h child).bind fun result =>
              some (result.1.pushBack heap.nodes.length (some result.2))) heap₁ = some heap₂ ∧
            Copying heap heap₂ type location copies' (done ++ ts) := by
        intro ts
        induction ts with
        | nil =>
          intro ns heap₁ copies done hns _ hcopying
          rw [hns.nil, List.append_nil]
          exact ⟨heap₁, copies, rfl, hcopying⟩
        | cons t ts ihts =>
          intro ns heap₁ copies done hns hdepth hcopying
          obtain ⟨c, ns, rfl, ht, hts⟩ := hns.split
          rw [Tree.depthAll] at hdepth
          obtain ⟨heap₂, hclone, hcopy⟩ := ih (ht.frame hcopying.frame)
            (Nat.le_trans (Nat.le_max_left ..) hdepth)
          obtain ⟨hf, -⟩ := (Above.length heap₁).clone (Nat.le_refl _) hclone
          obtain ⟨heap₃, copies', hrest, hdone⟩ := ihts ns _ _ _ hts
            (Nat.le_trans (Nat.le_max_right ..) hdepth) (hcopying.pushBack hf hcopy)
          refine ⟨heap₃, copies', ?_, by rwa [List.append_assoc] at hdone⟩
          rw [List.foldlM_cons, hclone]
          exact hrest
      obtain ⟨heap₂, copies, hrun, hdone⟩ := hloop trees _ _ _ _ hall
        (Nat.le_of_succ_le_succ hfuel) (.create heap type location)
      refine ⟨heap₂, ?_, ?_⟩
      · rw [Heap.clone, htype, hlocation]
        exact congrArg (Option.map (·, heap.nodes.length)) hrun
      · rw [Represents, hdone.children]
        exact ⟨hdone.lt, hdone.type, hdone.location, hdone.trees⟩

end Heap

end Trieste
