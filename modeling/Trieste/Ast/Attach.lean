import Mathlib.Data.List.Nodup
import Trieste.Ast.Flags

namespace Trieste
set_option autoImplicit true

namespace Heap

/-- Every node is attached at one place at most. -/
def Unshared (h : Heap) : Prop := (h.nodes.flatMap NodeDef.children).Nodup

def Linked (h : Heap) : Prop := ∀ p c, c ∈ (h.get p).children → (h.get c).parent = some p

theorem get_eq_getElem (h : Heap) (hn : n < h.nodes.length) : h.get n = h.nodes[n] := by
  rw [get, List.getD_eq_getElem?_getD, List.getElem?_eq_getElem hn, Option.getD_some]

theorem lt_of_mem_children (hc : c ∈ (Heap.get h p).children) : p < h.nodes.length := by
  by_contra hp
  rw [get_of_le h (Nat.le_of_not_lt hp)] at hc
  exact absurd hc List.not_mem_nil

theorem unshared_iff (h : Heap) : h.Unshared ↔ (∀ p, (h.get p).children.Nodup) ∧
    ∀ p q c, c ∈ (h.get p).children → c ∈ (h.get q).children → p = q := by
  rw [Unshared, List.nodup_flatMap]
  refine and_congr ⟨fun hd p => ?_, fun hd d hm => ?_⟩ ?_
  · rcases Nat.lt_or_ge p h.nodes.length with hp | hp
    · rw [get_eq_getElem h hp]
      exact hd _ (List.getElem_mem hp)
    · rw [get_of_le h hp]
      exact List.nodup_nil
  · obtain ⟨p, hp, rfl⟩ := List.getElem_of_mem hm
    rw [← get_eq_getElem h hp]
    exact hd p
  · rw [List.pairwise_iff_getElem]
    constructor
    · intro hd p q c hc hc'
      have hp := lt_of_mem_children hc
      have hq := lt_of_mem_children hc'
      rw [get_eq_getElem h hp] at hc
      rw [get_eq_getElem h hq] at hc'
      rcases Nat.lt_trichotomy p q with hlt | heq | hlt
      · exact absurd hc' (hd p q hp hq hlt hc)
      · exact heq
      · exact absurd hc (hd q p hq hp hlt hc')
    · intro hu p q hp hq hlt c hc hc'
      rw [← get_eq_getElem h hp] at hc
      rw [← get_eq_getElem h hq] at hc'
      exact absurd (hu p q c hc hc') (Nat.ne_of_lt hlt)

theorem Unshared.unique (h : Unshared heap) (hp : c ∈ (heap.get p).children)
    (hq : c ∈ (heap.get q).children) : p = q :=
  ((unshared_iff heap).1 h).2 p q c hp hq

theorem Unshared.nodup (h : Unshared heap) (p : Node) : (heap.get p).children.Nodup :=
  ((unshared_iff heap).1 h).1 p

theorem Linked.lt (h : Linked heap) (hc : c ∈ (heap.get p).children) : c < heap.nodes.length := by
  by_contra hle
  have hparent := h p c hc
  rw [get_of_le heap (Nat.le_of_not_lt hle)] at hparent
  cases hparent

/-- The states before and after nodes were attached to a parent. -/
structure Attached (h h' : Heap) (p : Node) (ns : List Node) : Prop where
  children : ∀ q c, c ∈ (h'.get q).children → c ∈ (h.get q).children ∨ c ∈ ns
  added : ∀ c ∈ ns, c ∈ (h'.get p).children
  parent : ∀ c, (h'.get c).parent = if c ∈ ns then some p else (h.get c).parent

theorem Linked.attach (h : Linked heap) (ha : Attached heap heap' p ns)
    (hu : Unshared heap') : Linked heap' := by
  intro q c hc
  rw [ha.parent c]
  by_cases hn : c ∈ ns
  · rw [if_pos hn, hu.unique hc (ha.added c hn)]
  · rw [if_neg hn]
    exact h q c ((ha.children q c hc).resolve_right hn)

/-- The states before and after nodes were detached from their parents. -/
structure Detached (h h' : Heap) : Prop where
  length : h'.nodes.length = h.nodes.length
  type : ∀ n, (h'.get n).type = (h.get n).type
  flag : ∀ n b, h'.flag n b = h.flag n b
  children : ∀ q c, c ∈ (h'.get q).children →
    c ∈ (h.get q).children ∧ (h'.get c).parent = (h.get c).parent
  parent : ∀ c p, (h'.get c).parent = some p → (h.get c).parent = some p

theorem Linked.detach (h : Linked heap) (hd : Detached heap heap') : Linked heap' := by
  intro q c hc
  obtain ⟨hc, hparent⟩ := hd.children q c hc
  rw [hparent]
  exact h q c hc

theorem ErrorsPropagate.of_parent (h : ErrorsPropagate heap)
    (hlen : heap'.nodes.length = heap.nodes.length)
    (htype : ∀ n, (heap'.get n).type = (heap.get n).type)
    (hflag : ∀ n b, heap'.flag n b = heap.flag n b)
    (hparent : ∀ c p, (heap'.get c).parent = some p → (heap.get c).parent = some p) :
    ErrorsPropagate heap' := by
  intro c p hp
  rw [hlen, htype, hflag, hflag]
  exact h c p (hparent c p hp)

theorem ErrorsPropagate.setChildren (h : ErrorsPropagate heap) (p : Node) (children : List Node) :
    ErrorsPropagate (heap.setChildren p children) :=
  h.of_parent (length_setChildren ..) (fun _ => type_setChildren ..)
    (fun _ _ => flag_setChildren ..) fun _ _ hp => (parent_setChildren ..).symm.trans hp

theorem ErrorsPropagate.foldl_adopt (h : ErrorsPropagate heap) (hp : p < heap.nodes.length)
    (ns : List Node) : ErrorsPropagate (ns.foldl (·.adopt p) heap) := by
  induction ns generalizing heap with
  | nil => exact h
  | cons n ns ih =>
    refine ih (h.adopt hp n) ?_
    rwa [(heap.adopt_adopted p n).length]

/-- Flags that are passed on stay so where no node gets a parent or a flag. -/
theorem Propagated.of_parent (h : Propagated heap)
    (hlen : heap'.nodes.length = heap.nodes.length)
    (htype : ∀ n, (heap'.get n).type = (heap.get n).type)
    (hflag : ∀ n b, heap'.flag n b = heap.flag n b)
    (hparent : ∀ c p, (heap'.get c).parent = some p → (heap.get c).parent = some p) :
    Propagated heap' := by
  intro c p hp
  rw [hlen, htype, hflag, hflag, hflag, hflag]
  exact h c p (hparent c p hp)

theorem Propagated.setChildren (h : Propagated heap) (p : Node) (children : List Node) :
    Propagated (heap.setChildren p children) :=
  h.of_parent (length_setChildren ..) (fun _ => type_setChildren ..)
    (fun _ _ => flag_setChildren ..) fun _ _ hp => (parent_setChildren ..).symm.trans hp

theorem mixed_setChildren (h : Heap) (p n : Node) (children : List Node) :
    (h.setChildren p children).Mixed n ↔ h.Mixed n := by
  simp only [Mixed, type_setChildren, flag_setChildren]

/-- No node of the list is mixed when its turn comes to be attached. -/
def AttachSafe (h : Heap) (p : Node) : List Node → Prop
  | [] => True
  | n :: ns => ¬ h.Mixed n ∧ (h.adopt p n).AttachSafe p ns

theorem Propagated.foldl_adopt (h : Propagated heap) (hs : heap.AttachSafe p ns)
    (hp : p < heap.nodes.length) : Propagated (ns.foldl (·.adopt p) heap) := by
  induction ns generalizing heap with
  | nil => exact h
  | cons n ns ih =>
    refine ih (h.adopt hs.1 hp) hs.2 ?_
    rwa [(heap.adopt_adopted p n).length]

theorem foldl_adopt_kept (h : Heap) (p : Node) (ns : List Node)
    (hlt : ∀ n ∈ ns, n < h.nodes.length) :
    (ns.foldl (·.adopt p) h).nodes.length = h.nodes.length ∧
      (∀ m, ((ns.foldl (·.adopt p) h).get m).children = (h.get m).children) ∧
      ∀ m, ((ns.foldl (·.adopt p) h).get m).parent =
        if m ∈ ns then some p else (h.get m).parent := by
  induction ns generalizing h with
  | nil => exact ⟨rfl, fun _ => rfl, fun m => by simp⟩
  | cons n ns ih =>
    have ha := h.adopt_adopted p n
    obtain ⟨hlen, hchildren, hparent⟩ := ih (h.adopt p n) fun m hm => by
      rw [ha.length]
      exact hlt m (List.mem_cons_of_mem n hm)
    refine ⟨hlen.trans ha.length, fun m => (hchildren m).trans (ha.children m), fun m => ?_⟩
    rw [List.foldl_cons, hparent, ha.parent]
    have hn := hlt n List.mem_cons_self
    grind

theorem mem_insertAt : c ∈ insertAt children pos ns ↔ c ∈ children ∨ c ∈ ns := by
  rw [insertAt, List.mem_append, List.mem_append, or_right_comm, ← List.mem_append,
    List.take_append_drop]

theorem pushFront_attached (h : Heap) (hp : p < h.nodes.length) (hn : n < h.nodes.length) :
    Attached h (h.pushFront p (some n)) p [n] := by
  have ha := (h.setChildren p (n :: (h.get p).children)).adopt_adopted p n
  refine ⟨fun q c hc => ?_, fun c hc => ?_, fun c => ?_⟩
  · rw [pushFront, ha.children, children_setChildren] at hc
    grind
  · rw [pushFront, ha.children, children_setChildren]
    grind
  · rw [pushFront, ha.parent, parent_setChildren, length_setChildren]
    grind

theorem pushBack_attached (h : Heap) (hp : p < h.nodes.length) (hn : n < h.nodes.length) :
    Attached h (h.pushBack p (some n)) p [n] := by
  have ha := (h.setChildren p ((h.get p).children ++ [n])).adopt_adopted p n
  refine ⟨fun q c hc => ?_, fun c hc => ?_, fun c => ?_⟩
  · rw [pushBack, ha.children, children_setChildren] at hc
    grind
  · rw [pushBack, ha.children, children_setChildren]
    grind
  · rw [pushBack, ha.parent, parent_setChildren, length_setChildren]
    grind

@[simp] theorem length_pushBack (h : Heap) (p n : Node) :
    (h.pushBack p (some n)).nodes.length = h.nodes.length := by
  rw [pushBack, (adopt_adopted _ p n).length, length_setChildren]

@[simp] theorem type_pushBack (h : Heap) (p n m : Node) :
    ((h.pushBack p (some n)).get m).type = (h.get m).type := by
  rw [pushBack, (adopt_adopted _ p n).type, type_setChildren]

theorem insert_attached (h : Heap) (hp : p < h.nodes.length) (hn : n < h.nodes.length)
    (pos : Nat) : Attached h (h.insert p pos (some n)) p [n] := by
  have ha := h.adopt_adopted p n
  refine ⟨fun q c hc => ?_, fun c hc => ?_, fun c => ?_⟩
  · rw [insert, children_setChildren, ha.children, ha.length] at hc
    split at hc
    · next hq =>
      rw [← hq.1]
      exact mem_insertAt.1 hc
    · exact .inl hc
  · rw [insert, children_setChildren, ha.length, if_pos ⟨rfl, hp⟩]
    exact mem_insertAt.2 (.inr hc)
  · rw [insert, parent_setChildren, ha.parent]
    grind

theorem insertRange_attached (h : Heap) (hp : p < h.nodes.length)
    (hns : ∀ n ∈ ns, n < h.nodes.length) (pos : Nat) :
    Attached h (h.insertRange p pos ns) p ns := by
  obtain ⟨hlen, hchildren, hparent⟩ := h.foldl_adopt_kept p ns hns
  unfold insertRange
  split
  · next hnil =>
    subst hnil
    exact ⟨fun _ _ hc => .inl hc, fun _ hc => absurd hc List.not_mem_nil, fun c => by simp⟩
  · refine ⟨fun q c hc => ?_, fun c hc => ?_, fun c => ?_⟩
    · rw [children_setChildren, hchildren, hlen] at hc
      split at hc
      · next hq =>
        rw [← hq.1]
        exact mem_insertAt.1 hc
      · exact .inl hc
    · rw [children_setChildren, hlen, if_pos ⟨rfl, hp⟩]
      exact mem_insertAt.2 (.inr hc)
    · rw [parent_setChildren, hparent]

theorem get_create (h : Heap) (type : Token) (location : Location) (n : Node) :
    ((h.create type location).1.get n) =
      if n = h.nodes.length then { type, location } else h.get n := by
  simp only [create, get, List.getD_eq_getElem?_getD, List.getElem?_append, List.getElem?_singleton]
  grind

@[simp] theorem create_node (h : Heap) (type : Token) (location : Location) :
    (h.create type location).2 = h.nodes.length := rfl

@[simp] theorem length_create (h : Heap) (type : Token) (location : Location) :
    (h.create type location).1.nodes.length = h.nodes.length + 1 := by
  simp [create]

theorem Propagated.create (h : Propagated heap) (type : Token) (location : Location) :
    Propagated (heap.create type location).1 := by
  intro c p hp
  have hc : c ≠ heap.nodes.length := by
    rintro rfl
    rw [get_create, if_pos rfl] at hp
    cases hp
  rw [get_create, if_neg hc] at hp
  obtain ⟨hlt, herror, hlift⟩ := h c p hp
  have hp' : p ≠ heap.nodes.length := Nat.ne_of_lt hlt
  simp only [length_create, flag, get_create, if_neg hc, if_neg hp']
  exact ⟨Nat.lt_succ_of_lt hlt, herror, hlift⟩

theorem ErrorsPropagate.create (h : ErrorsPropagate heap) (type : Token) (location : Location) :
    ErrorsPropagate (heap.create type location).1 := by
  intro c p hp
  have hc : c ≠ heap.nodes.length := by
    rintro rfl
    rw [get_create, if_pos rfl] at hp
    cases hp
  rw [get_create, if_neg hc] at hp
  obtain ⟨hlt, herror⟩ := h c p hp
  have hp' : p ≠ heap.nodes.length := Nat.ne_of_lt hlt
  simp only [length_create, flag, get_create, if_neg hc, if_neg hp']
  exact ⟨Nat.lt_succ_of_lt hlt, herror⟩

theorem Linked.create (h : Linked heap) (type : Token) (location : Location) :
    Linked (heap.create type location).1 := by
  intro p c hc
  rw [get_create] at hc
  split at hc
  · exact absurd hc List.not_mem_nil
  · have hlt := h.lt hc
    rw [get_create, if_neg (Nat.ne_of_lt hlt)]
    exact h p c hc

theorem unshared_create (h : Heap) (type : Token) (location : Location) :
    (h.create type location).1.Unshared ↔ h.Unshared := by
  simp [Unshared, create]

theorem orphan_kept (h : Heap) (p n : Node) : (h.orphan p n).nodes.length = h.nodes.length ∧
    (∀ m, ((h.orphan p n).get m).type = (h.get m).type) ∧
    (∀ m, ((h.orphan p n).get m).children = (h.get m).children) ∧
    (∀ m b, (h.orphan p n).flag m b = h.flag m b) ∧
    ∀ m, ((h.orphan p n).get m).parent =
      if n = m ∧ (h.get n).parent = some p then none else (h.get m).parent := by
  unfold orphan
  split
  · next hp =>
    refine ⟨length_setParent .., fun m => type_setParent .., fun m => children_setParent ..,
      fun m b => flag_setParent .., fun m => ?_⟩
    have hn : n < h.nodes.length := by
      by_contra hle
      rw [get_of_le h (Nat.le_of_not_lt hle)] at hp
      cases hp
    rw [parent_setParent]
    simp only [hn, hp, and_true]
  · next hp =>
    exact ⟨rfl, fun _ => rfl, fun _ => rfl, fun _ _ => rfl, fun m => by rw [if_neg fun hc => hp hc.2]⟩

theorem Detached.of_orphans (hu : Unshared heap)
    (hlen : heap'.nodes.length = heap.nodes.length)
    (htype : ∀ n, (heap'.get n).type = (heap.get n).type)
    (hflag : ∀ n b, heap'.flag n b = heap.flag n b)
    (hchildren : ∀ q c, c ∈ (heap'.get q).children → c ∈ (heap.get q).children)
    (hparent : ∀ c, (heap'.get c).parent = (heap.get c).parent ∨
      (heap'.get c).parent = none ∧ c ∈ (heap.get p).children ∧ c ∉ (heap'.get p).children) :
    Detached heap heap' := by
  refine ⟨hlen, htype, hflag, fun q c hc => ⟨hchildren q c hc, ?_⟩, fun c q hq => ?_⟩
  · rcases hparent c with hsame | ⟨-, hin, hout⟩
    · exact hsame
    · rw [hu.unique (hchildren q c hc) hin] at hc
      exact absurd hc hout
  · rcases hparent c with hsame | ⟨hnone, -, -⟩
    · rw [← hsame, hq]
    · rw [hnone] at hq
      cases hq

theorem popBack_detached (hu : Unshared heap) (p : Node) :
    Detached heap (heap.popBack p).1 := by
  unfold popBack
  cases hlast : (heap.get p).children.getLast? with
  | none =>
    exact ⟨rfl, fun _ => rfl, fun _ _ => rfl, fun _ _ hc => ⟨hc, rfl⟩, fun _ _ hp => hp⟩
  | some n =>
    have hsplit := List.dropLast_append_getLast? n hlast
    have hmem : n ∈ (heap.get p).children := List.mem_of_getLast? hlast
    obtain ⟨hlen, htype, hchildren, hflag, hparent⟩ :=
      (heap.setChildren p (heap.get p).children.dropLast).orphan_kept p n
    have hnodup := hu.nodup p
    rw [← hsplit] at hnodup
    refine .of_orphans (p := p) hu (hlen.trans (length_setChildren ..))
      (fun m => (htype m).trans (type_setChildren ..))
      (fun m b => (hflag m b).trans (flag_setChildren ..)) (fun q c hc => ?_) (fun c => ?_)
    · rw [hchildren, children_setChildren] at hc
      split at hc
      · next hq =>
        rw [← hq.1]
        exact List.dropLast_subset _ hc
      · exact hc
    · simp only [hparent, hchildren, children_setChildren, parent_setChildren]
      split
      · next hn =>
        rw [← hn.1, if_pos ⟨trivial, lt_of_mem_children hmem⟩]
        refine .inr ⟨rfl, hmem, fun hm => ?_⟩
        exact (List.nodup_append.1 hnodup).2.2 n hm n (List.mem_singleton_self n) rfl
      · exact .inl rfl

theorem foldl_orphan_kept (h : Heap) (p : Node) (ns : List Node) :
    (ns.foldl (·.orphan p) h).nodes.length = h.nodes.length ∧
      (∀ m, ((ns.foldl (·.orphan p) h).get m).type = (h.get m).type) ∧
      (∀ m, ((ns.foldl (·.orphan p) h).get m).children = (h.get m).children) ∧
      (∀ m b, (ns.foldl (·.orphan p) h).flag m b = h.flag m b) ∧
      ∀ m, ((ns.foldl (·.orphan p) h).get m).parent = (h.get m).parent ∨
        ((ns.foldl (·.orphan p) h).get m).parent = none ∧ m ∈ ns := by
  induction ns generalizing h with
  | nil => exact ⟨rfl, fun _ => rfl, fun _ => rfl, fun _ _ => rfl, fun _ => .inl rfl⟩
  | cons n ns ih =>
    obtain ⟨hlen, htype, hchildren, hflag, hparent⟩ := ih (h.orphan p n)
    obtain ⟨hlen', htype', hchildren', hflag', hparent'⟩ := h.orphan_kept p n
    refine ⟨hlen.trans hlen', fun m => (htype m).trans (htype' m),
      fun m => (hchildren m).trans (hchildren' m), fun m b => (hflag m b).trans (hflag' m b),
      fun m => ?_⟩
    rw [List.foldl_cons]
    rcases hparent m with hm | ⟨hm, hmem⟩
    · rw [hm, hparent']
      split
      · next hn => exact .inr ⟨rfl, hn.1 ▸ List.mem_cons_self⟩
      · exact .inl rfl
    · exact .inr ⟨hm, List.mem_cons_of_mem n hmem⟩

/-- What lies between two positions of a list without repetitions lies nowhere else in it. -/
theorem not_mem_rest {l : List Node} (hd : l.Nodup) (hc : c ∈ (l.take last).drop first) :
    c ∉ l.take first ++ l.drop last := by
  have hle : first ≤ last := by
    by_contra hlt
    rw [List.drop_eq_nil_of_le (by simp; omega)] at hc
    exact List.not_mem_nil hc
  have hsplit : l = l.take first ++ ((l.take last).drop first ++ l.drop last) := by
    have htake : l.take first = (l.take last).take first := by
      rw [List.take_take, Nat.min_eq_left hle]
    rw [htake, ← List.append_assoc, List.take_append_drop, List.take_append_drop]
  rw [hsplit] at hd
  obtain ⟨_, hd', hdisj⟩ := List.nodup_append.1 hd
  obtain ⟨_, _, hdisj'⟩ := List.nodup_append.1 hd'
  rw [List.mem_append, not_or]
  exact ⟨fun hm => hdisj c hm c (List.mem_append_left _ hc) rfl, fun hm => hdisj' c hc c hm rfl⟩

theorem erase_detached (hu : Unshared heap) (p : Node) (first last : Nat) :
    Detached heap (heap.erase p first last) := by
  obtain ⟨hlen, htype, hchildren, hflag, hparent⟩ :=
    heap.foldl_orphan_kept p (((heap.get p).children.take last).drop first)
  refine .of_orphans (p := p) hu ((length_setChildren ..).trans hlen)
    (fun m => (type_setChildren ..).trans (htype m))
    (fun m b => (flag_setChildren ..).trans (hflag m b)) (fun q c hc => ?_) (fun c => ?_)
  · simp only [erase, children_setChildren, hchildren] at hc
    split at hc
    · next hq =>
      rw [← hq.1]
      rcases List.mem_append.1 hc with hc | hc
      · exact List.mem_of_mem_take hc
      · exact List.mem_of_mem_drop hc
    · exact hc
  · simp only [erase, parent_setChildren, children_setChildren, hchildren, hlen]
    refine (hparent c).imp_right fun ⟨hnone, hmem⟩ => ?_
    have hin := List.mem_of_mem_take (List.mem_of_mem_drop hmem)
    refine ⟨hnone, hin, ?_⟩
    rw [if_pos ⟨trivial, lt_of_mem_children hin⟩]
    exact not_mem_rest (hu.nodup p) hmem

theorem not_mem_set_idxOf {l : List Node} (hd : l.Nodup) (hne : n₁ ≠ n₂) :
    n₁ ∉ l.set (l.idxOf n₁) n₂ := by
  intro hm
  obtain ⟨j, hj, hget⟩ := List.mem_iff_getElem.1 hm
  rw [List.length_set] at hj
  rw [List.getElem_set] at hget
  split at hget
  · exact hne hget.symm
  · next hidx =>
    have hin : n₁ ∈ l := hget ▸ List.getElem_mem hj
    have hidx' := List.getElem_idxOf (List.idxOf_lt_length_of_mem hin)
    exact hidx ((hd.getElem_inj_iff).1 (hidx'.trans hget.symm))

/-- What `replace` returns for a new node. -/
theorem replace_eq_some (h : Heap.replace heap p n₁ (some n₂) = some heap') :
    n₁ ∈ (heap.get p).children ∧ heap' = (((heap.orphan p n₁).adopt p n₂).setChildren p
      ((heap.get p).children.set ((heap.get p).children.idxOf n₁) n₂)) := by
  simp only [Heap.replace] at h
  split at h
  · cases h
  · next hidx =>
    refine ⟨?_, (Option.some.inj h).symm⟩
    by_contra hout
    exact hidx (List.idxOf_eq_length hout)

theorem Propagated.orphan (h : Propagated heap) (p n : Node) : Propagated (heap.orphan p n) := by
  obtain ⟨hlen, htype, _, hflag, hparent⟩ := heap.orphan_kept p n
  apply h.of_parent hlen htype hflag
  intro c q hq
  rw [hparent] at hq
  split at hq
  · cases hq
  · exact hq

theorem ErrorsPropagate.orphan (h : ErrorsPropagate heap) (p n : Node) :
    ErrorsPropagate (heap.orphan p n) := by
  obtain ⟨hlen, htype, _, hflag, hparent⟩ := heap.orphan_kept p n
  apply h.of_parent hlen htype hflag
  intro c q hq
  rw [hparent] at hq
  split at hq
  · cases hq
  · exact hq

theorem ErrorsPropagate.replace (h : ErrorsPropagate heap)
    (hr : heap.replace p n₁ (some n₂) = some heap') : ErrorsPropagate heap' := by
  obtain ⟨hin, rfl⟩ := replace_eq_some hr
  obtain ⟨hlen, -⟩ := heap.orphan_kept p n₁
  have hp : p < (heap.orphan p n₁).nodes.length := hlen ▸ lt_of_mem_children hin
  exact ((h.orphan p n₁).adopt hp n₂).setChildren p _

theorem Propagated.replace (h : Propagated heap) (hr : heap.replace p n₁ (some n₂) = some heap')
    (hmix : ¬ heap.Mixed n₂) : Propagated heap' := by
  obtain ⟨hin, rfl⟩ := replace_eq_some hr
  obtain ⟨hlen, htype, _, hflag, _⟩ := heap.orphan_kept p n₁
  refine ((h.orphan p n₁).adopt (fun hm => hmix ?_) (hlen ▸ lt_of_mem_children hin)).setChildren p _
  simpa only [Mixed, htype, hflag] using hm

theorem Linked.replace (h : Linked heap) (hu : Unshared heap)
    (hr : heap.replace p n₁ (some n₂) = some heap') (hn₂ : n₂ < heap.nodes.length)
    (hu' : Unshared heap') : Linked heap' := by
  obtain ⟨hin, rfl⟩ := replace_eq_some hr
  obtain ⟨hlen, _, hchildren, _, hparent⟩ := heap.orphan_kept p n₁
  have ha := (heap.orphan p n₁).adopt_adopted p n₂
  have hp := lt_of_mem_children hin
  have hset : ∀ q, ((((heap.orphan p n₁).adopt p n₂).setChildren p ((heap.get p).children.set
      ((heap.get p).children.idxOf n₁) n₂)).get q).children = if p = q then
        (heap.get p).children.set ((heap.get p).children.idxOf n₁) n₂
      else (heap.get q).children := fun q => by
    simp only [children_setChildren, ha.length, hlen, hp, and_true, ha.children, hchildren]
  have hidx := List.idxOf_lt_length_of_mem hin
  have hnew : n₂ ∈ ((((heap.orphan p n₁).adopt p n₂).setChildren p ((heap.get p).children.set
      ((heap.get p).children.idxOf n₁) n₂)).get p).children := by
    rw [hset, if_pos rfl]
    exact List.mem_set hidx n₂
  intro q c hc
  rw [parent_setChildren, ha.parent, hlen, hparent]
  by_cases hc₂ : n₂ = c
  · subst hc₂
    rw [if_pos ⟨rfl, hn₂⟩, hu'.unique hc hnew]
  · rw [if_neg fun hc' => hc₂ hc'.1]
    rw [hset] at hc
    have hold : c ∈ (heap.get q).children := by
      split at hc
      · next hq =>
        subst hq
        exact (List.mem_or_eq_of_mem_set hc).resolve_right (Ne.symm hc₂)
      · exact hc
    rw [if_neg, h q c hold]
    rintro ⟨rfl, -⟩
    rw [if_pos (hu.unique hin hold)] at hc
    exact not_mem_set_idxOf (hu.nodup p) (Ne.symm hc₂) hc

end Heap

end Trieste
