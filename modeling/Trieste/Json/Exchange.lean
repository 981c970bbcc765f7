import Trieste.Ast.Copies
import Trieste.Json.Trails

namespace Trieste.Json
set_option autoImplicit true
open Library Relation Heap

namespace IsDocument

theorem sub (hdoc : IsDocument heap document) (hin : heap.InTree document n)
    (htype : (heap.get n).type ≠ .jsonMember) : IsDocument heap n := by
  constructor
  · obtain ⟨t, ht⟩ := hdoc.tree
    obtain ⟨t', ht', -⟩ := ht.inTree hin
    exact ⟨t', ht'⟩
  · intro p c hp
    exact hdoc.parent p c (hin.trans hp)
  · intro p hp
    exact hdoc.nodup p (hin.trans hp)
  · intro p c hp
    exact hdoc.member p c (hin.trans hp)
  · intro m hm
    exact hdoc.fields m (hin.trans hm)
  · intro p hp
    exact hdoc.noError p (hin.trans hp)
  · exact htype

/-- A document stays one while its nodes do. -/
theorem alike (hdoc : IsDocument heap document) (hlen : heap.nodes.length ≤ heap'.nodes.length)
    (halike : ∀ n, heap.InTree document n → Alike heap heap' n)
    (hparent : ∀ n, heap.InTree document n → n ≠ document →
      (heap'.get n).parent = (heap.get n).parent) : IsDocument heap' document := by
  have hin : ∀ n, heap'.InTree document n → heap.InTree document n := by
    intro n hn
    induction hn with
    | refl => exact .refl
    | @tail p c _ hc ih =>
      rw [HasChild, (halike p ih).2.2] at hc
      exact ih.tail hc
  have hchild : ∀ n c, heap'.InTree document n → heap'.HasChild n c → heap.HasChild n c := by
    intro n c hn hc
    rwa [HasChild, (halike n (hin n hn)).2.2] at hc
  constructor
  · obtain ⟨t, ht⟩ := hdoc.tree
    refine ⟨t, ht.alike (I := heap.InTree document) hlen .refl (fun _ _ hp hc => hp.tail hc) ?_⟩
    intro n _ hn
    exact halike n hn
  · intro n c hn hc
    have hc := hchild n c hn hc
    have hne : c ≠ document := by
      rintro rfl
      exact hdoc.not_self (hin n hn) hc (hin n hn)
    rw [hparent c ((hin n hn).tail hc) hne]
    exact hdoc.parent n c (hin n hn) hc
  · intro n hn
    rw [(halike n (hin n hn)).2.2]
    exact hdoc.nodup n (hin n hn)
  · intro n c hn hc
    have hc := hchild n c hn hc
    rw [(halike n (hin n hn)).1, (halike c ((hin n hn).tail hc)).1]
    exact hdoc.member n c (hin n hn) hc
  · intro m hm hmember
    rw [(halike m (hin m hm)).1] at hmember
    rw [(halike m (hin m hm)).2.2]
    exact hdoc.fields m (hin m hm) hmember
  · intro n hn
    rw [(halike n (hin n hn)).1]
    exact hdoc.noError n (hin n hn)
  · rw [(halike document .refl).1]
    exact hdoc.root

theorem of_twins {copy : Node} (hdoc : IsDocument heap v) (htwins : Twins heap heap' v copy)
    (hlinked : LinkedFrom bound heap') (hbound : bound ≤ copy) : IsDocument heap' copy := by
  have hle : ∀ n, heap'.InTree copy n → bound ≤ n := by
    intro n hn
    exact Nat.le_trans hbound (hlinked.inTree hbound hn)
  constructor
  · obtain ⟨t, -, ht⟩ := htwins
    exact ⟨t, ht⟩
  · intro n c hn
    exact hlinked.parent n c (hle n hn)
  · intro n hn
    exact hlinked.nodup n (hle n hn)
  · intro n c hn hc
    obtain ⟨m, hm, hnode⟩ := htwins.inTree hn
    obtain ⟨d, hd, hchild⟩ := hnode.child hc
    rw [hnode.type, hchild.type]
    exact hdoc.member m d hm hd
  · intro n hn hmember
    obtain ⟨m, hm, hnode⟩ := htwins.inTree hn
    rw [hnode.type] at hmember
    obtain ⟨key, value, hc⟩ := hdoc.fields m hm hmember
    have hlen := hnode.length
    rw [hc] at hlen
    exact List.length_eq_two.1 hlen
  · intro n hn
    obtain ⟨m, hm, hnode⟩ := htwins.inTree hn
    rw [hnode.type]
    exact hdoc.noError m hm
  · rw [htwins.type]
    exact hdoc.root

/-- What is below a node is at a child of it or below, and a child has one parent. -/
theorem below_parent (hdoc : IsDocument heap document) (hp : heap.InTree document p)
    (hc : heap.HasChild p c) (ha : heap.InTree document a) (hin : heap.InTree a c) :
    a = c ∨ heap.InTree a p := by
  rcases hin.cases_tail with rfl | ⟨q, hq, hqc⟩
  · exact .inl rfl
  · have hparent := hdoc.parent p c hp hc
    rw [hdoc.parent q c (ha.trans hq) hqc] at hparent
    exact .inr (Option.some.inj hparent ▸ hq)

theorem above_total (hdoc : IsDocument heap document) (ha : heap.InTree document a)
    (hb : heap.InTree document b) (han : heap.InTree a n) (hbn : heap.InTree b n) :
    heap.InTree a b ∨ heap.InTree b a := by
  induction han with
  | refl => exact .inr hbn
  | @tail p c hp hc ih =>
    rcases hdoc.below_parent (ha.trans hp) hc hb hbn with rfl | hbp
    · exact .inl (hp.tail hc)
    · exact ih hbp

theorem lt (hdoc : IsDocument heap document) (hin : heap.InTree document n) :
    n < heap.nodes.length := by
  obtain ⟨t, ht⟩ := hdoc.tree
  obtain ⟨t', ht', -⟩ := ht.inTree hin
  exact ht'.lt

end IsDocument

/-- A clone of a document is one, of new nodes. -/
theorem IsDocument.clone (hv : IsDocument heap v) (hrep : heap.Represents v t) :
    ∃ heap₁, heap.clone (heap.nodes.length + 1) v = some (heap₁, heap.nodes.length) ∧
      Frame heap.nodes.length heap heap₁ ∧ LinkedFrom heap.nodes.length heap₁ ∧
      IsDocument heap₁ heap.nodes.length ∧ heap₁.Represents heap.nodes.length t := by
  obtain ⟨heap₁, hclone, hcopy⟩ := hrep.clone (Nat.le_succ_of_le hrep.depth_le)
  obtain ⟨hframe, -⟩ := (Above.length heap).clone (Nat.le_refl _) hclone
  obtain ⟨hlinked, -⟩ := (LinkedFrom.length heap).clone (Nat.le_refl _) hclone
  exact ⟨heap₁, hclone, hframe, hlinked, hv.of_twins ⟨t, hrep, hcopy⟩ hlinked (Nat.le_refl _), hcopy⟩

/-- A copy has taken the place of a child, at the index of that child. -/
structure Exchanged (h h' : Heap) (p : Node) (i : Nat) (old copy : Node) : Prop where
  slot : (h.get p).children[i]? = some old
  length : h.nodes.length ≤ h'.nodes.length
  type : ∀ n < h.nodes.length, (h'.get n).type = (h.get n).type
  location : ∀ n < h.nodes.length, (h'.get n).location = (h.get n).location
  children : ∀ n < h.nodes.length, (h'.get n).children =
    if n = p then (h.get p).children.set i copy else (h.get n).children
  parent : ∀ n < h.nodes.length, n ≠ old → (h'.get n).parent = (h.get n).parent
  attached : (h'.get copy).parent = some p
  made : IsDocument h' copy
  fresh : ∀ n, h'.InTree copy n → h.nodes.length ≤ n

theorem location_orphan (h : Heap) (p n m : Node) :
    ((h.orphan p n).get m).location = (h.get m).location := by
  unfold Heap.orphan
  split
  · exact proj_modify (π := NodeDef.location) h n m _ fun _ => rfl
  · rfl

theorem exchanged_of_clone (hdoc : IsDocument heap document) (hp : heap.InTree document p)
    (hslot : (heap.get p).children[i]? = some old) (hv : IsDocument heap v)
    (hrep : heap.Represents v t) :
    ∃ heap₁ heap₂, heap.clone (heap.nodes.length + 1) v = some (heap₁, heap.nodes.length) ∧
      Frame heap.nodes.length heap heap₁ ∧
      heap₁.replace p old (some heap.nodes.length) = some heap₂ ∧
      Exchanged heap heap₂ p i old heap.nodes.length ∧
      heap₂.Represents heap.nodes.length t := by
  obtain ⟨heap₁, hclone, hframe, hlinked, hdoc₁, hcopy⟩ := hv.clone hrep
  have hlt := hcopy.lt
  have hplt := hdoc.lt hp
  have hold := hdoc.lt (hp.tail (List.mem_of_getElem? hslot))
  -- where the child is found
  have hchildren : (heap₁.get p).children = (heap.get p).children := by
    rw [hframe.kept p hplt]
  obtain ⟨hi, hget⟩ := List.getElem?_eq_some_iff.1 hslot
  have hidx : (heap.get p).children.idxOf old = i := by
    rw [← hget]
    exact (hdoc.nodup p hp).idxOf_getElem i hi
  obtain ⟨hlen, htype, hkept, -, hparent⟩ := heap₁.orphan_kept p old
  have hadopted := (heap₁.orphan p old).adopt_adopted p heap.nodes.length
  let heap₂ := ((heap₁.orphan p old).adopt p heap.nodes.length).setChildren p
    ((heap.get p).children.set i heap.nodes.length)
  have hreplace : heap₁.replace p old (some heap.nodes.length) = some heap₂ := by
    unfold Heap.replace
    simp only [hchildren, hidx]
    rw [if_neg (Nat.ne_of_lt hi)]
  have hlen₂ : heap₂.nodes.length = heap₁.nodes.length := by
    rw [length_setChildren, hadopted.length, hlen]
  have hplt₂ : p < ((heap₁.orphan p old).adopt p heap.nodes.length).nodes.length := by
    rw [hadopted.length, hlen]
    exact Nat.lt_of_lt_of_le hplt hframe.length
  have htype₂ : ∀ n, (heap₂.get n).type = (heap₁.get n).type := by
    intro n
    rw [type_setChildren, hadopted.type, htype]
  have hlocation₂ : ∀ n, (heap₂.get n).location = (heap₁.get n).location := by
    intro n
    have hset : (heap₂.get n).location =
        (((heap₁.orphan p old).adopt p heap.nodes.length).get n).location :=
      proj_modify (π := NodeDef.location) _ p n _ fun _ => rfl
    rw [hset, location_adopt, location_orphan]
  have hchildren₂ : ∀ n, (heap₂.get n).children =
      if n = p then (heap.get p).children.set i heap.nodes.length else (heap₁.get n).children := by
    intro n
    rw [children_setChildren, hadopted.children, hkept]
    by_cases hn : n = p
    · rw [if_pos hn, if_pos ⟨hn.symm, hplt₂⟩]
    · rw [if_neg hn, if_neg fun hc => hn hc.1.symm]
  have hparent₂ : ∀ n, n ≠ heap.nodes.length → n ≠ old →
      (heap₂.get n).parent = (heap₁.get n).parent := by
    intro n hne hne'
    rw [parent_setChildren, hadopted.parent, if_neg fun hc => hne hc.1.symm, hparent,
      if_neg fun hc => hne' hc.1.symm]
  have hbeyond : ∀ n, heap₁.InTree heap.nodes.length n → heap.nodes.length ≤ n := by
    intro n hn
    exact hlinked.inTree (Nat.le_refl _) hn
  have halike : ∀ n, heap.nodes.length ≤ n → Alike heap₁ heap₂ n := by
    intro n hn
    have hne : n ≠ p := Nat.ne_of_gt (Nat.lt_of_lt_of_le hplt hn)
    refine ⟨htype₂ n, hlocation₂ n, ?_⟩
    rw [hchildren₂, if_neg hne]
  have hdoc₂ : IsDocument heap₂ heap.nodes.length := by
    apply hdoc₁.alike (Nat.le_of_eq hlen₂.symm) fun n hn => halike n (hbeyond n hn)
    intro n hn hne
    exact hparent₂ n hne (Nat.ne_of_gt (Nat.lt_of_lt_of_le hold (hbeyond n hn)))
  have hdown : ∀ q c, heap.nodes.length ≤ q → heap₁.HasChild q c → heap.nodes.length ≤ c := by
    intro q c hq hc
    exact Nat.le_trans hq (Nat.le_of_lt (hlinked.later q c hq hc))
  have htree : heap₂.Represents heap.nodes.length t :=
    hcopy.alike (I := (heap.nodes.length ≤ ·)) (Nat.le_of_eq hlen₂.symm) (Nat.le_refl _) hdown
      fun n _ hn => halike n hn
  refine ⟨heap₁, heap₂, hclone, hframe, hreplace, ?_, htree⟩
  constructor
  · exact hslot
  · rw [hlen₂]
    exact hframe.length
  · intro n hn
    rw [htype₂, hframe.kept n hn]
  · intro n hn
    rw [hlocation₂, hframe.kept n hn]
  · intro n hn
    rw [hchildren₂, hframe.kept n hn]
  · intro n hn hne
    rw [hparent₂ n (Nat.ne_of_lt hn) hne, hframe.kept n hn]
  · rw [parent_setChildren, hadopted.parent, hlen, if_pos ⟨rfl, hlt⟩]
  · exact hdoc₂
  · intro n hn
    induction hn with
    | refl => exact Nat.le_refl _
    | @tail q c _ hc ih =>
      rw [HasChild, (halike q ih).2.2] at hc
      exact hdown q c ih hc

namespace Exchanged
variable {heap heap' : Heap} {p i old copy document : Node}

theorem ne_copy (h : Exchanged heap heap' p i old copy) (hn : n < heap.nodes.length) :
    n ≠ copy := by
  rintro rfl
  exact absurd hn (Nat.not_lt.2 (h.fresh n .refl))

theorem getElem_children (h : Exchanged heap heap' p i old copy) (hdoc : IsDocument heap document)
    (hn : heap.InTree document n) (hc : (heap'.get n).children[j]? = some c) :
    (heap.get n).children[j]? = some c ∧ ¬ (n = p ∧ j = i) ∨ n = p ∧ j = i ∧ c = copy := by
  rw [h.children n (hdoc.lt hn)] at hc
  split at hc
  · next hnp =>
    by_cases hj : j = i
    · have hi := (List.getElem?_eq_some_iff.1 h.slot).1
      rw [hj, List.getElem?_set_self hi] at hc
      exact .inr ⟨hnp, hj, (Option.some.inj hc).symm⟩
    · rw [List.getElem?_set_ne fun hij => hj hij.symm] at hc
      rw [hnp]
      exact .inl ⟨hc, fun hji => hj hji.2⟩
  · next hnp => exact .inl ⟨hc, fun hnj => hnp hnj.1⟩

theorem slot_unique (h : Exchanged heap heap' p i old copy) (hdoc : IsDocument heap document)
    (hp : heap.InTree document p) (hn : heap.InTree document n)
    (hc : (heap.get n).children[j]? = some old) : n = p ∧ j = i := by
  have hparent := hdoc.parent p old hp (List.mem_of_getElem? h.slot)
  rw [hdoc.parent n old hn (List.mem_of_getElem? hc)] at hparent
  obtain rfl := Option.some.inj hparent
  obtain ⟨hi, hi'⟩ := List.getElem?_eq_some_iff.1 h.slot
  obtain ⟨hj, hj'⟩ := List.getElem?_eq_some_iff.1 hc
  exact ⟨rfl, (hdoc.nodup n hn).getElem_inj_iff.1 (hj'.trans hi'.symm)⟩

theorem child (h : Exchanged heap heap' p i old copy) (hdoc : IsDocument heap document)
    (hp : heap.InTree document p) (hn : heap.InTree document n) (hc : heap'.HasChild n c) :
    heap.HasChild n c ∧ c ≠ old ∨ n = p ∧ c = copy := by
  obtain ⟨j, hj⟩ := List.getElem?_of_mem hc
  rcases h.getElem_children hdoc hn hj with hkept | hnew
  · refine .inl ⟨List.mem_of_getElem? hkept.1, ?_⟩
    rintro rfl
    exact hkept.2 (h.slot_unique hdoc hp hn hkept.1)
  · exact .inr ⟨hnew.1, hnew.2.2⟩

theorem inTree (h : Exchanged heap heap' p i old copy) (hdoc : IsDocument heap document)
    (hp : heap.InTree document p) (hn : heap'.InTree document n) :
    heap.InTree document n ∧ n ≠ old ∨ heap'.InTree copy n := by
  induction hn with
  | refl =>
    refine .inl ⟨.refl, ?_⟩
    rintro rfl
    exact hdoc.not_self hp (List.mem_of_getElem? h.slot) hp
  | @tail q c _ hc ih =>
    rcases ih with hq | hq
    · rcases h.child hdoc hp hq.1 hc with hold | hnew
      · exact .inl ⟨hq.1.tail hold.1, hold.2⟩
      · exact .inr (hnew.2 ▸ .refl)
    · exact .inr (hq.tail hc)

theorem exists_tree (h : Exchanged heap heap' p i old copy) (hdoc : IsDocument heap document)
    (hp : heap.InTree document p) (hn : heap.InTree document n) (ht : heap.Represents n t) :
    ∃ t', heap'.Represents n t' := by
  induction hk : t.depth using Nat.strong_induction_on generalizing n t with
  | h k ih =>
    apply exists_represents (Nat.lt_of_lt_of_le ht.lt h.length)
    intro c hc
    rcases h.child hdoc hp hn hc with hold | hnew
    · obtain ⟨u, hu, hlt⟩ := ht.child hold.1
      exact ih u.depth (hk ▸ hlt) (hn.tail hold.1) hu rfl
    · rw [hnew.2]
      exact h.made.tree

/-- The document stays one. -/
theorem isDocument (h : Exchanged heap heap' p i old copy) (hdoc : IsDocument heap document)
    (hp : heap.InTree document p) (htype : (heap.get p).type ≠ .jsonObject) :
    IsDocument heap' document := by
  have hcases : ∀ n c, heap'.InTree document n → heap'.HasChild n c →
      heap'.InTree copy n ∨ heap.InTree document n ∧
        (heap.HasChild n c ∧ c ≠ old ∨ n = p ∧ c = copy) := by
    intro n c hn hc
    rcases h.inTree hdoc hp hn with hold | hnew
    · exact .inr ⟨hold.1, h.child hdoc hp hold.1 hc⟩
    · exact .inl hnew
  constructor
  · obtain ⟨t, ht⟩ := hdoc.tree
    exact h.exists_tree hdoc hp .refl ht
  · intro n c hn hc
    rcases hcases n c hn hc with hnew | ⟨hold, ⟨hchild, hne⟩ | ⟨rfl, rfl⟩⟩
    · exact h.made.parent n c hnew hc
    · rw [h.parent c (hdoc.lt (hold.tail hchild)) hne]
      exact hdoc.parent n c hold hchild
    · exact h.attached
  · intro n hn
    rcases h.inTree hdoc hp hn with hold | hnew
    · rw [h.children n (hdoc.lt hold.1)]
      split
      · apply (hdoc.nodup p hp).set
        intro hc
        exact h.ne_copy (hdoc.lt (hp.tail hc)) rfl
      · exact hdoc.nodup n hold.1
    · exact h.made.nodup n hnew
  · intro n c hn hc
    rcases hcases n c hn hc with hnew | ⟨hold, ⟨hchild, -⟩ | ⟨rfl, rfl⟩⟩
    · exact h.made.member n c hnew hc
    · rw [h.type n (hdoc.lt hold), h.type c (hdoc.lt (hold.tail hchild))]
      exact hdoc.member n c hold hchild
    · rw [h.type n (hdoc.lt hp)]
      exact iff_of_false h.made.root htype
  · intro m hm hmember
    rcases h.inTree hdoc hp hm with hold | hnew
    · have hlt := hdoc.lt hold.1
      rw [h.type m hlt] at hmember
      obtain ⟨key, value, hc⟩ := hdoc.fields m hold.1 hmember
      apply List.length_eq_two.1
      rw [h.children m hlt]
      split
      · next hmp => rw [List.length_set, ← hmp, hc, List.length_cons, List.length_singleton]
      · rw [hc, List.length_cons, List.length_singleton]
    · exact h.made.fields m hnew hmember
  · intro n hn
    rcases h.inTree hdoc hp hn with hold | hnew
    · rw [h.type n (hdoc.lt hold.1)]
      exact hdoc.noError n hold.1
    · exact h.made.noError n hnew
  · rw [h.type document (hdoc.lt .refl)]
    exact hdoc.root

end Exchanged

end Trieste.Json
