import Trieste.Json.Values

namespace Trieste.Json
set_option autoImplicit true
open Library Relation Heap

/-- The children of one node have changed. Those that are new are roots of new trees. -/
structure Grafted (h h' : Heap) (p : Node) : Prop where
  length : h.nodes.length ≤ h'.nodes.length
  type : ∀ n < h.nodes.length, (h'.get n).type = (h.get n).type
  children : ∀ n < h.nodes.length, n ≠ p → (h'.get n).children = (h.get n).children
  parent : ∀ n < h.nodes.length, ¬ h.HasChild p n → (h'.get n).parent = (h.get n).parent
  proper : Proper h' p
  made : ∀ c, h'.HasChild p c →
    h.HasChild p c ∨ (∃ t, h'.Represents c t) ∧ ∀ n, h'.InTree c n → Proper h' n

namespace Grafted
variable {heap heap' : Heap} {p : Node}

theorem represents (hg : Grafted heap heap' p) (ht : heap.Represents n t) :
    ∃ t', heap'.Represents n t' := by
  have hdepth : ∀ depth n t, heap.Represents n t → t.depth ≤ depth →
      ∃ t', heap'.Represents n t' := by
    intro depth
    induction depth with
    | zero =>
      intro n t _ hdepth
      cases t with
      | node type location trees =>
        rw [Tree.depth] at hdepth
        exact absurd hdepth (Nat.not_succ_le_zero _)
    | succ depth ih =>
      intro n t ht hdepth
      have hchild : ∀ c, heap.HasChild n c → ∃ t', heap'.Represents c t' := by
        intro c hc
        obtain ⟨t', ht', hlt⟩ := ht.child hc
        exact ih c t' ht' (Nat.le_of_lt_succ (Nat.lt_of_lt_of_le hlt hdepth))
      apply exists_represents (Nat.lt_of_lt_of_le ht.lt hg.length)
      intro c hc
      by_cases hn : n = p
      · subst hn
        rcases hg.made c hc with hc | ⟨htree, -⟩
        · exact hchild c hc
        · exact htree
      · rw [HasChild, hg.children n ht.lt hn] at hc
        exact hchild c hc
  exact hdepth t.depth n t ht (Nat.le_refl _)

/-- A node of a value is changed as the edit says, and all others of it are as they were. -/
theorem proper_of (hg : Grafted heap heap' p) (hp : Proper heap p) (hn : Proper heap n)
    (hlt : n < heap.nodes.length) (hchild : ∀ c, heap.HasChild n c → c < heap.nodes.length) :
    Proper heap' n := by
  by_cases heq : n = p
  · subst heq
    exact hg.proper
  · apply hn.congr (hg.type n hlt) (hg.children n hlt heq)
    intro c hc
    refine ⟨hg.type c (hchild c hc), hg.parent c (hchild c hc) fun hpc => heq ?_⟩
    have hparent := hn.parent c hc
    rw [hp.parent c hpc] at hparent
    exact (Option.some.inj hparent).symm

end Grafted

theorem IsValue.grafted (h : IsValue heap v) (hg : Grafted heap heap' p) (hp : Proper heap p) :
    IsValue heap' v := by
  obtain ⟨t, ht⟩ := h.tree
  refine ⟨hg.represents ht, fun n hn => ?_, by rw [hg.type v ht.lt]; exact h.type⟩
  have hwhere : heap.InTree v n ∨
      ∃ c, heap'.HasChild p c ∧ heap'.InTree c n ∧ ∀ m, heap'.InTree c m → Proper heap' m := by
    induction hn with
    | refl => exact .inl .refl
    | @tail m n _ hc ih =>
      rcases ih with hm | ⟨c, hpc, hcm, hmade⟩
      · by_cases heq : m = p
        · subst heq
          rcases hg.made n hc with hc | ⟨-, hmade⟩
          · exact .inl (hm.tail hc)
          · exact .inr ⟨n, hc, .refl, hmade⟩
        · rw [HasChild, hg.children m (h.lt hm) heq] at hc
          exact .inl (hm.tail hc)
      · exact .inr ⟨c, hpc, hcm.tail hc, hmade⟩
  rcases hwhere with hin | ⟨c, -, hin, hmade⟩
  · exact hg.proper_of hp (h.proper n hin) (h.lt hin) fun c hc => h.lt (hin.tail hc)
  · exact hmade n hin

/-- A new tree of proper nodes. -/
structure Fresh (bound : Nat) (h : Heap) (c : Node) : Prop where
  tree : ∃ t, h.Represents c t
  above : ∀ n, h.InTree c n → bound ≤ n
  proper : ∀ n, h.InTree c n → Proper h n

/-- The list of the children of a node is another one, in which only one node is new. -/
structure Edited (h h' : Heap) (p c : Node) (cs : List Node) : Prop where
  length : h'.nodes.length = h.nodes.length
  alike : ∀ n, n ≠ p → Alike h h' n
  type : (h'.get p).type = (h.get p).type
  children : (h'.get p).children = cs
  parent : ∀ n, n ≠ c → n ∈ cs ∨ ¬ h.HasChild p n → (h'.get n).parent = (h.get n).parent
  attached : (h'.get c).parent = some p
  only : ∀ n ∈ cs, n = c ∨ h.HasChild p n
  nodup : cs.Nodup

/-- What a node of each type may get among its children. -/
inductive Admits (h : Heap) (p c : Node) (cs : List Node) : Prop
  | element (hp : (h.get p).type = .jsonArray) (hc : (h.get c).type ∈ valueTokens)
  | member (hp : (h.get p).type = .jsonObject) (hc : (h.get c).type = .jsonMember)
  | value (hp : (h.get p).type = .jsonMember) (hc : (h.get c).type ∈ valueTokens)
      (hcs : ∃ key old, (h.get p).children = [key, old] ∧ cs = [key, c])

theorem Edited.types (h : Edited heap heap' p c cs) (n : Node) :
    (heap'.get n).type = (heap.get n).type := by
  by_cases hn : n = p
  · rw [hn]
    exact h.type
  · exact (h.alike n hn).1

theorem Edited.proper (h : Edited heap heap' p c cs) (hp : Proper heap p)
    (hadmits : Admits heap p c cs) : Proper heap' p := by
  have hchild : ∀ n, heap'.HasChild p n → n = c ∨ n ≠ c ∧ n ∈ cs ∧ heap.HasChild p n := by
    intro n hn
    rw [HasChild, h.children] at hn
    by_cases hc : n = c
    · exact .inl hc
    · exact .inr ⟨hc, hn, (h.only n hn).resolve_left hc⟩
  constructor
  · rw [h.type]
    exact hp.type
  · intro n hn
    rcases hchild n hn with rfl | ⟨hne, hcs, hold⟩
    · exact h.attached
    · rw [h.parent n hne (.inl hcs)]
      exact hp.parent n hold
  · rw [h.children]
    exact h.nodup
  · intro n hn
    rw [h.types n, h.type]
    rcases hchild n hn with rfl | ⟨-, -, hold⟩
    · cases hadmits with
      | element hp hc =>
        rw [hp]
        exact iff_of_false (value_type _ hc).1 (by decide)
      | member hp hc => exact iff_of_true hc hp
      | value hp hc =>
        rw [hp]
        exact iff_of_false (value_type _ hc).1 (by decide)
    · exact hp.member n hold
  · intro htop
    rw [h.type] at htop
    cases hadmits with
    | element hp | member hp | value hp =>
      rw [hp] at htop
      exact absurd htop (by decide)
  · intro hlist n hn
    rw [h.type] at hlist
    rw [h.types n]
    rcases hchild n hn with rfl | ⟨-, -, hold⟩
    · cases hadmits with
      | element _ hc => exact hc
      | member hp | value hp =>
        rw [hp] at hlist
        exact absurd hlist (by decide)
    · exact hp.values hlist n hold
  · intro hmember
    rw [h.type] at hmember
    cases hadmits with
    | element hp | member hp =>
      rw [hp] at hmember
      exact absurd hmember (by decide)
    | value _ hc hcs =>
      obtain ⟨key, old, hold, rfl⟩ := hcs
      obtain ⟨key', value, hpair, hkey, -⟩ := hp.pair hmember
      rw [hold] at hpair
      cases hpair
      exact ⟨key, c, h.children, (h.types key).trans hkey, by rw [h.types c]; exact hc⟩
  · intro hleaf
    rw [h.type] at hleaf
    cases hadmits with
    | element hp | member hp | value hp =>
      rw [hp] at hleaf
      exact absurd hleaf (by decide)

/-- What is new in an edited node stays as it was made. -/
theorem Edited.fresh (h : Edited heap₁ heap₂ p c cs) (hfresh : Fresh bound heap₁ c)
    (hp : p < bound) (hold : ∀ n, heap₁.HasChild p n → n < bound) : Fresh bound heap₂ c := by
  have hne : ∀ n, heap₁.InTree c n → n ≠ p := by
    rintro n hn rfl
    exact absurd hp (Nat.not_lt.2 (hfresh.above n hn))
  have hin : ∀ n, heap₂.InTree c n → heap₁.InTree c n := by
    intro n hn
    induction hn with
    | refl => exact .refl
    | @tail m n _ hc ih =>
      rw [HasChild, (h.alike m (hne m ih)).2.2] at hc
      exact ih.tail hc
  have hlater : ∀ m n, heap₁.InTree c m → heap₁.HasChild m n → n ≠ c := by
    rintro m n hm hc rfl
    obtain ⟨t, ht⟩ := hfresh.tree
    obtain ⟨t', ht', -⟩ := ht.inTree hm
    exact ht'.not_below hc hm
  constructor
  · obtain ⟨t, ht⟩ := hfresh.tree
    exact ⟨t, ht.alike (I := heap₁.InTree c) (Nat.le_of_eq h.length.symm) .refl
      (fun _ _ hp hc => hp.tail hc) fun n _ hn => h.alike n (hne n hn)⟩
  · exact fun n hn => hfresh.above n (hin n hn)
  · intro n hn
    have hn := hin n hn
    apply (hfresh.proper n hn).congr (h.types n) (h.alike n (hne n hn)).2.2
    intro m hc
    refine ⟨h.types m, h.parent m (hlater n m hn hc) (.inr fun hpm => ?_)⟩
    exact absurd (hold m hpm) (Nat.not_lt.2 (hfresh.above m (hn.tail hc)))

/-- An edit by a new tree, after it was made. -/
theorem Edited.grafted (hframe : Heap.Frame heap.nodes.length heap heap₁) (hp : Proper heap p)
    (hlt : p < heap.nodes.length) (hold : ∀ n, heap.HasChild p n → n < heap.nodes.length)
    (hfresh : Fresh heap.nodes.length heap₁ c) (h : Edited heap₁ heap₂ p c cs)
    (hadmits : Admits heap₁ p c cs) : Grafted heap heap₂ p := by
  have hchildren : (heap₁.get p).children = (heap.get p).children := by
    rw [hframe.kept p hlt]
  have hold₁ : ∀ n, heap₁.HasChild p n → n < heap.nodes.length := by
    intro n hn
    rw [HasChild, hchildren] at hn
    exact hold n hn
  have hp₁ : Proper heap₁ p := by
    apply hp.congr (hframe.type p hlt) hchildren
    intro n hn
    rw [hframe.kept n (hold n hn)]
    exact ⟨rfl, rfl⟩
  have hfresh₂ := h.fresh hfresh hlt hold₁
  constructor
  · rw [h.length]
    exact hframe.length
  · intro n hn
    rw [h.types n, hframe.type n hn]
  · intro n hn hne
    rw [(h.alike n hne).2.2, hframe.kept n hn]
  · intro n hn hpn
    have hne : n ≠ c := by
      rintro rfl
      exact absurd hn (Nat.not_lt.2 (hfresh.above n .refl))
    rw [h.parent n hne (.inr (by rwa [HasChild, hchildren])), hframe.kept n hn]
  · exact h.proper hp₁ hadmits
  · intro n hn
    rw [HasChild, h.children] at hn
    rcases h.only n hn with rfl | hpn
    · exact .inr ⟨hfresh₂.tree, hfresh₂.proper⟩
    · rw [HasChild, hchildren] at hpn
      exact .inl hpn

theorem Fresh.lt (h : Fresh bound heap c) : c < heap.nodes.length := by
  obtain ⟨t, ht⟩ := h.tree
  exact ht.lt

theorem twins_pair {heap heap' : Heap} (h : Twins heap heap' n n') (hn : Proper heap n)
    (hmember : (heap.get n).type = .jsonMember) :
    ∃ key value, (heap'.get n').children = [key, value] ∧ (heap'.get key).type = .jsonKey ∧
      (heap'.get value).type ∈ valueTokens := by
  obtain ⟨key, value, hc, hkey, hvalue⟩ := hn.pair hmember
  obtain ⟨t, ht, ht'⟩ := h
  cases t with
  | node type l ts =>
    rw [Represents, hc] at ht
    rw [Represents] at ht'
    obtain ⟨-, -, -, hall⟩ := ht
    obtain ⟨-, -, -, hall'⟩ := ht'
    have hlen := hall.length_eq
    obtain ⟨t, u, rfl⟩ := List.length_eq_two.1 hlen.symm
    rw [RepresentsAll, RepresentsAll] at hall
    obtain ⟨ht, hu, -⟩ := hall
    obtain ⟨k, ns, hns, hk, hrest⟩ := hall'.split
    obtain ⟨w, ns', rfl, hw, hnil⟩ := hrest.split
    cases hnil.nil
    refine ⟨k, w, hns, ?_, ?_⟩
    · rw [Twins.type ⟨t, ht, hk⟩]
      exact hkey
    · rw [Twins.type ⟨u, hu, hw⟩]
      exact hvalue

/-- A clone of a value is a new value. -/
theorem IsValue.clone (h : IsValue heap v) :
    ∃ heap₁, heap.clone (heap.nodes.length + 1) v = some (heap₁, heap.nodes.length) ∧
      Heap.Frame heap.nodes.length heap heap₁ ∧ LinkedFrom heap.nodes.length heap₁ ∧
      Fresh heap.nodes.length heap₁ heap.nodes.length ∧
      Twins heap heap₁ v heap.nodes.length := by
  obtain ⟨t, ht⟩ := h.tree
  obtain ⟨heap₁, hclone, hframe, hlinked, hdoc, hcopy⟩ := h.isDocument.clone ht
  have htwins : Twins heap heap₁ v heap.nodes.length := ⟨t, ht, hcopy⟩
  refine ⟨heap₁, hclone, hframe, hlinked, ⟨⟨t, hcopy⟩, fun n hn => ?_, fun n hn => ?_⟩, htwins⟩
  · exact hlinked.inTree (Nat.le_refl _) hn
  · obtain ⟨m, hm, hnode⟩ := htwins.inTree hn
    have hproper := h.proper m hm
    constructor
    · rw [hnode.type]
      exact hproper.type
    · exact fun c => hdoc.parent n c hn
    · exact hdoc.nodup n hn
    · exact fun c => hdoc.member n c hn
    · intro htop hnil
      rw [hnode.type] at htop
      have hlen := hnode.length
      rw [hnil] at hlen
      exact hproper.top htop (List.eq_nil_of_length_eq_zero hlen.symm)
    · intro hlist c hc
      rw [hnode.type] at hlist
      obtain ⟨d, hd, hchild⟩ := hnode.child hc
      rw [hchild.type]
      exact hproper.values hlist d hd
    · intro hmember
      rw [hnode.type] at hmember
      exact twins_pair hnode hproper hmember
    · intro hleaf
      rw [hnode.type] at hleaf
      have hlen := hnode.length
      rw [hproper.leaf hleaf] at hlen
      exact List.eq_nil_of_length_eq_zero hlen

theorem Fresh.isValue (h : Fresh bound heap c) (htype : (heap.get c).type ∈ .top :: valueTokens) :
    IsValue heap c := ⟨h.tree, h.proper, htype⟩

section Edits
variable {heap heap' : Heap} {p c : Node}

theorem edited_pushBack (hp : p < heap.nodes.length) (hc : c < heap.nodes.length)
    (hnew : ¬ heap.HasChild p c) (hnodup : (heap.get p).children.Nodup) :
    Edited heap (heap.pushBack p (some c)) p c ((heap.get p).children ++ [c]) := by
  constructor
  · exact length_pushBack heap p c
  · exact fun n hn => heap.alike_pushBack hn c
  · exact type_pushBack heap p c p
  · rw [children_pushBack heap hp, if_pos rfl]
  · intro n hn _
    rw [parent_pushBack, if_neg fun h => hn h.1.symm]
  · rw [parent_pushBack, if_pos ⟨rfl, hc⟩]
  · intro n hn
    exact (List.mem_append.1 hn).symm.imp_left List.mem_singleton.1
  · rw [List.nodup_append]
    refine ⟨hnodup, List.nodup_singleton c, fun a ha b hb hab => hnew ?_⟩
    rw [← List.mem_singleton.1 hb, ← hab]
    exact ha

theorem edited_insert (hp : p < heap.nodes.length) (hc : c < heap.nodes.length)
    (hnew : ¬ heap.HasChild p c) (hnodup : (heap.get p).children.Nodup) (pos : Nat) :
    Edited heap (heap.insert p pos (some c)) p c (insertAt (heap.get p).children pos [c]) := by
  have hadopted := heap.adopt_adopted p c
  constructor
  · rw [Heap.insert, length_setChildren, hadopted.length]
  · exact fun n hn => (heap.alike_adopt p c n).trans (Heap.alike_setChildren _ hn _)
  · rw [Heap.insert, type_setChildren, hadopted.type]
  · rw [Heap.insert, children_setChildren, if_pos ⟨rfl, Nat.lt_of_lt_of_eq hp hadopted.length.symm⟩]
  · intro n hn _
    rw [Heap.insert, parent_setChildren, hadopted.parent, if_neg fun h => hn h.1.symm]
  · rw [Heap.insert, parent_setChildren, hadopted.parent, if_pos ⟨rfl, hc⟩]
  · intro n hn
    exact (mem_insertAt.1 hn).symm.imp_left List.mem_singleton.1
  · have hperm : (insertAt (heap.get p).children pos [c]).Perm (c :: (heap.get p).children) := by
      rw [insertAt, List.append_assoc, List.singleton_append]
      apply List.perm_middle.trans
      rw [List.take_append_drop]
    rw [hperm.nodup_iff, List.nodup_cons]
    exact ⟨hnew, hnodup⟩

theorem edited_replace (hp : p < heap.nodes.length) (hc : c < heap.nodes.length)
    (hnew : ¬ heap.HasChild p c) (hnodup : (heap.get p).children.Nodup)
    (hslot : (heap.get p).children[i]? = some old) :
    ∃ heap', heap.replace p old (some c) = some heap' ∧
      Edited heap heap' p c ((heap.get p).children.set i c) := by
  obtain ⟨hi, hget⟩ := List.getElem?_eq_some_iff.1 hslot
  have hidx : (heap.get p).children.idxOf old = i := by
    rw [← hget]
    exact hnodup.idxOf_getElem i hi
  obtain ⟨hlen, htype, hkept, -, hparent⟩ := heap.orphan_kept p old
  have hadopted := (heap.orphan p old).adopt_adopted p c
  have hp' : p < ((heap.orphan p old).adopt p c).nodes.length := by
    rw [hadopted.length, hlen]
    exact hp
  have hne : old ≠ c := by
    rintro rfl
    exact hnew (List.mem_of_getElem? hslot)
  have hout : old ∉ (heap.get p).children.set i c := by
    rw [← hidx]
    exact not_mem_set_idxOf hnodup hne
  refine ⟨((heap.orphan p old).adopt p c).setChildren p ((heap.get p).children.set i c), ?_, ?_⟩
  · unfold Heap.replace
    simp only [hidx]
    rw [if_neg (Nat.ne_of_lt hi)]
  constructor
  · rw [length_setChildren, hadopted.length, hlen]
  · intro n hn
    have horphan : Alike heap (heap.orphan p old) n :=
      ⟨htype n, location_orphan heap p old n, hkept n⟩
    exact (horphan.trans (alike_adopt _ p c n)).trans (Heap.alike_setChildren _ hn _)
  · rw [type_setChildren, hadopted.type, htype]
  · rw [children_setChildren, if_pos ⟨rfl, hp'⟩]
  · intro n hn hin
    rw [parent_setChildren, hadopted.parent, if_neg fun h => hn h.1.symm, hparent, if_neg]
    rintro ⟨rfl, -⟩
    rcases hin with hin | hin
    · exact hout hin
    · exact hin (List.mem_of_getElem? hslot)
  · rw [parent_setChildren, hadopted.parent, if_pos ⟨rfl, by rw [hlen]; exact hc⟩]
  · intro n hn
    exact (List.mem_or_eq_of_mem_set hn).symm
  · exact hnodup.set hnew

theorem container_other : ∀ type ∈ [Token.jsonArray, .jsonObject],
    type ∉ [Token.top, .jsonMember] ∧
      type ∈ [Token.top, .jsonObject, .jsonArray, .jsonMember] := by
  decide

/-- An element or a member has been taken out. -/
theorem Removed.grafted (h : Removed heap heap' p m) (hp : Proper heap p)
    (htype : (heap.get p).type ∈ [.jsonArray, .jsonObject]) : Grafted heap heap' p := by
  have hchild : ∀ n, heap'.HasChild p n → heap.HasChild p n := fun n hn => (h.sublist p).subset hn
  obtain ⟨hother, hinner⟩ := container_other _ htype
  constructor
  · exact Nat.le_of_eq h.length.symm
  · exact fun n _ => h.type n
  · intro n _ hn
    rw [h.children, if_neg hn]
  · exact fun n _ _ => h.parent n
  · constructor
    · rw [h.type]
      exact hp.type
    · intro n hn
      rw [h.parent]
      exact hp.parent n (hchild n hn)
    · exact (h.sublist p).nodup hp.nodup
    · intro n hn
      rw [h.type, h.type]
      exact hp.member n (hchild n hn)
    · intro htop
      rw [h.type] at htop
      exact absurd (htop ▸ List.mem_cons_self) hother
    · intro hlist n hn
      rw [h.type] at hlist
      rw [h.type]
      exact hp.values hlist n (hchild n hn)
    · intro hmember
      rw [h.type] at hmember
      exact absurd (hmember ▸ List.mem_cons_of_mem _ List.mem_cons_self) hother
    · intro hleaf
      rw [h.type] at hleaf
      exact absurd hinner hleaf
  · exact fun n hn => .inl (hchild n hn)

end Edits

end Trieste.Json
