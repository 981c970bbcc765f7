import Mathlib.Data.List.Perm.Basic
import Trieste.Ast.Building
import Trieste.Ast.Frame

namespace Trieste
set_option autoImplicit true
open Library Relation

namespace Heap

/-- A node has a parent where it is in the child list of that parent, and it is there once. -/
structure Agree (h : Heap) : Prop where
  parent : ∀ n p, (h.get n).parent = some p ↔ n ∈ (h.get p).children
  nodup : ∀ p, (h.get p).children.Nodup

/-- The second node is a child of the first. -/
def HasChild (h : Heap) (p c : Node) : Prop := c ∈ (h.get p).children

/-- The second node is in the tree of the first. -/
def InTree (h : Heap) : Node → Node → Prop := ReflTransGen h.HasChild

def Loose (h : Heap) (n : Node) : Prop := ∀ p, n ∉ (h.get p).children

/-- The states before and after one node gets a new child list, where the parents of the children
that come and go change with it. -/
structure Rewired (h h' : Heap) (p : Node) (cs : List Node) : Prop where
  children : ∀ q, (h'.get q).children = if p = q then cs else (h.get q).children
  parent : ∀ c, (h'.get c).parent = if c ∈ cs then some p
    else if c ∈ (h.get p).children then none else (h.get c).parent

theorem agree_of_nodes {h : Heap}
    (hparent : ∀ n < h.nodes.length, ∀ p ∈ (h.get n).parent, n ∈ (h.get p).children)
    (hchildren : ∀ p < h.nodes.length, ∀ c ∈ (h.get p).children, (h.get c).parent = some p)
    (hnodup : ∀ p < h.nodes.length, (h.get p).children.Nodup) : Agree h := by
  refine ⟨fun n p => ⟨fun hp => ?_, fun hc => hchildren p (lt_of_mem_children hc) n hc⟩, fun p => ?_⟩
  · apply hparent n _ p hp
    by_contra hle
    rw [get_of_le h (Nat.le_of_not_lt hle)] at hp
    cases hp
  · by_cases hp : p < h.nodes.length
    · exact hnodup p hp
    · rw [get_of_le h (Nat.le_of_not_lt hp)]
      exact List.nodup_nil

namespace Agree

theorem unique (h : Agree heap) (hp : c ∈ (heap.get p).children) (hq : c ∈ (heap.get q).children) :
    p = q := by
  have hparent := (h.parent c p).2 hp
  rw [(h.parent c q).2 hq] at hparent
  exact (Option.some.inj hparent).symm

theorem lt (h : Agree heap) (hc : c ∈ (heap.get p).children) : c < heap.nodes.length := by
  by_contra hle
  have hparent := (h.parent c p).2 hc
  rw [get_of_le heap (Nat.le_of_not_lt hle)] at hparent
  cases hparent

theorem loose_iff (h : Agree heap) (n : Node) : heap.Loose n ↔ (heap.get n).parent = none := by
  rw [Option.eq_none_iff_forall_ne_some]
  constructor
  · intro hloose p hp
    exact hloose p ((h.parent n p).1 hp)
  · intro hnone p hp
    exact hnone p ((h.parent n p).2 hp)

theorem rewire (h : Agree heap) (hr : Rewired heap heap' p cs) (hnodup : cs.Nodup)
    (hfresh : ∀ c ∈ cs, c ∈ (heap.get p).children ∨ heap.Loose c) : Agree heap' := by
  constructor
  · intro c q
    rw [hr.parent, hr.children]
    by_cases hc : c ∈ cs
    · rw [if_pos hc]
      by_cases hq : p = q
      · simp [hq, hc]
      · rw [if_neg hq]
        constructor
        · intro he
          exact absurd (Option.some.inj he) hq
        · intro hold
          rcases hfresh c hc with hin | hloose
          · exact absurd (h.unique hin hold) hq
          · exact absurd hold (hloose q)
    · rw [if_neg hc]
      by_cases hin : c ∈ (heap.get p).children
      · rw [if_pos hin]
        constructor
        · intro he
          cases he
        · intro hold
          split at hold
          · exact absurd hold hc
          · next hq => exact absurd (h.unique hin hold) hq
      · rw [if_neg hin, h.parent]
        split
        · next hq =>
          rw [← hq]
          exact iff_of_false hin hc
        · rfl
  · intro q
    rw [hr.children]
    split
    · exact hnodup
    · exact h.nodup q

theorem empty : Agree {} := by
  constructor
  · intro n p
    constructor
    · intro hp
      cases hp
    · intro hn
      cases hn
  · intro p
    exact List.nodup_nil

theorem create (h : Agree heap) (type : Token) (location : Location) :
    Agree (heap.create type location).1 := by
  have hchildren : ∀ q, ((heap.create type location).1.get q).children = (heap.get q).children := by
    intro q
    rw [get_create]
    split
    · next hq => rw [hq, get_of_le heap (Nat.le_refl _)]
    · rfl
  have hparent : ∀ c, ((heap.create type location).1.get c).parent = (heap.get c).parent := by
    intro c
    rw [get_create]
    split
    · next hc => rw [hc, get_of_le heap (Nat.le_refl _)]
    · rfl
  constructor
  · intro c p
    rw [hchildren, hparent]
    exact h.parent c p
  · intro p
    rw [hchildren]
    exact h.nodup p

end Agree

theorem Agree.rewired_attach {heap' : Heap} {ns : List Node} (h : Agree heap)
    (hchildren : ∀ q, (heap'.get q).children = if p = q then cs else (heap.get q).children)
    (hparent : ∀ c, (heap'.get c).parent = if c ∈ ns then some p else (heap.get c).parent)
    (hsplit : ∀ c, c ∈ cs ↔ c ∈ (heap.get p).children ∨ c ∈ ns) :
    Rewired heap heap' p cs := by
  refine ⟨hchildren, fun c => ?_⟩
  rw [hparent]
  by_cases hn : c ∈ ns
  · rw [if_pos hn, if_pos ((hsplit c).2 (.inr hn))]
  · rw [if_neg hn]
    by_cases hc : c ∈ (heap.get p).children
    · rw [if_pos ((hsplit c).2 (.inl hc))]
      exact (h.parent c p).2 hc
    · rw [if_neg fun hin => ((hsplit c).1 hin).elim hc hn, if_neg hc]

theorem Agree.attach {heap' : Heap} {ns : List Node} (h : Agree heap)
    (hchildren : ∀ q, (heap'.get q).children = if p = q then cs else (heap.get q).children)
    (hparent : ∀ c, (heap'.get c).parent = if c ∈ ns then some p else (heap.get c).parent)
    (hperm : cs.Perm ((heap.get p).children ++ ns)) (hns : ns.Nodup)
    (hloose : ∀ n ∈ ns, heap.Loose n) : Agree heap' := by
  have hsplit : ∀ c, c ∈ cs ↔ c ∈ (heap.get p).children ∨ c ∈ ns := by
    intro c
    rw [hperm.mem_iff, List.mem_append]
  apply h.rewire (h.rewired_attach hchildren hparent hsplit)
  · apply hperm.nodup_iff.2
    refine List.nodup_append.2 ⟨h.nodup p, hns, ?_⟩
    intro c hc n hn he
    exact hloose n hn p (he ▸ hc)
  · intro c hc
    exact ((hsplit c).1 hc).imp_right (hloose c)

theorem perm_insertAt (children : List Node) (pos : Nat) (ns : List Node) :
    (insertAt children pos ns).Perm (children ++ ns) := by
  have hswap : (ns ++ children.drop pos).Perm (children.drop pos ++ ns) := List.perm_append_comm
  have happend := hswap.append_left (children.take pos)
  rwa [← List.append_assoc, ← List.append_assoc, List.take_append_drop] at happend

theorem Agree.pushFront (h : Agree heap) (hp : p < heap.nodes.length) (hn : n < heap.nodes.length)
    (hloose : heap.Loose n) : Agree (heap.pushFront p (some n)) := by
  have ha := (heap.setChildren p (n :: (heap.get p).children)).adopt_adopted p n
  have hperm : (n :: (heap.get p).children).Perm ((heap.get p).children ++ [n]) :=
    (List.perm_append_singleton n _).symm
  apply h.attach _ _ hperm (List.nodup_singleton n)
  · intro m hm
    rw [List.mem_singleton.1 hm]
    exact hloose
  · intro q
    rw [Heap.pushFront, ha.children, children_setChildren]
    simp only [hp, and_true]
  · intro c
    rw [Heap.pushFront, ha.parent, parent_setChildren, length_setChildren]
    simp only [hn, and_true, List.mem_singleton, eq_comm]

theorem Agree.pushBack (h : Agree heap) (hp : p < heap.nodes.length) (hn : n < heap.nodes.length)
    (hloose : heap.Loose n) : Agree (heap.pushBack p (some n)) := by
  have ha := (heap.setChildren p ((heap.get p).children ++ [n])).adopt_adopted p n
  apply h.attach _ _ (.refl ((heap.get p).children ++ [n])) (List.nodup_singleton n)
  · intro m hm
    rw [List.mem_singleton.1 hm]
    exact hloose
  · intro q
    rw [Heap.pushBack, ha.children, children_setChildren]
    simp only [hp, and_true]
  · intro c
    rw [Heap.pushBack, ha.parent, parent_setChildren, length_setChildren]
    simp only [hn, and_true, List.mem_singleton, eq_comm]

theorem Agree.insertRange (h : Agree heap) (hp : p < heap.nodes.length)
    (hlt : ∀ n ∈ ns, n < heap.nodes.length) (hns : ns.Nodup) (hloose : ∀ n ∈ ns, heap.Loose n)
    (pos : Nat) : Agree (heap.insertRange p pos ns) := by
  obtain ⟨hlen, hchildren, hparent⟩ := heap.foldl_adopt_kept p ns hlt
  unfold Heap.insertRange
  split
  · exact h
  · apply h.attach _ _ (perm_insertAt (heap.get p).children pos ns) hns hloose
    · intro q
      rw [children_setChildren, hlen, hchildren]
      simp only [hp, and_true]
    · intro c
      rw [parent_setChildren, hparent]

theorem Agree.insert (h : Agree heap) (hp : p < heap.nodes.length) (hn : n < heap.nodes.length)
    (hloose : heap.Loose n) (pos : Nat) : Agree (heap.insert p pos (some n)) := by
  have hone : heap.insert p pos (some n) = heap.insertRange p pos [n] := by
    rw [Heap.insertRange, if_neg (List.cons_ne_nil n [])]
    rfl
  rw [hone]
  apply h.insertRange hp _ (List.nodup_singleton n)
  · intro m hm
    rw [List.mem_singleton.1 hm]
    exact hloose
  · intro m hm
    rw [List.mem_singleton.1 hm]
    exact hn

theorem Agree.loose_create (h : Agree heap) (type : Token) (location : Location) :
    (heap.create type location).1.Loose heap.nodes.length := by
  apply ((h.create type location).loose_iff _).2
  rw [get_create, if_pos rfl]

theorem Agree.insertCopies (h : Agree heap) (hp : p < heap.nodes.length) (hcount : count ≤ 1)
    (pos : Nat) (type : Token) : Agree (heap.insertCopies p pos count type) := by
  unfold Heap.insertCopies
  split
  · exact h
  · have hnodup : (List.replicate count heap.nodes.length).Nodup := List.nodup_replicate.2 hcount
    apply (h.create type {}).insertRange _ _ hnodup
    · intro n hn
      rw [List.eq_of_mem_replicate hn]
      exact h.loose_create type {}
    · rw [length_create]
      exact Nat.lt_succ_of_lt hp
    · intro n hn
      rw [List.eq_of_mem_replicate hn, length_create]
      exact Nat.lt_succ_self _

theorem Agree.detach {heap' : Heap} {cs : List Node} (h : Agree heap)
    (hchildren : ∀ q, (heap'.get q).children = if p = q then cs else (heap.get q).children)
    (hparent : ∀ c, (heap'.get c).parent =
      if c ∈ (heap.get p).children ∧ c ∉ cs then none else (heap.get c).parent)
    (hsub : cs.Sublist (heap.get p).children) : Agree heap' := by
  have hr : Rewired heap heap' p cs := by
    refine ⟨hchildren, fun c => ?_⟩
    rw [hparent]
    by_cases hc : c ∈ cs
    · rw [if_neg fun hout => hout.2 hc, if_pos hc]
      exact (h.parent c p).2 (hsub.subset hc)
    · simp only [hc, not_false_eq_true, and_true, if_false]
  apply h.rewire hr (hsub.nodup (h.nodup p))
  intro c hc
  exact .inl (hsub.subset hc)

theorem foldl_orphan_parent (h : Heap) (p : Node) (ns : List Node) (m : Node) :
    ((ns.foldl (·.orphan p) h).get m).parent =
      if m ∈ ns ∧ (h.get m).parent = some p then none else (h.get m).parent := by
  induction ns generalizing h with
  | nil => simp
  | cons n ns ih =>
    obtain ⟨-, -, -, -, hparent⟩ := h.orphan_kept p n
    simp only [List.foldl_cons, ih, hparent, List.mem_cons]
    by_cases hn : n = m
    · subst hn
      by_cases hp : (h.get n).parent = some p
      · simp [hp]
      · simp [hp]
    · simp only [hn, false_and, if_false, Ne.symm hn, false_or]

theorem Agree.erase (h : Agree heap) (hle : first ≤ last) (p : Node) :
    Agree (heap.erase p first last) := by
  obtain ⟨hlen, -, hchildren, -, -⟩ :=
    heap.foldl_orphan_kept p (((heap.get p).children.take last).drop first)
  have hparent := heap.foldl_orphan_parent p (((heap.get p).children.take last).drop first)
  have htake : (heap.get p).children.take first = ((heap.get p).children.take last).take first := by
    rw [List.take_take, Nat.min_eq_left hle]
  have hsplit : (heap.get p).children = (heap.get p).children.take first ++
      (((heap.get p).children.take last).drop first ++ (heap.get p).children.drop last) := by
    rw [htake, ← List.append_assoc, List.take_append_drop, List.take_append_drop]
  have hsub : ((heap.get p).children.take first ++ (heap.get p).children.drop last).Sublist
      (heap.get p).children := by
    conv => rhs; rw [hsplit]
    exact (List.Sublist.refl _).append (List.sublist_append_right _ _)
  apply h.detach _ _ hsub
  · intro q
    by_cases hp : p < heap.nodes.length
    · simp only [Heap.erase, children_setChildren, hlen, hchildren, hp, and_true]
    · simp only [Heap.erase, children_setChildren, hlen, hchildren, hp, and_false, if_false]
      split
      · next hq =>
        rw [← hq, get_of_le heap (Nat.le_of_not_lt hp)]
        change ([] : List Node) = ([] : List Node).take first ++ ([] : List Node).drop last
        rw [List.take_nil, List.drop_nil]
        rfl
      · rfl
  · intro c
    simp only [Heap.erase, parent_setChildren, hparent]
    by_cases hc : c ∈ ((heap.get p).children.take last).drop first
    · have hin := List.mem_of_mem_take (List.mem_of_mem_drop hc)
      rw [if_pos ⟨hc, (h.parent c p).2 hin⟩, if_pos ⟨hin, not_mem_rest (h.nodup p) hc⟩]
    · rw [if_neg fun hm => hc hm.1, if_neg]
      intro hout
      obtain ⟨hin, hout⟩ := hout
      rw [hsplit, List.mem_append, List.mem_append] at hin
      rcases hin with hin | hin | hin
      · exact hout (List.mem_append_left _ hin)
      · exact hc hin
      · exact hout (List.mem_append_right _ hin)

theorem Agree.popBack (h : Agree heap) (p : Node) : Agree (heap.popBack p).1 := by
  unfold Heap.popBack
  split
  · exact h
  · next n hlast =>
    have hne : (heap.get p).children ≠ [] := by
      intro hnil
      rw [hnil] at hlast
      cases hlast
    have hsplit := List.dropLast_append_getLast hne
    rw [List.getLast?_eq_getLast_of_ne_nil hne] at hlast
    rw [Option.some.inj hlast] at hsplit
    have hin : n ∈ (heap.get p).children := hsplit ▸ List.mem_append_right _ (List.mem_singleton_self n)
    have hp := lt_of_mem_children hin
    have hout : n ∉ (heap.get p).children.dropLast := by
      have hnodup := h.nodup p
      rw [← hsplit] at hnodup
      intro hm
      exact (List.nodup_append.1 hnodup).2.2 n hm n (List.mem_singleton_self n) rfl
    obtain ⟨-, -, hchildren, -, hparent⟩ :=
      (heap.setChildren p (heap.get p).children.dropLast).orphan_kept p n
    apply h.detach _ _ (List.dropLast_sublist (heap.get p).children)
    · intro q
      rw [hchildren, children_setChildren]
      simp only [hp, and_true]
    · intro c
      rw [hparent, parent_setChildren, parent_setChildren]
      by_cases hc : n = c
      · subst hc
        rw [if_pos ⟨rfl, (h.parent n p).2 hin⟩, if_pos ⟨hin, hout⟩]
      · rw [if_neg fun hm => hc hm.1, if_neg]
        intro hm
        obtain ⟨hold, hgone⟩ := hm
        rw [← hsplit, List.mem_append, List.mem_singleton] at hold
        rcases hold with hold | hold
        · exact hgone hold
        · exact hc hold.symm

theorem Agree.replace (h : Agree heap) (hn₂ : n₂ < heap.nodes.length) (hloose : heap.Loose n₂)
    (hr : heap.replace p n₁ (some n₂) = some heap') : Agree heap' := by
  obtain ⟨hin, rfl⟩ := replace_eq_some hr
  obtain ⟨hlen, -, hchildren, -, hparent⟩ := heap.orphan_kept p n₁
  have ha := (heap.orphan p n₁).adopt_adopted p n₂
  have hp := lt_of_mem_children hin
  have hidx := List.idxOf_lt_length_of_mem hin
  have hperm : ((heap.get p).children.set ((heap.get p).children.idxOf n₁) n₂).Perm
      (n₂ :: (heap.get p).children.erase n₁) := by
    rw [← List.eraseIdx_idxOf_eq_erase]
    exact List.set_perm_cons_eraseIdx hidx n₂
  have hmem : ∀ c, c ∈ (heap.get p).children.set ((heap.get p).children.idxOf n₁) n₂ ↔
      c = n₂ ∨ c ≠ n₁ ∧ c ∈ (heap.get p).children := by
    intro c
    rw [hperm.mem_iff, List.mem_cons, (h.nodup p).mem_erase_iff]
  have hrewired : Rewired heap (((heap.orphan p n₁).adopt p n₂).setChildren p
      ((heap.get p).children.set ((heap.get p).children.idxOf n₁) n₂)) p
      ((heap.get p).children.set ((heap.get p).children.idxOf n₁) n₂) := by
    constructor
    · intro q
      simp only [children_setChildren, ha.length, hlen, hp, and_true, ha.children, hchildren]
    · intro c
      rw [parent_setChildren, ha.parent, hlen, hparent]
      by_cases hc₂ : n₂ = c
      · rw [if_pos ⟨hc₂, hn₂⟩, if_pos ((hmem c).2 (.inl hc₂.symm))]
      · rw [if_neg fun hm => hc₂ hm.1]
        by_cases hc : c ∈ (heap.get p).children
        · have hcp := (h.parent c p).2 hc
          by_cases hc₁ : n₁ = c
          · subst hc₁
            rw [if_pos ⟨rfl, hcp⟩, if_neg, if_pos hc]
            intro hm
            rcases (hmem n₁).1 hm with he | he
            · exact hc₂ he.symm
            · exact he.1 rfl
          · rw [if_neg fun hm => hc₁ hm.1, if_pos ((hmem c).2 (.inr ⟨Ne.symm hc₁, hc⟩)), hcp]
        · have hc₁ : n₁ ≠ c := fun he => hc (he ▸ hin)
          rw [if_neg fun hm => hc₁ hm.1, if_neg, if_neg hc]
          intro hm
          rcases (hmem c).1 hm with he | he
          · exact hc₂ he.symm
          · exact hc he.2
  apply h.rewire hrewired
  · apply hperm.nodup_iff.2
    refine List.nodup_cons.2 ⟨fun hm => hloose p (List.mem_of_mem_erase hm), (h.nodup p).erase n₁⟩
  · intro c hc
    rcases (hmem c).1 hc with rfl | he
    · exact .inr hloose
    · exact .inl he.2

theorem children_pushBack (h : Heap) (hp : p < h.nodes.length) (n q : Node) :
    ((h.pushBack p (some n)).get q).children =
      if p = q then (h.get p).children ++ [n] else (h.get q).children := by
  have ha := (h.setChildren p ((h.get p).children ++ [n])).adopt_adopted p n
  rw [Heap.pushBack, ha.children, children_setChildren]
  simp only [hp, and_true]

theorem parent_pushBack (h : Heap) (p n c : Node) :
    ((h.pushBack p (some n)).get c).parent =
      if n = c ∧ n < h.nodes.length then some p else (h.get c).parent := by
  have ha := (h.setChildren p ((h.get p).children ++ [n])).adopt_adopted p n
  rw [Heap.pushBack, ha.parent, parent_setChildren, length_setChildren]

/-- A clone is a tree of new nodes with a root that is in no child list, and keeps what is kept
by creating nodes and by attaching such a root. -/
theorem clone_invariant {I : Heap → Prop} (hcreate : ∀ h type location, I h → I (h.create type location).1)
    (hloose : ∀ h p c, I h → c ∈ (h.get p).children → c < h.nodes.length)
    (hpush : ∀ h p n, I h → p < h.nodes.length → n < h.nodes.length → h.Loose n →
      I (h.pushBack p (some n)))
    (h : I heap) (hc : heap.clone fuel n = some (heap', copy)) :
    I heap' ∧ heap'.Loose copy ∧ copy < heap'.nodes.length := by
  induction fuel generalizing heap n heap' copy with
  | zero => cases hc
  | succ fuel ih =>
    rw [Heap.clone] at hc
    obtain ⟨heap₁, hfold, he⟩ := Option.map_eq_some_iff.1 hc
    cases he
    have hstart : I (heap.create (heap.get n).type (heap.get n).location).1 ∧
        (heap.create (heap.get n).type (heap.get n).location).1.Loose heap.nodes.length ∧
        heap.nodes.length < (heap.create (heap.get n).type (heap.get n).location).1.nodes.length := by
      refine ⟨hcreate _ _ _ h, fun p hp => ?_, ?_⟩
      · rw [get_create] at hp
        split at hp
        · cases hp
        · exact absurd (hloose heap p _ h hp) (Nat.lt_irrefl _)
      · rw [length_create]
        exact Nat.lt_succ_self _
    -- each round of the loop attaches a copy, and leaves the new node at the root
    refine foldlM_invariant (I := fun heap₁ => I heap₁ ∧ heap₁.Loose heap.nodes.length ∧
      heap.nodes.length < heap₁.nodes.length) ?_ hstart hfold
    intro heap₁ child heap₂ _ h₁ hstep
    obtain ⟨hI, hroot, hlt⟩ := h₁
    obtain ⟨⟨heap₃, copy⟩, hclone, he⟩ := Option.bind_eq_some_iff.1 hstep
    cases he
    obtain ⟨hI₃, hcopy, hcopylt⟩ := ih hI hclone
    obtain ⟨hframe, rfl⟩ := (Above.length heap₁).clone (Nat.le_refl _) hclone
    have hlt₃ := Nat.lt_of_lt_of_le hlt hframe.length
    refine ⟨hpush _ _ _ hI₃ hlt₃ hcopylt hcopy, fun q hq => ?_, ?_⟩
    · have hroot₃ : heap₃.Loose heap.nodes.length := by
        intro q hq
        rcases Nat.lt_or_ge q heap₁.nodes.length with hold | hnew
        · rw [hframe.kept q hold] at hq
          exact hroot q hq
        · exact Nat.not_le.2 hlt (hframe.above.children q _ hnew hq)
      rw [children_pushBack heap₃ hlt₃] at hq
      split at hq
      · rcases List.mem_append.1 hq with hq | hq
        · exact hroot₃ _ hq
        · exact Nat.ne_of_lt hlt (List.mem_singleton.1 hq)
      · exact hroot₃ q hq
    · rw [length_pushBack]
      exact hlt₃

theorem Agree.clone (h : Agree heap) (hc : heap.clone fuel n = some (heap', copy)) :
    Agree heap' ∧ heap'.Loose copy ∧ copy < heap'.nodes.length := by
  apply clone_invariant _ _ _ h hc
  · intro h type location hagree
    exact hagree.create type location
  · intro h p c hagree hc
    exact hagree.lt hc
  · intro h p n hagree hp hn hloose
    exact hagree.pushBack hp hn hloose

end Heap

/-- An operation of `NodeDef` that changes children. -/
inductive NodeOp
  | build (op : AstOp)
  | remove (p n : Node)
  | replaceAt (p : Node) (index : Nat) (n : Option Node)

namespace NodeOp

/-- The states before and after an operation that returns. -/
def Performs (h : Heap) : NodeOp → Heap → Prop
  | build op, h' => op.Performs h h'
  | remove p n, h' => h.replace p n none = some h'
  | replaceAt p index n, h' =>
    (((h.get p).children[index]?).bind fun n₁ => h.replace p n₁ n) = some h'

def target : NodeOp → Option Node
  | build (.pushFront p _) | build (.pushBack p _) | build (.insert p _ _)
  | build (.insertRange p _ _) | build (.insertCopies p _ _ _) => some p
  | _ => none

/-- The nodes that an operation is given to attach. -/
def attached : NodeOp → List Node
  | build (.pushFront _ n) | build (.pushBack _ n) | build (.insert _ _ n)
  | replaceAt _ _ n => n.toList
  | build (.insertRange _ _ ns) => ns
  | build (.replace _ _ n₂) => [n₂]
  | _ => []

def Ordered : NodeOp → Prop
  | build (.erase _ first last) => first ≤ last
  | _ => True

/-- An operation on existing nodes that attaches only nodes that are in no child list, each
once. -/
structure Step (h : Heap) (op : NodeOp) (h' : Heap) : Prop where
  performs : op.Performs h h'
  target : ∀ p ∈ op.target, p < h.nodes.length
  existing : ∀ n ∈ op.attached, n < h.nodes.length
  loose : ∀ n ∈ op.attached, h.Loose n
  once : op.attached.Nodup
  ordered : op.Ordered

/-- No node is replaced by nothing, and a token is not inserted more than once. -/
def Tidy : NodeOp → Prop
  | remove _ _ | replaceAt _ _ none => False
  | build (.insertCopies _ _ count _) => count ≤ 1
  | _ => True

theorem Step.agree (h : Heap.Agree heap) (hs : Step heap op heap') (htidy : op.Tidy) :
    Heap.Agree heap' := by
  obtain ⟨hperforms, htarget, hexisting, hloose, honce, hordered⟩ := hs
  cases op with
  | remove p n => exact absurd htidy id
  | replaceAt p index n =>
    cases n with
    | none => exact absurd htidy id
    | some n =>
      obtain ⟨n₁, -, hreplace⟩ := Option.bind_eq_some_iff.1 hperforms
      have hn : n ∈ [n] := List.mem_singleton_self n
      exact h.replace (hexisting n hn) (hloose n hn) hreplace
  | build op =>
    cases op with
    | create type location =>
      cases hperforms
      exact h.create type location
    | pushFront p n =>
      cases hperforms
      cases n with
      | none => exact h
      | some n =>
        have hn : n ∈ [n] := List.mem_singleton_self n
        exact h.pushFront (htarget p rfl) (hexisting n hn) (hloose n hn)
    | pushBack p n =>
      cases hperforms
      cases n with
      | none => exact h
      | some n =>
        have hn : n ∈ [n] := List.mem_singleton_self n
        exact h.pushBack (htarget p rfl) (hexisting n hn) (hloose n hn)
    | insert p pos n =>
      cases hperforms
      cases n with
      | none => exact h
      | some n =>
        have hn : n ∈ [n] := List.mem_singleton_self n
        exact h.insert (htarget p rfl) (hexisting n hn) (hloose n hn) pos
    | insertRange p pos ns =>
      cases hperforms
      exact h.insertRange (htarget p rfl) hexisting honce hloose pos
    | insertCopies p pos count type =>
      cases hperforms
      exact h.insertCopies (htarget p rfl) htidy pos type
    | replace p n₁ n₂ =>
      have hn : n₂ ∈ [n₂] := List.mem_singleton_self n₂
      exact h.replace (hexisting n₂ hn) (hloose n₂ hn) hperforms
    | erase p first last =>
      cases hperforms
      exact h.erase hordered p
    | popBack p =>
      cases hperforms
      exact h.popBack p
    | clone n =>
      obtain ⟨fuel, copy, hclone⟩ := hperforms
      exact (h.clone hclone).1

end NodeOp

end Trieste
