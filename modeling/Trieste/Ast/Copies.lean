import Trieste.Ast.Trees

namespace Trieste
set_option autoImplicit true
open Library Relation

namespace Heap

/-- The nodes from a bound on know their parents and are older than their children. -/
structure LinkedFrom (bound : Nat) (h : Heap) : Prop where
  nodup : ∀ p, bound ≤ p → (h.get p).children.Nodup
  parent : ∀ p c, bound ≤ p → h.HasChild p c → (h.get c).parent = some p
  later : ∀ p c, bound ≤ p → h.HasChild p c → p < c

namespace LinkedFrom

theorem length (h : Heap) : LinkedFrom h.nodes.length h := by
  have hnone : ∀ p, h.nodes.length ≤ p → (h.get p).children = [] := by
    intro p hp
    rw [get_of_le h hp]
  refine ⟨fun p hp => ?_, fun p c hp hc => ?_, fun p c hp hc => ?_⟩
  · rw [hnone p hp]
    exact List.nodup_nil
  · rw [HasChild, hnone p hp] at hc
    cases hc
  · rw [HasChild, hnone p hp] at hc
    cases hc

theorem lt (h : LinkedFrom bound heap) (hp : bound ≤ p) (hc : heap.HasChild p c) :
    c < heap.nodes.length := by
  by_contra hle
  have hparent := h.parent p c hp hc
  rw [get_of_le heap (Nat.le_of_not_lt hle)] at hparent
  cases hparent

theorem create (h : LinkedFrom bound heap) (type : Token) (location : Location) :
    LinkedFrom bound (heap.create type location).1 := by
  have hget : ∀ n, n ≠ heap.nodes.length → (heap.create type location).1.get n = heap.get n := by
    intro n hn
    rw [get_create, if_neg hn]
  have hchild : ∀ p c, bound ≤ p → (heap.create type location).1.HasChild p c →
      heap.HasChild p c ∧ c ≠ heap.nodes.length := by
    intro p c hp hc
    rw [HasChild, get_create] at hc
    split at hc
    · cases hc
    · exact ⟨hc, Nat.ne_of_lt (h.lt hp hc)⟩
  refine ⟨fun p hp => ?_, fun p c hp hc => ?_, fun p c hp hc => ?_⟩
  · rw [get_create]
    split
    · exact List.nodup_nil
    · exact h.nodup p hp
  · obtain ⟨hc, hne⟩ := hchild p c hp hc
    rw [hget c hne]
    exact h.parent p c hp hc
  · exact h.later p c hp (hchild p c hp hc).1

theorem pushBack (h : LinkedFrom bound heap) (hp : p < n) (hn : n < heap.nodes.length)
    (hloose : ∀ q, bound ≤ q → ¬ heap.HasChild q n) :
    LinkedFrom bound (heap.pushBack p (some n)) := by
  have hp' := Nat.lt_trans hp hn
  have hchild : ∀ q c, (heap.pushBack p (some n)).HasChild q c →
      heap.HasChild q c ∨ q = p ∧ c = n := by
    intro q c hc
    rw [HasChild, children_pushBack heap hp'] at hc
    split at hc
    · next hq =>
      subst hq
      exact (List.mem_append.1 hc).imp_right fun hc => ⟨rfl, List.mem_singleton.1 hc⟩
    · exact .inl hc
  refine ⟨fun q hq => ?_, fun q c hq hc => ?_, fun q c hq hc => ?_⟩
  · rw [children_pushBack heap hp']
    split
    · next heq =>
      subst heq
      apply List.nodup_append.2
      refine ⟨h.nodup p hq, List.nodup_singleton n, fun a ha b hb hab => ?_⟩
      rw [hab, List.mem_singleton.1 hb] at ha
      exact hloose p hq ha
    · exact h.nodup q hq
  · rw [parent_pushBack]
    rcases hchild q c hc with hc | hc
    · have hne : n ≠ c := by
        rintro rfl
        exact hloose q hq hc
      rw [if_neg fun heq => hne heq.1]
      exact h.parent q c hq hc
    · rw [if_pos ⟨hc.2.symm, hn⟩, hc.1]
  · rcases hchild q c hc with hc | hc
    · exact h.later q c hq hc
    · rw [hc.1, hc.2]
      exact hp

/-- A clone links its nodes. -/
theorem clone (h : LinkedFrom bound heap) (hlen : bound ≤ heap.nodes.length)
    (hc : heap.clone fuel n = some (heap', copy)) :
    LinkedFrom bound heap' ∧ copy < heap'.nodes.length := by
  induction fuel generalizing heap n heap' copy with
  | zero => cases hc
  | succ fuel ih =>
    rw [Heap.clone] at hc
    obtain ⟨heap₁, hfold, he⟩ := Option.map_eq_some_iff.1 hc
    cases he
    have hstart : LinkedFrom bound (heap.create (heap.get n).type (heap.get n).location).1 ∧
        heap.nodes.length <
          (heap.create (heap.get n).type (heap.get n).location).1.nodes.length := by
      refine ⟨h.create _ _, ?_⟩
      rw [length_create]
      exact Nat.lt_succ_self _
    refine foldlM_invariant (I := fun heap₁ => LinkedFrom bound heap₁ ∧
      heap.nodes.length < heap₁.nodes.length) ?_ hstart hfold
    intro heap₁ child heap₂ _ h₁ hstep
    obtain ⟨hlinked, hlt⟩ := h₁
    obtain ⟨⟨heap₃, copy⟩, hclone, he⟩ := Option.bind_eq_some_iff.1 hstep
    cases he
    have hlen₁ := Nat.le_trans hlen (Nat.le_of_lt hlt)
    obtain ⟨hlinked₃, hcopy⟩ := ih hlinked hlen₁ hclone
    obtain ⟨hframe, rfl⟩ := (Above.length heap₁).clone (Nat.le_refl _) hclone
    refine ⟨hlinked₃.pushBack hlt hcopy fun q hq hchild => ?_, ?_⟩
    · -- the nodes before the copy have not got it, and those in it are no older
      rcases Nat.lt_or_ge q heap₁.nodes.length with hold | hnew
      · rw [HasChild, hframe.kept q hold] at hchild
        exact absurd (hlinked.lt hq hchild) (Nat.lt_irrefl _)
      · exact absurd (hlinked₃.later q _ hq hchild) (Nat.not_lt.2 hnew)
    · rw [length_pushBack]
      exact Nat.lt_of_lt_of_le hlt hframe.length

theorem inTree (h : LinkedFrom bound heap) (hp : bound ≤ p) (hn : heap.InTree p n) : p ≤ n := by
  induction hn with
  | refl => exact Nat.le_refl _
  | tail _ hc ih => exact Nat.le_trans ih (Nat.le_of_lt (h.later _ _ (Nat.le_trans hp ih) hc))

end LinkedFrom

/-- A node stands for a tree where its children do. -/
theorem exists_represents (hn : n < heap.nodes.length)
    (hchildren : ∀ c, HasChild heap n c → ∃ t, heap.Represents c t) :
    ∃ t, heap.Represents n t := by
  have hall : ∀ ns : List Node, (∀ c ∈ ns, ∃ t, heap.Represents c t) →
      ∃ ts, heap.RepresentsAll ns ts := by
    intro ns hns
    induction ns with
    | nil => exact ⟨[], by rw [RepresentsAll]; trivial⟩
    | cons c ns ih =>
      obtain ⟨t, ht⟩ := hns c (.head _)
      obtain ⟨ts, hts⟩ := ih fun c hc => hns c (.tail _ hc)
      exact ⟨t :: ts, by rw [RepresentsAll]; exact ⟨ht, hts⟩⟩
  obtain ⟨ts, hts⟩ := hall (heap.get n).children hchildren
  refine ⟨.node (heap.get n).type (heap.get n).location ts, ?_⟩
  rw [Represents]
  exact ⟨hn, rfl, rfl, hts⟩

/-- Two nodes, maybe of two heaps, that stand for one tree. -/
def Twins (h h' : Heap) (n n' : Node) : Prop := ∃ t, h.Represents n t ∧ h'.Represents n' t

theorem Twins.type (h : Twins heap heap' n n') : (heap'.get n').type = (heap.get n).type := by
  obtain ⟨t, hn, hn'⟩ := h
  cases t with
  | node type location trees =>
    rw [Represents] at hn hn'
    rw [hn.2.1, hn'.2.1]

theorem Twins.length (h : Twins heap heap' n n') :
    (heap'.get n').children.length = (heap.get n).children.length := by
  obtain ⟨t, hn, hn'⟩ := h
  cases t with
  | node type location trees =>
    rw [Represents] at hn hn'
    rw [hn.2.2.2.length_eq, hn'.2.2.2.length_eq]

theorem Twins.child (h : Twins heap heap' n n') (hc : heap'.HasChild n' c') :
    ∃ c, heap.HasChild n c ∧ Twins heap heap' c c' := by
  obtain ⟨t, hn, hn'⟩ := h
  cases t with
  | node type location trees =>
    rw [Represents] at hn hn'
    obtain ⟨t, ht, hc'⟩ := hn'.2.2.2.mem hc
    obtain ⟨c, hc, hrep⟩ := hn.2.2.2.exists_mem ht
    exact ⟨c, hc, t, hrep, hc'⟩

theorem Twins.inTree (h : Twins heap heap' n n') (hin : heap'.InTree n' m') :
    ∃ m, heap.InTree n m ∧ Twins heap heap' m m' := by
  induction hin with
  | refl => exact ⟨n, .refl, h⟩
  | tail _ hc ih =>
    obtain ⟨m, hm, htwins⟩ := ih
    obtain ⟨c, hc, htwins⟩ := htwins.child hc
    exact ⟨c, hm.tail hc, htwins⟩

end Heap

end Trieste
