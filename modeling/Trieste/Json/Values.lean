import Trieste.Json.Comparison
import Trieste.Json.Exchange

namespace Trieste.Json
set_option autoImplicit true
open Library Relation Heap

/-- A node as the reader makes them: its children know it and have the types that they may have. -/
structure Proper (h : Heap) (n : Node) : Prop where
  type : (h.get n).type ∈ .top :: .jsonMember :: .jsonKey :: valueTokens
  parent : ∀ c, h.HasChild n c → (h.get c).parent = some n
  nodup : (h.get n).children.Nodup
  member : ∀ c, h.HasChild n c → ((h.get c).type = .jsonMember ↔ (h.get n).type = .jsonObject)
  top : (h.get n).type = .top → (h.get n).children ≠ []
  values : (h.get n).type ∈ [.top, .jsonArray] → ∀ c, h.HasChild n c → (h.get c).type ∈ valueTokens
  pair : (h.get n).type = .jsonMember → ∃ key value, (h.get n).children = [key, value] ∧
    (h.get key).type = .jsonKey ∧ (h.get value).type ∈ valueTokens
  leaf : (h.get n).type ∉ [.top, .jsonObject, .jsonArray, .jsonMember] → (h.get n).children = []

/-- A value, or the top of a document, wherever it is. -/
structure IsValue (h : Heap) (v : Node) : Prop where
  tree : ∃ t, h.Represents v t
  proper : ∀ n, h.InTree v n → Proper h n
  type : (h.get v).type ∈ .top :: valueTokens

theorem value_type : ∀ type ∈ valueTokens, type ≠ .jsonMember ∧ type ≠ .jsonKey ∧ type ≠ .top ∧
    type ≠ .error := by
  decide

theorem Proper.congr {heap heap' : Heap} (h : Proper heap n)
    (htype : (heap'.get n).type = (heap.get n).type)
    (hchildren : (heap'.get n).children = (heap.get n).children)
    (hchild : ∀ c, heap.HasChild n c → (heap'.get c).type = (heap.get c).type ∧
      (heap'.get c).parent = (heap.get c).parent) : Proper heap' n := by
  have hin : ∀ c, heap'.HasChild n c → heap.HasChild n c := by
    intro c hc
    rwa [HasChild, hchildren] at hc
  constructor
  · rw [htype]
    exact h.type
  · intro c hc
    rw [(hchild c (hin c hc)).2]
    exact h.parent c (hin c hc)
  · rw [hchildren]
    exact h.nodup
  · intro c hc
    rw [htype, (hchild c (hin c hc)).1]
    exact h.member c (hin c hc)
  · rw [htype, hchildren]
    exact h.top
  · intro hlist c hc
    rw [htype] at hlist
    rw [(hchild c (hin c hc)).1]
    exact h.values hlist c (hin c hc)
  · intro hmember
    rw [htype] at hmember
    obtain ⟨key, value, hc, hkey, hvalue⟩ := h.pair hmember
    refine ⟨key, value, hchildren.trans hc, ?_, ?_⟩
    · rw [(hchild key (by simp [HasChild, hc])).1]
      exact hkey
    · rw [(hchild value (by simp [HasChild, hc])).1]
      exact hvalue
  · rw [htype, hchildren]
    exact h.leaf

namespace IsValue
variable {heap heap' : Heap} {v : Node}

theorem isDocument (h : IsValue heap v) : IsDocument heap v := by
  constructor
  · exact h.tree
  · intro n c hn
    exact (h.proper n hn).parent c
  · intro n hn
    exact (h.proper n hn).nodup
  · intro n c hn
    exact (h.proper n hn).member c
  · intro m hm hmember
    obtain ⟨key, value, hc, -, -⟩ := (h.proper m hm).pair hmember
    exact ⟨key, value, hc⟩
  · intro n hn herror
    have htype := (h.proper n hn).type
    rw [herror] at htype
    exact absurd htype (by decide)
  · intro hmember
    have htype := h.type
    rw [hmember] at htype
    exact absurd htype (by decide)

theorem sub (h : IsValue heap v) (hn : heap.InTree v n)
    (htype : (heap.get n).type ∈ .top :: valueTokens) : IsValue heap n := by
  obtain ⟨t, ht⟩ := h.tree
  obtain ⟨t', ht', -⟩ := ht.inTree hn
  exact ⟨⟨t', ht'⟩, fun m hm => h.proper m (hn.trans hm), htype⟩

theorem lt (h : IsValue heap v) (hn : heap.InTree v n) : n < heap.nodes.length :=
  h.isDocument.lt hn

/-- A value stays one while its nodes do. -/
theorem kept (h : IsValue heap v) (hlen : heap.nodes.length ≤ heap'.nodes.length)
    (hkept : ∀ n, heap.InTree v n → heap'.get n = heap.get n) : IsValue heap' v := by
  have hin : ∀ n, heap'.InTree v n → heap.InTree v n := by
    intro n hn
    induction hn with
    | refl => exact .refl
    | @tail p c _ hc ih =>
      rw [HasChild, hkept p ih] at hc
      exact ih.tail hc
  constructor
  · obtain ⟨t, ht⟩ := h.tree
    exact ⟨t, ht.alike (I := heap.InTree v) hlen .refl (fun _ _ hp hc => hp.tail hc)
      fun n _ hn => .of_get (hkept n hn)⟩
  · intro n hn
    have hn := hin n hn
    apply (h.proper n hn).congr
    · rw [hkept n hn]
    · rw [hkept n hn]
    · intro c hc
      rw [hkept c (hn.tail hc)]
      exact ⟨rfl, rfl⟩
  · rw [hkept v .refl]
    exact h.type

theorem frame (h : IsValue heap v) (hf : Heap.Frame heap.nodes.length heap heap') :
    IsValue heap' v :=
  h.kept hf.length fun n hn => hf.kept n (h.lt hn)

/-- A value stands for a tree of values. -/
theorem shaped (h : IsValue heap v) (ht : heap.Represents v t) : Shaped t := by
  have hdepth : ∀ depth v t, IsValue heap v → heap.Represents v t → t.depth ≤ depth →
      Shaped t := by
    intro depth
    induction depth with
    | zero =>
      intro v t _ _ hdepth
      cases t with
      | node type location trees =>
        rw [Tree.depth] at hdepth
        exact absurd hdepth (Nat.not_succ_le_zero _)
    | succ depth ih =>
      intro v t h ht hdepth
      cases t with
      | node type l ts =>
        have hbelow : ∀ t ∈ ts, t.depth ≤ depth := fun t => Heap.depth_child_le hdepth
        have hroot := h.type
        have hproper := h.proper v .refl
        rw [Heap.Represents] at ht
        obtain ⟨-, rfl, -, hall⟩ := ht
        by_cases hobject : (heap.get v).type = .jsonObject
        · have hmembers : ∀ m ∈ ts, ∃ l key value, m = .member l key value ∧ Shaped value := by
            intro m hm
            obtain ⟨c, hc, hrep⟩ := hall.exists_mem hm
            have hmember := (hproper.member c hc).2 hobject
            obtain ⟨key, value, hcs, hkey, hvalue⟩ :=
              (h.proper c (.single hc)).pair hmember
            have hkeyc : heap.HasChild c key := by simp [HasChild, hcs]
            have hvaluec : heap.HasChild c value := by simp [HasChild, hcs]
            have hleaf := (h.proper key ((ReflTransGen.single hc).tail hkeyc)).leaf
              (by rw [hkey]; decide)
            obtain ⟨l, k, v, rfl, hv⟩ := member_represents hmember hcs hkey hleaf hrep
            refine ⟨l, k, v, rfl, ih value v ?_ hv ?_⟩
            · exact h.sub ((ReflTransGen.single hc).tail hvaluec) (List.mem_cons_of_mem _ hvalue)
            · exact depth_value_le hdepth hm
          apply Shaped.object hobject
          · intro m hm
            obtain ⟨l, key, value, rfl, -⟩ := hmembers m hm
            exact ⟨l, key, value, rfl⟩
          · intro m hm
            obtain ⟨l, key, value, rfl, hvalue⟩ := hmembers m hm
            exact hvalue
        by_cases hlist : (heap.get v).type ∈ [.top, .jsonArray]
        · apply Shaped.list (by simpa [or_comm] using hlist)
          intro t hm
          obtain ⟨c, hc, hrep⟩ := hall.exists_mem hm
          have hvalue := hproper.values hlist c hc
          exact ih c t (h.sub (.single hc) (List.mem_cons_of_mem _ hvalue)) hrep (hbelow t hm)
        · apply Shaped.atom
          revert hroot hobject hlist
          generalize (heap.get v).type = type
          intro hroot
          revert type
          decide
  exact hdepth t.depth v t h ht (Nat.le_refl _)

end IsValue

end Trieste.Json
