import Mathlib.Data.List.Basic
import Trieste.Ast.Attach
import Trieste.Library.Transition

namespace Trieste
set_option autoImplicit true

namespace Heap
open Library

/-- The nodes from a bound on have their children and parents among themselves. -/
structure Above (bound : Nat) (h : Heap) : Prop where
  children : ∀ n c, bound ≤ n → c ∈ (h.get n).children → bound ≤ c
  parent : ∀ n p, bound ≤ n → (h.get n).parent = some p → bound ≤ p

/-- The nodes below the bound are unchanged, and no node changes its type. -/
structure Frame (bound : Nat) (h h' : Heap) : Prop where
  length : h.nodes.length ≤ h'.nodes.length
  type : ∀ n < h.nodes.length, (h'.get n).type = (h.get n).type
  kept : ∀ n < bound, h'.get n = h.get n
  above : Above bound h'

theorem Above.zero (h : Heap) : Above 0 h :=
  ⟨fun _ _ _ _ => Nat.zero_le _, fun _ _ _ _ => Nat.zero_le _⟩

/-- There are no nodes from the size of the heap on. -/
theorem Above.length (h : Heap) : Above h.nodes.length h := by
  constructor
  · intro n c hn hc
    rw [get_of_le h hn] at hc
    cases hc
  · intro n p hn hp
    rw [get_of_le h hn] at hp
    cases hp

theorem Frame.refl (h : Above bound heap) : Frame bound heap heap :=
  ⟨Nat.le_refl _, fun _ _ => rfl, fun _ _ => rfl, h⟩

theorem Frame.trans (h₁ : Frame bound heap heap₁) (h₂ : Frame bound heap₁ heap₂) :
    Frame bound heap heap₂ where
  length := Nat.le_trans h₁.length h₂.length
  type n hn := (h₂.type n (Nat.lt_of_lt_of_le hn h₁.length)).trans (h₁.type n hn)
  kept n hn := (h₂.kept n hn).trans (h₁.kept n hn)
  above := h₂.above

namespace Above

theorem modify (h : Above bound heap) (hn : bound ≤ n) {f : NodeDef → NodeDef}
    (htype : ∀ d, (f d).type = d.type)
    (hchildren : ∀ c ∈ (f (heap.get n)).children, bound ≤ c)
    (hparent : ∀ p, (f (heap.get n)).parent = some p → bound ≤ p) :
    Frame bound heap (heap.modify n f) where
  length := Nat.le_of_eq (length_modify ..).symm
  type m _ := proj_modify heap n m f htype
  kept m hm := by
    rw [get_modify, if_neg]
    intro he
    exact absurd (he.1 ▸ hn) (Nat.not_le.2 hm)
  above := by
    constructor
    · intro m c hm hc
      rw [get_modify] at hc
      split at hc
      · exact hchildren c hc
      · exact h.children m c hm hc
    · intro m p hm hp
      rw [get_modify] at hp
      split at hp
      · exact hparent p hp
      · exact h.parent m p hm hp

theorem setFlag (h : Above bound heap) (hn : bound ≤ n) (bit : FlagBit) (value : Bool) :
    Frame bound heap (heap.setFlag n bit value) :=
  h.modify hn (fun _ => rfl) (fun c hc => h.children n c hn hc) fun p hp => h.parent n p hn hp

theorem setParent (h : Above bound heap) (hn : bound ≤ n) {p : Option Node}
    (hp : ∀ q, p = some q → bound ≤ q) : Frame bound heap (heap.setParent n p) :=
  h.modify hn (fun _ => rfl) (fun c hc => h.children n c hn hc) hp

theorem setChildren (h : Above bound heap) (hn : bound ≤ n) {children : List Node}
    (hc : ∀ c ∈ children, bound ≤ c) : Frame bound heap (heap.setChildren n children) :=
  h.modify hn (fun _ => rfl) hc fun p hp => h.parent n p hn hp

theorem mark (h : Above bound heap) (bit : FlagBit) (fuel : Nat) {first : Option Node}
    (hfirst : ∀ p, first = some p → bound ≤ p) : Frame bound heap (heap.mark bit fuel first) := by
  induction fuel generalizing heap first with
  | zero => exact .refl h
  | succ fuel ih =>
    cases first with
    | none => exact .refl h
    | some curr =>
      have hcurr := hfirst curr rfl
      rw [Heap.mark]
      split
      · exact .refl h
      · have hset := h.setFlag hcurr bit true
        exact hset.trans (ih hset.above fun p hp => h.parent curr p hcurr hp)

theorem addFlags (h : Above bound heap) (hn : bound ≤ n) :
    Frame bound heap (heap.addFlags n) := by
  have hparent : ∀ p, (heap.get n).parent = some p → bound ≤ p := fun p hp => h.parent n p hn hp
  rw [Heap.addFlags]
  split
  · exact h.mark .error _ hparent
  · split
    · exact h.mark .lift _ hparent
    · exact .refl h

theorem adopt (h : Above bound heap) (hp : bound ≤ p) (hn : bound ≤ n) :
    Frame bound heap (heap.adopt p n) := by
  have hset : Frame bound heap (heap.setParent n (some p)) := by
    apply h.setParent hn
    intro q hq
    cases hq
    exact hp
  exact hset.trans (hset.above.addFlags hn)

theorem pushBack (h : Above bound heap) (hp : bound ≤ p) (hn : bound ≤ n) :
    Frame bound heap (heap.pushBack p (some n)) := by
  have hset : Frame bound heap (heap.setChildren p ((heap.get p).children ++ [n])) := by
    apply h.setChildren hp
    intro c hc
    rcases List.mem_append.1 hc with hc | hc
    · exact h.children p c hp hc
    · cases List.mem_singleton.1 hc
      exact hn
  exact hset.trans (hset.above.adopt hp hn)

theorem insert (h : Above bound heap) (hp : bound ≤ p) (hn : bound ≤ n) (pos : Nat) :
    Frame bound heap (heap.insert p pos (some n)) := by
  have hadopt := h.adopt hp hn
  apply hadopt.trans (hadopt.above.setChildren hp _)
  intro c hc
  rcases mem_insertAt.1 hc with hc | hc
  · exact h.children p c hp hc
  · cases List.mem_singleton.1 hc
    exact hn

theorem orphan (h : Above bound heap) (hn : bound ≤ n) (p : Node) :
    Frame bound heap (heap.orphan p n) := by
  rw [Heap.orphan]
  split
  · apply h.setParent hn
    intro q hq
    cases hq
  · exact .refl h

theorem replace (h : Above bound heap) (hp : bound ≤ p) (hn₁ : bound ≤ n₁)
    {n₂ : Option Node} (hn₂ : ∀ n, n₂ = some n → bound ≤ n)
    (hr : heap.replace p n₁ n₂ = some heap') : Frame bound heap heap' := by
  unfold Heap.replace at hr
  simp only at hr
  split at hr
  · cases hr
  · cases n₂ with
    | none =>
      cases hr
      apply h.setChildren hp
      intro c hc
      exact h.children p c hp (List.mem_of_mem_eraseIdx hc)
    | some n₂ =>
      cases hr
      have hn₂ := hn₂ n₂ rfl
      have horphan := h.orphan hn₁ p
      have hadopt := horphan.above.adopt hp hn₂
      apply (horphan.trans hadopt).trans (hadopt.above.setChildren hp _)
      intro c hc
      rcases List.mem_or_eq_of_mem_set hc with hc | rfl
      · exact h.children p c hp hc
      · exact hn₂

theorem create (h : Above bound heap) (hlen : bound ≤ heap.nodes.length) (type : Token)
    (location : Location) : Frame bound heap (heap.create type location).1 where
  length := by
    rw [length_create]
    exact Nat.le_succ _
  type n hn := by rw [get_create, if_neg (Nat.ne_of_lt hn)]
  kept n hn := by rw [get_create, if_neg (Nat.ne_of_lt (Nat.lt_of_lt_of_le hn hlen))]
  above := by
    constructor
    · intro n c hn hc
      rw [get_create] at hc
      split at hc
      · cases hc
      · exact h.children n c hn hc
    · intro n p hn hp
      rw [get_create] at hp
      split at hp
      · cases hp
      · exact h.parent n p hn hp

/-- A clone is made of new nodes. -/
theorem clone (h : Above bound heap) (hlen : bound ≤ heap.nodes.length)
    (hc : heap.clone fuel n = some (heap', copy)) :
    Frame bound heap heap' ∧ heap.nodes.length = copy := by
  induction fuel generalizing heap n heap' copy with
  | zero => cases hc
  | succ fuel ih =>
    rw [Heap.clone] at hc
    obtain ⟨heap₁, hfold, he⟩ := Option.map_eq_some_iff.1 hc
    cases he
    refine ⟨?_, rfl⟩
    have hcreate := h.create hlen (heap.get n).type (heap.get n).location
    -- each round of the loop clones a child and attaches the copy to the new node
    apply foldlM_invariant (I := Frame bound heap) _ hcreate hfold
    intro heap₁ child heap₂ _ h₁ hstep
    obtain ⟨⟨heap₃, copy⟩, hclone, he⟩ := Option.bind_eq_some_iff.1 hstep
    cases he
    have hlen₁ := Nat.le_trans hlen h₁.length
    obtain ⟨h₃, rfl⟩ := ih h₁.above hlen₁ hclone
    exact (h₁.trans h₃).trans (h₃.above.pushBack hlen hlen₁)

end Above

end Heap

end Trieste
