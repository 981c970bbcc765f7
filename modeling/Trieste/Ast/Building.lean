import Mathlib.Tactic.IntervalCases
import Trieste.Ast.Clone
import Trieste.Library.Transition

namespace Trieste
set_option autoImplicit true
open Library Relation

/-- An operation that builds trees. -/
inductive AstOp
  | create (type : Token) (location : Location)
  | pushFront (p : Node) (n : Option Node)
  | pushBack (p : Node) (n : Option Node)
  | insert (p : Node) (pos : Nat) (n : Option Node)
  | insertRange (p : Node) (pos : Nat) (ns : List Node)
  | insertCopies (p : Node) (pos count : Nat) (type : Token)
  | replace (p n₁ n₂ : Node)
  | erase (p : Node) (first last : Nat)
  | popBack (p : Node)
  | clone (n : Node)

namespace AstOp

def handles : AstOp → List Node
  | create _ _ => []
  | pushFront p n | pushBack p n | insert p _ n => p :: n.toList
  | insertRange p _ ns => p :: ns
  | insertCopies p _ _ _ | erase p _ _ | popBack p => [p]
  | replace p n₁ n₂ => [p, n₁, n₂]
  | clone n => [n]

/-- The states before and after an operation that returns. -/
def Performs (h : Heap) : AstOp → Heap → Prop
  | create type location, h' => h' = (h.create type location).1
  | pushFront p n, h' => h' = h.pushFront p n
  | pushBack p n, h' => h' = h.pushBack p n
  | insert p pos n, h' => h' = h.insert p pos n
  | insertRange p pos ns, h' => h' = h.insertRange p pos ns
  | insertCopies p pos count type, h' => h' = h.insertCopies p pos count type
  | replace p n₁ n₂, h' => h.replace p n₁ (some n₂) = some h'
  | erase p first last, h' => h' = h.erase p first last
  | popBack p, h' => h' = (h.popBack p).1
  | clone n, h' => ∃ fuel copy, h.clone fuel n = some (h', copy)

/-- No node is mixed when the operation, or a clone inside it, attaches it. -/
def Safe (h : Heap) : AstOp → Prop
  | create _ _ | insertCopies _ _ _ _ | erase _ _ _ | popBack _ => True
  | pushFront _ n | pushBack _ n | insert _ _ n => ∀ m, n = some m → ¬ h.Mixed m
  | insertRange p _ ns => h.AttachSafe p ns
  | replace _ _ n₂ => ¬ h.Mixed n₂
  | clone n => ∀ m, h.Ancestor n m → ¬ h.Mixed m

/-- An operation on existing nodes that leaves no node attached at two places. -/
structure Step (h : Heap) (op : AstOp) (h' : Heap) : Prop where
  handles : ∀ n ∈ op.handles, n < h.nodes.length
  performs : op.Performs h h'
  unshared : h'.Unshared

end AstOp

namespace Heap

instance (h : Heap) : Decidable h.Unshared := inferInstanceAs (Decidable (List.Nodup _))

instance (h : Heap) (n : Node) : Decidable (h.Mixed n) := inferInstanceAs (Decidable (_ ∧ _))

/-- Every proper ancestor of an error says so, and every proper ancestor of a lift that is not
inside an error. -/
def FlagsCover (h : Heap) : Prop :=
  ∀ a m, h.Ancestor a m → ((h.get m).type = .error → h.flag a .error = true) ∧
    ((h.get m).type = .lift → (∀ e, h.Ancestor e m → (h.get e).type ≠ .error) →
      h.flag a .lift = true)

/-- A set that holds the parents of a node, and with each node its parents, holds the ancestors of
the node. -/
theorem Ancestor.of_closed {A : Node → Prop} (ha : Ancestor heap e m)
    (hA : ∀ p, p < heap.nodes.length → ∀ c ∈ (heap.get p).children, c = m ∨ A c → A p) : A e := by
  induction ha using TransGen.head_induction_on with
  | single hm => exact hA _ (lt_of_mem_children hm) m hm (.inl rfl)
  | head hc _ ih => exact hA _ (lt_of_mem_children hc) _ hc (.inr ih)

theorem Sound.flagsCover (h : Sound heap) : heap.FlagsCover := by
  refine fun a m ha => ⟨fun ht => ?_, fun ht hout => ?_⟩
  · induction ha using TransGen.head_induction_on with
    | single hm => exact (h.propagated m _ (h.linked _ m hm)).2.1 (.inl ht)
    | head hc _ ih => exact (h.propagated _ _ (h.linked _ _ hc)).2.1 (.inr ih)
  · induction ha using TransGen.head_induction_on with
    | single hm =>
      refine (h.propagated m _ (h.linked _ m hm)).2.2 ?_ (.inl ht)
      rw [ht]
      decide
    | head hc hm ih => exact (h.propagated _ _ (h.linked _ _ hc)).2.2 (hout _ hm) (.inr ih)

theorem Sound.insertRange (h : Sound heap) (hp : p < heap.nodes.length)
    (hns : ∀ n ∈ ns, n < heap.nodes.length) (hsafe : heap.AttachSafe p ns)
    (hu : Unshared (heap.insertRange p pos ns)) : Sound (heap.insertRange p pos ns) := by
  refine ⟨?_, h.linked.attach (heap.insertRange_attached hp hns pos) hu, hu⟩
  unfold Heap.insertRange
  split
  · exact h.propagated
  · exact (h.propagated.foldl_adopt hsafe hp).setChildren p _

theorem insertRange_nodup (hp : p < (nodes heap).length)
    (hns : ∀ n ∈ ns, n < heap.nodes.length) (hu : Unshared (heap.insertRange p pos ns)) :
    ns.Nodup := by
  by_cases hnil : ns = []
  · rw [hnil]
    exact List.nodup_nil
  · obtain ⟨hlen, hchildren, -⟩ := heap.foldl_adopt_kept p ns hns
    have hnodup := hu.nodup p
    rw [Heap.insertRange, if_neg hnil, children_setChildren, hlen, if_pos ⟨rfl, hp⟩] at hnodup
    exact (List.nodup_append.1 (List.nodup_append.1 hnodup).1).2.1

/-- A new node is inserted once, as it would be shared otherwise. -/
theorem Sound.insertCopies (h : Sound heap) (hp : p < heap.nodes.length)
    (hu : Unshared (heap.insertCopies p pos count type)) :
    Sound (heap.insertCopies p pos count type) := by
  by_cases hcount : count = 0
  · rw [Heap.insertCopies, if_pos hcount]
    exact h
  · rw [Heap.insertCopies, if_neg hcount] at hu ⊢
    have hlen : (heap.create type {}).1.nodes.length = heap.nodes.length + 1 := length_create ..
    have hp' : p < (heap.create type {}).1.nodes.length := hlen ▸ Nat.lt_succ_of_lt hp
    have hns : ∀ n ∈ List.replicate count heap.nodes.length,
        n < (heap.create type {}).1.nodes.length := fun n hn => by
      rw [List.eq_of_mem_replicate hn, hlen]
      exact Nat.lt_succ_self _
    have hle := List.nodup_replicate.1 (insertRange_nodup hp' hns hu)
    obtain rfl : count = 1 := by omega
    have hnew : (heap.create type {}).1.flag heap.nodes.length .error = false := by
      rw [flag, get_create, if_pos rfl]
      rfl
    refine (h.create type {}).insertRange hp' hns ⟨fun hmix => ?_, trivial⟩ hu
    rw [hmix.2.1] at hnew
    cases hnew

end Heap

namespace AstOp
open Heap

theorem Step.sound (h : Sound heap) (hs : Step heap op heap') (hsafe : op.Safe heap) :
    Sound heap' := by
  obtain ⟨hhandles, hperforms, hu⟩ := hs
  cases op with
  | create type location =>
    cases hperforms
    exact h.create type location
  | pushFront p n =>
    cases hperforms
    cases n with
    | none => exact h
    | some n =>
      have hp := hhandles p (List.mem_cons_self ..)
      have hn := hhandles n (List.mem_cons_of_mem p (List.mem_singleton_self n))
      refine ⟨(h.propagated.setChildren p _).adopt (fun hm => hsafe n rfl ?_) ?_,
        h.linked.attach (heap.pushFront_attached hp hn) hu, hu⟩
      · rwa [mixed_setChildren] at hm
      · rwa [length_setChildren]
  | pushBack p n =>
    cases hperforms
    cases n with
    | none => exact h
    | some n =>
      have hp := hhandles p (List.mem_cons_self ..)
      have hn := hhandles n (List.mem_cons_of_mem p (List.mem_singleton_self n))
      refine ⟨(h.propagated.setChildren p _).adopt (fun hm => hsafe n rfl ?_) ?_,
        h.linked.attach (heap.pushBack_attached hp hn) hu, hu⟩
      · rwa [mixed_setChildren] at hm
      · rwa [length_setChildren]
  | insert p pos n =>
    cases hperforms
    cases n with
    | none => exact h
    | some n =>
      have hp := hhandles p (List.mem_cons_self ..)
      have hn := hhandles n (List.mem_cons_of_mem p (List.mem_singleton_self n))
      exact ⟨(h.propagated.adopt (hsafe n rfl) hp).setChildren p _,
        h.linked.attach (heap.insert_attached hp hn pos) hu, hu⟩
  | insertRange p pos ns =>
    cases hperforms
    exact h.insertRange (hhandles p (List.mem_cons_self ..))
      (fun n hn => hhandles n (List.mem_cons_of_mem p hn)) hsafe hu
  | insertCopies p pos count type =>
    cases hperforms
    exact h.insertCopies (hhandles p (List.mem_singleton_self p)) hu
  | replace p n₁ n₂ =>
    have hn₂ := hhandles n₂ (by simp [AstOp.handles])
    exact ⟨h.propagated.replace hperforms hsafe,
      h.linked.replace h.unshared hperforms hn₂ hu, hu⟩
  | erase p first last =>
    cases hperforms
    have hd := erase_detached h.unshared p first last
    exact ⟨h.propagated.of_parent hd.length hd.type hd.flag hd.parent, h.linked.detach hd, hu⟩
  | popBack p =>
    cases hperforms
    have hd := popBack_detached h.unshared p
    exact ⟨h.propagated.of_parent hd.length hd.type hd.flag hd.parent, h.linked.detach hd, hu⟩
  | clone n =>
    obtain ⟨fuel, copy, hclone⟩ := hperforms
    exact (h.clone (hhandles n (List.mem_singleton_self n)) hsafe hclone).sound

/-- In every run in which no node that is mixed is attached, the flags cover errors and lifts. -/
theorem flags_cover
    (hrun : Run (fun h op h' => Step h op h' ∧ op.Safe h) {} ops heap) : heap.FlagsCover := by
  have hempty : Sound {} := by
    refine ⟨fun c p hp => ?_, fun p c hc => ?_, List.nodup_nil⟩
    · cases hp
    · exact absurd hc List.not_mem_nil
  exact Sound.flagsCover (hrun.invariant (I := Sound)
    (fun _ _ _ hs hstep => hstep.1.sound hs hstep.2) hempty)

/-- A group with a lift under a top node. -/
theorem flags_cover_lift : ∃ heap, Run (fun h op h' => Step h op h' ∧ op.Safe h) {}
    [.create ⟨"top", 0⟩ {}, .create ⟨"group", 0⟩ {}, .create .lift {}, .pushBack 1 (some 2),
      .pushBack 0 (some 1)] heap ∧ heap.FlagsCover ∧ heap.flag 0 .lift = true := by
  have hrun : ∃ heap, Run (fun h op h' => Step h op h' ∧ op.Safe h) {}
      [.create ⟨"top", 0⟩ {}, .create ⟨"group", 0⟩ {}, .create .lift {}, .pushBack 1 (some 2),
        .pushBack 0 (some 1)] heap ∧ heap.flag 0 .lift = true := by
    refine ⟨_, .cons ⟨⟨by decide, rfl, by decide⟩, trivial⟩
      (.cons ⟨⟨by decide, rfl, by decide⟩, trivial⟩
      (.cons ⟨⟨by decide, rfl, by decide⟩, trivial⟩
      (.cons ⟨⟨by decide, rfl, by decide⟩, ?_⟩
      (.cons ⟨⟨by decide, rfl, by decide⟩, ?_⟩ (.nil _))))), by decide⟩
    · intro m hm
      cases hm
      decide
    · intro m hm
      cases hm
      decide
  obtain ⟨heap, hrun, hflag⟩ := hrun
  exact ⟨heap, hrun, flags_cover hrun, hflag⟩

/-- A group that contains an error when it is attached does not bring the flag for its lift. -/
theorem lift_missed : ∃ ops heap, Run Step {} ops heap ∧ ¬ heap.FlagsCover := by
  refine ⟨[.create ⟨"top", 0⟩ {}, .create ⟨"group", 0⟩ {}, .create .error {}, .create .lift {},
    .pushBack 1 (some 2), .pushBack 1 (some 3), .pushBack 0 (some 1)], _,
    .cons ⟨by decide, rfl, by decide⟩ (.cons ⟨by decide, rfl, by decide⟩
      (.cons ⟨by decide, rfl, by decide⟩ (.cons ⟨by decide, rfl, by decide⟩
      (.cons ⟨by decide, rfl, by decide⟩ (.cons ⟨by decide, rfl, by decide⟩
      (.cons ⟨by decide, rfl, by decide⟩ (.nil _))))))), fun hcover => ?_⟩
  refine absurd ((hcover 0 3 (.head (by decide : 1 ∈ _) (.single (by decide : 3 ∈ _)))).2 rfl
    fun e he => ?_) (by decide)
  have hin := he.of_closed (A := fun e => e = 0 ∨ e = 1) (by decide)
  rcases hin with rfl | rfl <;> decide

end AstOp

end Trieste
