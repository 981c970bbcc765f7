import Trieste.Ast.Building
import Trieste.Ast.Frame

namespace Trieste
set_option autoImplicit true
open Relation

namespace Heap

namespace Above

theorem pushFront (h : Above bound heap) (hp : bound ≤ p) (hn : bound ≤ n) :
    Frame bound heap (heap.pushFront p (some n)) := by
  have hset : Frame bound heap (heap.setChildren p (n :: (heap.get p).children)) := by
    apply h.setChildren hp
    intro c hc
    rcases List.mem_cons.1 hc with rfl | hc
    · exact hn
    · exact h.children p c hp hc
  exact hset.trans (hset.above.adopt hp hn)

theorem adoptAll (h : Above bound heap) (hp : bound ≤ p) {ns : List Node}
    (hns : ∀ n ∈ ns, bound ≤ n) : Frame bound heap (ns.foldl (·.adopt p) heap) := by
  induction ns generalizing heap with
  | nil => exact .refl h
  | cons n ns ih =>
    have hadopt := h.adopt hp (hns n List.mem_cons_self)
    exact hadopt.trans (ih hadopt.above fun m hm => hns m (List.mem_cons_of_mem n hm))

theorem insertRange (h : Above bound heap) (hp : bound ≤ p) {ns : List Node}
    (hns : ∀ n ∈ ns, bound ≤ n) (pos : Nat) : Frame bound heap (heap.insertRange p pos ns) := by
  unfold Heap.insertRange
  split
  · exact .refl h
  · have hadopt := h.adoptAll hp hns
    apply hadopt.trans (hadopt.above.setChildren hp _)
    intro c hc
    rcases mem_insertAt.1 hc with hc | hc
    · exact h.children p c hp hc
    · exact hns c hc

theorem insertCopies (h : Above bound heap) (hlen : bound ≤ heap.nodes.length) (hp : bound ≤ p)
    (pos count : Nat) (type : Token) : Frame bound heap (heap.insertCopies p pos count type) := by
  unfold Heap.insertCopies
  split
  · exact .refl h
  · have hcreate := h.create hlen type {}
    apply hcreate.trans (hcreate.above.insertRange hp _ pos)
    intro n hn
    rw [List.eq_of_mem_replicate hn]
    exact hlen

theorem orphanAll (h : Above bound heap) (p : Node) {ns : List Node}
    (hns : ∀ n ∈ ns, bound ≤ n) : Frame bound heap (ns.foldl (·.orphan p) heap) := by
  induction ns generalizing heap with
  | nil => exact .refl h
  | cons n ns ih =>
    have horphan := h.orphan (hns n List.mem_cons_self) p
    exact horphan.trans (ih horphan.above fun m hm => hns m (List.mem_cons_of_mem n hm))

theorem erase (h : Above bound heap) (hp : bound ≤ p) (first last : Nat) :
    Frame bound heap (heap.erase p first last) := by
  have hchildren : ∀ c ∈ (heap.get p).children, bound ≤ c := fun c hc => h.children p c hp hc
  have hremoved : ∀ n ∈ ((heap.get p).children.take last).drop first, bound ≤ n := fun n hn =>
    hchildren n (List.mem_of_mem_take (List.mem_of_mem_drop hn))
  have horphan := h.orphanAll p hremoved
  apply horphan.trans (horphan.above.setChildren hp _)
  intro c hc
  rcases List.mem_append.1 hc with hc | hc
  · exact hchildren c (List.mem_of_mem_take hc)
  · exact hchildren c (List.mem_of_mem_drop hc)

theorem popBack (h : Above bound heap) (hp : bound ≤ p) :
    Frame bound heap (heap.popBack p).1 := by
  have hchildren : ∀ c ∈ (heap.get p).children, bound ≤ c := fun c hc => h.children p c hp hc
  unfold Heap.popBack
  split
  · exact .refl h
  · next n hlast =>
    have hset := h.setChildren hp fun c hc => hchildren c (List.dropLast_subset _ hc)
    exact hset.trans (hset.above.orphan (hchildren n (List.mem_of_getLast? hlast)) p)

end Above

/-- A node that is linked to the root, or to one made since the heap had the given size. -/
def Held (h : Heap) (root size : Nat) (n : Node) : Prop :=
  ∃ m, (m = root ∨ size ≤ m) ∧
    ReflTransGen (fun a b => b ∈ (h.get a).children ∨ (h.get a).parent = some b) m n

theorem Held.above (hheld : Held heap root size n) (h : Above bound heap) (hroot : bound ≤ root)
    (hsize : bound ≤ size) : bound ≤ n := by
  obtain ⟨m, hm, hpath⟩ := hheld
  have hm : bound ≤ m := by
    rcases hm with rfl | hm
    · exact hroot
    · exact hsize.trans hm
  induction hpath with
  | refl => exact hm
  | @tail a b _ hlink ih =>
    rcases hlink with hchild | hparent
    · exact h.children a b ih hchild
    · exact h.parent a b ih hparent

end Heap

/-- An operation on held nodes. Any node may be copied. -/
structure Edit (root size : Nat) (h h' : Heap) : Prop where
  performs : ∃ op : AstOp, op.Performs h h' ∧
    ((∀ n, op ≠ .clone n) → ∀ n ∈ op.handles, h.Held root size n)

theorem AstOp.frame {op : AstOp} (h : Heap.Above bound heap) (hlen : bound ≤ heap.nodes.length)
    (hhandles : (∀ n, op ≠ .clone n) → ∀ n ∈ op.handles, bound ≤ n)
    (hperforms : op.Performs heap heap') : Heap.Frame bound heap heap' := by
  cases op with
  | create type location =>
    cases hperforms
    exact h.create hlen type location
  | pushFront p n =>
    have hns := hhandles fun _ he => by cases he
    cases hperforms
    cases n with
    | none => exact .refl h
    | some n => exact h.pushFront (hns p List.mem_cons_self) (hns n (by simp [handles]))
  | pushBack p n =>
    have hns := hhandles fun _ he => by cases he
    cases hperforms
    cases n with
    | none => exact .refl h
    | some n => exact h.pushBack (hns p List.mem_cons_self) (hns n (by simp [handles]))
  | insert p pos n =>
    have hns := hhandles fun _ he => by cases he
    cases hperforms
    cases n with
    | none => exact .refl h
    | some n => exact h.insert (hns p List.mem_cons_self) (hns n (by simp [handles])) pos
  | insertRange p pos ns =>
    have hns := hhandles fun _ he => by cases he
    cases hperforms
    apply h.insertRange (hns p List.mem_cons_self)
    intro n hn
    exact hns n (List.mem_cons_of_mem p hn)
  | insertCopies p pos count type =>
    have hns := hhandles fun _ he => by cases he
    cases hperforms
    exact h.insertCopies hlen (hns p List.mem_cons_self) pos count type
  | replace p n₁ n₂ =>
    have hns := hhandles fun _ he => by cases he
    apply h.replace (hns p List.mem_cons_self) (hns n₁ (by simp [handles])) _ hperforms
    intro n hn
    cases hn
    exact hns n₂ (by simp [handles])
  | erase p first last =>
    have hns := hhandles fun _ he => by cases he
    cases hperforms
    exact h.erase (hns p List.mem_cons_self) first last
  | popBack p =>
    have hns := hhandles fun _ he => by cases he
    cases hperforms
    exact h.popBack (hns p List.mem_cons_self)
  | clone n =>
    obtain ⟨fuel, copy, hclone⟩ := hperforms
    exact (h.clone hlen hclone).1

/-- Edits of a tree above a bound keep the nodes below it, however many there are. -/
theorem edits_frame (h : Heap.Above bound heap) (hroot : bound ≤ root) (hsize : bound ≤ size)
    (hlen : bound ≤ heap.nodes.length) (hedits : ReflTransGen (Edit root size) heap heap') :
    Heap.Frame bound heap heap' := by
  induction hedits with
  | refl => exact .refl h
  | tail _ hedit ih =>
    obtain ⟨op, hperforms, hheld⟩ := hedit.performs
    refine ih.trans (op.frame ih.above (hlen.trans ih.length) (fun hop n hn => ?_) hperforms)
    exact (hheld hop n hn).above ih.above hroot hsize

end Trieste
