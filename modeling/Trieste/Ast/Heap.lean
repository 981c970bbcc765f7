import Mathlib.Data.List.Basic
import Trieste.Ast

namespace Trieste
set_option autoImplicit true

namespace Heap

theorem get_modify (h : Heap) (n m : Node) (f : NodeDef → NodeDef) :
    (h.modify n f).get m = if n = m ∧ n < h.nodes.length then f (h.get n) else h.get m := by
  simp only [get, modify, List.getD_eq_getElem?_getD, List.getElem?_modify]
  by_cases hnm : n = m
  · subst m
    by_cases hn : n < h.nodes.length <;> simp [hn]
  · simp [hnm]

@[simp] theorem length_modify (h : Heap) (n : Node) (f : NodeDef → NodeDef) :
    (h.modify n f).nodes.length = h.nodes.length := by
  simp [modify]

theorem get_of_le (h : Heap) (hn : h.nodes.length ≤ n) : h.get n = {} := by
  simp [get, List.getElem?_eq_none hn]

/-- A change that keeps what a projection reads is not seen by it. -/
theorem proj_modify {π : NodeDef → α} (h : Heap) (n m : Node) (f : NodeDef → NodeDef)
    (hf : ∀ d, π (f d) = π d) : π ((h.modify n f).get m) = π (h.get m) := by
  rw [get_modify]
  split
  · next hn => rw [hf, hn.1]
  · rfl

@[simp] theorem parent_setFlag (h : Heap) (n m : Node) (bit : FlagBit) (value : Bool) :
    ((h.setFlag n bit value).get m).parent = (h.get m).parent :=
  proj_modify (π := NodeDef.parent) h n m _ fun _ => rfl

@[simp] theorem type_setFlag (h : Heap) (n m : Node) (bit : FlagBit) (value : Bool) :
    ((h.setFlag n bit value).get m).type = (h.get m).type :=
  proj_modify (π := NodeDef.type) h n m _ fun _ => rfl

@[simp] theorem children_setFlag (h : Heap) (n m : Node) (bit : FlagBit) (value : Bool) :
    ((h.setFlag n bit value).get m).children = (h.get m).children :=
  proj_modify (π := NodeDef.children) h n m _ fun _ => rfl

@[simp] theorem type_setParent (h : Heap) (n m : Node) (p : Option Node) :
    ((h.setParent n p).get m).type = (h.get m).type :=
  proj_modify (π := NodeDef.type) h n m _ fun _ => rfl

@[simp] theorem children_setParent (h : Heap) (n m : Node) (p : Option Node) :
    ((h.setParent n p).get m).children = (h.get m).children :=
  proj_modify (π := NodeDef.children) h n m _ fun _ => rfl

@[simp] theorem flag_setParent (h : Heap) (n m : Node) (p : Option Node) (bit : FlagBit) :
    (h.setParent n p).flag m bit = h.flag m bit :=
  proj_modify (π := fun d => d.flags.get bit) h n m _ fun _ => rfl

@[simp] theorem type_setChildren (h : Heap) (n m : Node) (children : List Node) :
    ((h.setChildren n children).get m).type = (h.get m).type :=
  proj_modify (π := NodeDef.type) h n m _ fun _ => rfl

@[simp] theorem parent_setChildren (h : Heap) (n m : Node) (children : List Node) :
    ((h.setChildren n children).get m).parent = (h.get m).parent :=
  proj_modify (π := NodeDef.parent) h n m _ fun _ => rfl

@[simp] theorem flag_setChildren (h : Heap) (n m : Node) (children : List Node) (bit : FlagBit) :
    (h.setChildren n children).flag m bit = h.flag m bit :=
  proj_modify (π := fun d => d.flags.get bit) h n m _ fun _ => rfl

@[simp] theorem length_setFlag (h : Heap) (n : Node) (bit : FlagBit) (value : Bool) :
    (h.setFlag n bit value).nodes.length = h.nodes.length := length_modify ..

@[simp] theorem length_setParent (h : Heap) (n : Node) (p : Option Node) :
    (h.setParent n p).nodes.length = h.nodes.length := length_modify ..

@[simp] theorem length_setChildren (h : Heap) (n : Node) (children : List Node) :
    (h.setChildren n children).nodes.length = h.nodes.length := length_modify ..

theorem flag_setFlag (h : Heap) (n m : Node) (bit b : FlagBit) (value : Bool) :
    (h.setFlag n bit value).flag m b =
      if n = m ∧ n < h.nodes.length ∧ bit = b then value else h.flag m b := by
  simp only [flag, setFlag, get_modify]
  by_cases hn : n = m ∧ n < h.nodes.length
  · obtain ⟨rfl, hlt⟩ := hn
    cases bit <;> cases b <;> simp [hlt, Flags.put, Flags.get]
  · simp only [← and_assoc, hn, false_and, if_false]

theorem parent_setParent (h : Heap) (n m : Node) (p : Option Node) :
    ((h.setParent n p).get m).parent =
      if n = m ∧ n < h.nodes.length then p else (h.get m).parent := by
  rw [setParent, get_modify]
  split <;> rfl

theorem children_setChildren (h : Heap) (n m : Node) (children : List Node) :
    ((h.setChildren n children).get m).children =
      if n = m ∧ n < h.nodes.length then children else (h.get m).children := by
  rw [setChildren, get_modify]
  split <;> rfl

def unmarked (h : Heap) (bit : FlagBit) : Nat := h.nodes.countP fun d => !d.flags.get bit

theorem unmarked_setFlag (h : Heap) (hn : n < h.nodes.length) (hf : h.flag n bit = false) :
    (h.setFlag n bit true).unmarked bit + 1 = h.unmarked bit := by
  have hf' : h.nodes[n].flags.get bit = false := by
    rw [← hf, flag, get, List.getD_eq_getElem?_getD, List.getElem?_eq_getElem hn, Option.getD_some]
  have hput : (h.nodes[n].flags.put true bit).get bit = true := by cases bit <;> rfl
  have hsplit : h.nodes.countP (fun d => !d.flags.get bit) =
      (h.nodes.take n ++ h.nodes[n] :: h.nodes.drop (n + 1)).countP fun d => !d.flags.get bit := by
    rw [← List.drop_eq_getElem_cons hn, List.take_append_drop]
  rw [unmarked, unmarked, hsplit, setFlag, modify, List.modify_eq_take_cons_drop hn,
    List.countP_append, List.countP_append, List.countP_cons_of_neg, List.countP_cons_of_pos]
  · omega
  · simp [hf']
  · simp [hput]

end Heap

end Trieste
