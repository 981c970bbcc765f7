import Trieste.Json.Editing
import Trieste.Json.ReplaceLaws

namespace Trieste.Json
set_option autoImplicit true
open Library Relation Heap

/-- The keys come to an array with an empty one, which has no first character to be read. -/
inductive EmptyAt (s : Store) : Node → List Location → Prop
  | here (ht : (s.heap.get current).type = .jsonArray) (hkey : key.view.toList = []) :
      EmptyAt s current (key :: keys)
  | later (hleads : Leads s current key next) (h : EmptyAt s next keys) :
      EmptyAt s current (key :: keys)

/-- A member that a symbol table finds. It may have been taken out of its object. -/
structure Found (h : Heap) (R : Node → Prop) (m : Node) : Prop where
  proper : Proper h m
  type : (h.get m).type = .jsonMember
  below : ∀ c, h.HasChild m c → c < h.nodes.length
  value : ∀ v, Store.memberValue h m = some v → R v

/-- The values that pointers lead to from one of them. -/
structure Walkable (s : Store) (R : Node → Prop) : Prop where
  value : ∀ n, R n → IsValue s.heap n ∧ (s.heap.get n).type ∈ valueTokens
  element : ∀ n c, R n → (s.heap.get n).type = .jsonArray → s.heap.HasChild n c → R c
  member : ∀ n key m, R n → (s.heap.get n).type = .jsonObject → m ∈ s.lookdown n key →
    Found s.heap R m

theorem Walkable.leads (hw : Walkable s R) (hn : R n) (hleads : Leads s n key next) : R next := by
  cases hleads with
  | member m rest htype hfound hvalue =>
    exact (hw.member n key m hn htype (hfound ▸ .head _)).value next hvalue
  | element i htype _ hchild => exact hw.element n next hn htype (List.mem_of_getElem? hchild)

/-- The call returns an error, or a value of one of the types in a heap that keeps all values. -/
def Outcome (types : List Token) (s : Store) (r : Option (Store × Node)) : Prop :=
  ∃ heap result, r = some ({ s with heap }, result) ∧
    ((heap.get result).type = .error ∨ IsValue heap result ∧ (heap.get result).type ∈ types ∧
      ∀ v, IsValue s.heap v → IsValue heap v ∧ (heap.get v).type = (s.heap.get v).type)

/-- The call returns in this case, and throws in any other. -/
def Returns (ok : Prop) (types : List Token) (s : Store) (r : Option (Store × Node)) : Prop :=
  (ok → Outcome types s r) ∧ (¬ ok → r = none)

section Results
variable {types : List Token} {s : Store} {r : Option (Store × Node)}

theorem Returns.congr (h : Returns ok types s r) (hok : ok' ↔ ok) : Returns ok' types s r :=
  ⟨fun h' => h.1 (hok.1 h'), fun h' => h.2 fun hnot => h' (hok.2 hnot)⟩

theorem Outcome.returns (h : Outcome types s r) (hok : ok) : Returns ok types s r :=
  ⟨fun _ => h, fun hnot => absurd hok hnot⟩

theorem Returns.throws (hnot : ¬ ok) (hr : r = none) : Returns ok types s r :=
  ⟨fun hok => absurd hok hnot, fun _ => hr⟩

theorem Outcome.err (types : List Token) (ht : ∃ t, s.heap.Represents node t) (msg : String) :
    Outcome types s (s.err node msg) := by
  obtain ⟨t, ht⟩ := ht
  obtain ⟨heap, e, he, -, htype⟩ := err_total ht msg
  exact ⟨heap, e, by rw [Store.err, he]; rfl, .inl htype⟩

theorem Outcome.errAt (types : List Token) (s : Store) (type : Token) (location : Location)
    (msg : String) : Outcome types s (s.errAt type location msg) := by
  obtain ⟨heap, e, he, -, htype⟩ := errAt_total s.heap type location msg
  exact ⟨heap, e, by rw [Store.errAt, he]; rfl, .inl htype⟩

theorem Outcome.value (h : IsValue s.heap v) (htype : (s.heap.get v).type ∈ types) :
    Outcome types s (some (s, v)) :=
  ⟨s.heap, v, rfl, .inr ⟨h, htype, fun _ hv => ⟨hv, rfl⟩⟩⟩

/-- A value is returned after an edit. -/
theorem Outcome.grafted {heap : Heap} (hg : Grafted s.heap heap p) (hp : Proper s.heap p)
    (h : IsValue s.heap v) (htype : (s.heap.get v).type ∈ types) :
    Outcome types s (some ({ s with heap }, v)) := by
  refine ⟨heap, v, rfl, .inr ⟨h.grafted hg hp, ?_, fun v hv => ?_⟩⟩
  · rw [hg.type v (h.lt .refl)]
    exact htype
  · exact ⟨hv.grafted hg hp, hg.type v (hv.lt .refl)⟩

/-- The call goes on in a heap that keeps all values. -/
theorem Outcome.mono {heap : Heap} (h : Outcome types { s with heap } r)
    (hkept : ∀ v, IsValue s.heap v → IsValue heap v ∧ (heap.get v).type = (s.heap.get v).type) :
    Outcome types s r := by
  obtain ⟨heap', result, rfl, he | ⟨hv, htype, hkept'⟩⟩ := h
  · exact ⟨heap', result, rfl, .inl he⟩
  · refine ⟨heap', result, rfl, .inr ⟨hv, htype, fun v h => ?_⟩⟩
    obtain ⟨hv, htype⟩ := hkept v h
    obtain ⟨hv', htype'⟩ := hkept' v hv
    exact ⟨hv', htype'.trans htype⟩

theorem Returns.mono {heap : Heap} (h : Returns ok types { s with heap } r)
    (hkept : ∀ v, IsValue s.heap v → IsValue heap v ∧ (heap.get v).type = (s.heap.get v).type) :
    Returns ok types s r :=
  ⟨fun hok => (h.1 hok).mono hkept, h.2⟩

theorem Returns.frame {heap : Heap} (h : Returns ok types { s with heap } r)
    (hf : Heap.Frame s.heap.nodes.length s.heap heap) : Returns ok types s r :=
  h.mono fun v hv => ⟨hv.frame hf, hf.type v (hv.lt .refl)⟩

theorem IsValue.child_lt (h : IsValue heap v) (n : Node) (hn : heap.HasChild v n) :
    n < heap.nodes.length := h.lt (.single hn)

theorem IsValue.noError (h : IsValue heap v) : (heap.get v).type ≠ .error :=
  h.isDocument.noError v .refl

theorem IsValue.isError (h : IsValue s.heap v) : s.isError v = false := decide_eq_false h.noError

end Results

theorem arrayLookup_total (heap : Heap) (hkey : key.view.toList ≠ []) (current : Node) :
    (∃ i element, elementIndex key.view.toList = some i ∧
      (heap.get current).children[i]? = some element ∧
      arrayLookup heap current key 0 = some (heap, element, i)) ∨
    ∃ heap' e i, arrayLookup heap current key 0 = some (heap', e, i) ∧
      Heap.Frame heap.nodes.length heap heap' ∧ (heap'.get e).type = .error := by
  have herror : ∀ type msg (i : Nat), ∃ heap' e i',
      (errAt heap type key msg).map (fun r => (r.1, r.2, i)) = some (heap', e, i') ∧
        Heap.Frame heap.nodes.length heap heap' ∧ (heap'.get e).type = .error := by
    intro type msg i
    obtain ⟨heap', e, he, hframe, htype⟩ := errAt_total heap type key msg
    exact ⟨heap', e, i, by rw [he]; rfl, hframe, htype⟩
  by_cases hfound : ∃ i element, elementIndex key.view.toList = some i ∧
      (heap.get current).children[i]? = some element
  · obtain ⟨i, element, hi, hchild⟩ := hfound
    exact .inl ⟨i, element, hi, hchild, arrayLookup_of_index hi hchild 0⟩
  · right
    rw [arrayLookup]
    dsimp only
    split
    · exact herror _ _ _
    next hminus =>
    split
    · next hnil => exact absurd hnil hkey
    next front rest htext =>
    split
    · exact herror _ _ _
    next hfront =>
    split
    · exact herror _ _ _
    next hzero =>
    split
    · exact herror _ _ _
    next i hloop =>
    split
    · exact herror _ _ _
    next element hchild =>
      exfalso
      apply hfound
      refine ⟨i, element, ?_, hchild⟩
      unfold elementIndex
      rw [if_neg hminus, htext]
      dsimp only
      rw [← htext, if_neg (not_or.2 ⟨hfront, hzero⟩), hloop, if_pos rfl]

theorem arrayLookup_empty {heap : Heap} (hkey : key.view.toList = []) (current : Node)
    (index : Nat) : arrayLookup heap current key index = none := by
  rw [arrayLookup]
  dsimp only
  rw [hkey, if_neg (by decide)]

section Keys
variable [BEq α] {std : StdLib α} {s : Store} {R : Node → Prop}

/-- A key leads on, or is an error, unless it is empty and meets an array. -/
theorem follow_total (hw : Walkable s R) (hn : R n)
    (hkey : ¬ ((s.heap.get n).type = .jsonArray ∧ key.view.toList = [])) :
    (∃ next, Operation.follow s n key = some (s, .ok next) ∧ Leads s n key next) ∨
      ∃ heap e, Operation.follow s n key = some ({ s with heap }, .error e) ∧
        (heap.get e).type = .error := by
  obtain ⟨hvalue, -⟩ := hw.value n hn
  obtain ⟨t, ht⟩ := hvalue.tree
  by_cases hobject : (s.heap.get n).type = .jsonObject
  · cases hfound : s.lookdown n key with
    | nil =>
      obtain ⟨heap, e, he, -, htype⟩ := err_total ht ("No child at path: " ++ key.view)
      refine .inr ⟨heap, e, ?_, htype⟩
      rw [Operation.follow, if_pos hobject, hfound]
      simp only [Store.err, he]
      rfl
    | cons m rest =>
      have hm := hw.member n key m hn hobject (hfound ▸ .head _)
      obtain ⟨-, next, -, -, -, -, hmvalue⟩ := hm.proper.memberKey hm.type
      have hleads : Leads s n key next := .member m rest hobject hfound hmvalue
      exact .inl ⟨next, follow_ok_iff.2 ⟨rfl, hleads⟩, hleads⟩
  by_cases harray : (s.heap.get n).type = .jsonArray
  · have hne : key.view.toList ≠ [] := fun h => hkey ⟨harray, h⟩
    rcases arrayLookup_total s.heap hne n with
      ⟨i, element, hi, hchild, -⟩ | ⟨heap, e, i, hlookup, -, htype⟩
    · obtain ⟨helement, -⟩ :=
        hw.value element (hw.element n element hn harray (List.mem_of_getElem? hchild))
      have hleads : Leads s n key element := .element i harray hi hchild helement.noError
      exact .inl ⟨element, follow_ok_iff.2 ⟨rfl, hleads⟩, hleads⟩
    · refine .inr ⟨heap, e, ?_, htype⟩
      rw [Operation.follow, if_neg hobject, if_pos harray, hlookup]
      simp only [Option.bind_eq_bind, Option.bind_some]
      rw [if_pos (show Store.isError { s with heap } e = true from decide_eq_true htype)]
      rfl
  · obtain ⟨heap, e, he, -, htype⟩ := err_total ht "Cannot index into value"
    refine .inr ⟨heap, e, ?_, htype⟩
    rw [Operation.follow, if_neg hobject, if_neg harray]
    simp only [Store.err, he]
    rfl

theorem follow_empty (harray : (s.heap.get n).type = .jsonArray) (hkey : key.view.toList = []) :
    Operation.follow s n key = none := by
  rw [Operation.follow, harray, if_neg (by decide), if_pos rfl, arrayLookup_empty hkey]
  rfl

end Keys

end Trieste.Json
