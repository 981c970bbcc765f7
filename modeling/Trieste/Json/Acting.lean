import Trieste.Json.Walking

namespace Trieste.Json
set_option autoImplicit true
open Library Relation Heap

/-- The symbol tables are about nodes that there are. -/
def TablesInHeap (s : Store) : Prop :=
  ∀ b ∈ s.symbols, b.scope < s.heap.nodes.length ∧ b.node < s.heap.nodes.length

section Tables
variable {s : Store} {heap : Heap}

theorem mem_lookdown (hm : m ∈ s.lookdown n key) :
    ∃ b ∈ s.symbols, b.scope = n ∧ b.node = m := by
  obtain ⟨b, hb, rfl⟩ := List.mem_map.1 hm
  obtain ⟨hb, htests⟩ := List.mem_filter.1 hb
  exact ⟨b, hb, (of_decide_eq_true htests).1, rfl⟩

theorem TablesInHeap.frame (h : TablesInHeap s) (hf : Heap.Frame s.heap.nodes.length s.heap heap) :
    TablesInHeap { s with heap } := by
  intro b hb
  obtain ⟨hscope, hnode⟩ := h b hb
  exact ⟨Nat.lt_of_lt_of_le hscope hf.length, Nat.lt_of_lt_of_le hnode hf.length⟩

theorem TablesInHeap.lookdown_eq (h : TablesInHeap s) (hf : Heap.Frame s.heap.nodes.length s.heap heap)
    (n : Node) (key : Location) : Store.lookdown { s with heap } n key = s.lookdown n key := by
  unfold Store.lookdown
  congr 1
  apply List.filter_congr
  intro b hb
  rw [hf.type b.node (h b hb).2]

theorem inTree_frame (h : IsValue s.heap v) (hf : Heap.Frame s.heap.nodes.length s.heap heap)
    (hn : heap.InTree v n) : s.heap.InTree v n := by
  induction hn with
  | refl => exact .refl
  | @tail p c _ hc ih =>
    rw [HasChild, hf.kept p (h.lt ih)] at hc
    exact ih.tail hc

theorem Looks.frame (hlooks : Looks s v) (h : IsValue s.heap v) (hs : TablesInHeap s)
    (hf : Heap.Frame s.heap.nodes.length s.heap heap) : Looks { s with heap } v := by
  intro n key m hn hobject hm
  have hn := inTree_frame h hf hn
  have hkept := hf.kept n (h.lt hn)
  rw [hs.lookdown_eq hf] at hm
  change (heap.get n).type = .jsonObject at hobject
  change m ∈ (heap.get n).children
  rw [hkept] at hobject ⊢
  exact hlooks n key m hn hobject hm

theorem Looks.of_fresh (hs : TablesInHeap s) (hfresh : Fresh s.heap.nodes.length heap c) :
    Looks { s with heap } c := by
  intro n key m hn _ hm
  obtain ⟨b, hb, rfl, -⟩ := mem_lookdown hm
  exact absurd (hs b hb).1 (Nat.not_lt.2 (hfresh.above b.scope hn))

end Tables

section Compare
variable [BEq α] {std : StdLib α} {s : Store} {types : List Token}

theorem compare_total (ha : IsValue s.heap actual) (he : IsValue s.heap expected)
    (hla : Looks s actual) (hle : Looks s expected) (ht : s.heap.Represents actual t)
    (ht' : s.heap.Represents expected t') (htype : (s.heap.get actual).type ∈ types) :
    Returns (InRange std t t') types s (compare std s actual expected) := by
  have hjudged : (equal std s.heap actual expected).isSome ↔ InRange std t t' :=
    (equal_judged ht ht' (ha.shaped ht) (he.shaped ht')).2
  rw [compare, ha.isError, if_neg Bool.false_ne_true]
  cases hequal : equal std s.heap actual expected with
  | none =>
    rw [hequal] at hjudged
    exact .throws (fun hrange => absurd (hjudged.2 hrange) Bool.false_ne_true) rfl
  | some same =>
    rw [hequal] at hjudged
    apply Outcome.returns _ (hjudged.1 rfl)
    cases same with
    | true => exact .value ha htype
    | false =>
      let settings : WriteSettings := { prettyprint := false, sortKeys := true, indent := "  " }
      obtain ⟨text, htext⟩ := toString_total ha hla settings
      obtain ⟨text', htext'⟩ := toString_total he hle settings
      simp only [Option.bind_eq_bind, Option.bind_some, settings] at htext htext' ⊢
      rw [if_neg Bool.false_ne_true, htext, htext']
      exact .err types ⟨t, ht⟩ _

end Compare

namespace Operation
variable [BEq α] (std : StdLib α)

/-- The numbers that the operation compares with those of a node are in range. -/
def Accepts (op : Operation) (s : Store) (n : Node) : Prop :=
  op.action = .compare → ∀ v t t', op.value = some v → s.heap.Represents n t →
    s.heap.Represents v t' → InRange std t t'

end Operation

/-- What an operation has to be given at values. -/
structure Ready (op : Operation) (s : Store) (R : Node → Prop) : Prop where
  walkable : Walkable s R
  given : op.action ∈ [.read, .remove] ∨ ∃ v, op.value = some v
  value : ∀ v, op.value = some v → IsValue s.heap v ∧ (s.heap.get v).type ∈ valueTokens
  looks : op.action ∈ [.remove, .compare] → ∀ n, R n → Looks s n
  compared : op.action = .compare → TablesInHeap s ∧ ∀ v, op.value = some v → Looks s v

section Actions
variable [BEq α] {std : StdLib α} {op : Operation} {s : Store} {R : Node → Prop}

theorem Ready.exists_value (h : Ready op s R) (haction : op.action ∉ [.read, .remove]) :
    ∃ v, op.value = some v ∧ IsValue s.heap v ∧ (s.heap.get v).type ∈ valueTokens := by
  obtain ⟨v, hv⟩ := h.given.resolve_left haction
  exact ⟨v, hv, h.value v hv⟩

theorem accepts_of_ne (haction : op.action ≠ .compare) (n : Node) : op.Accepts std s n :=
  fun h => absurd h haction

/-- For a comparison with a value there is nothing to accept but the trees of both. -/
theorem accepts_iff (haction : op.action = .compare) (hv : op.value = some v)
    (ht : s.heap.Represents n t) (ht' : s.heap.Represents v t') :
    op.Accepts std s n ↔ InRange std t t' := by
  constructor
  · exact fun h => h haction v t t' hv ht ht'
  · intro h _ v' u u' hv' hu hu'
    rw [hv] at hv'
    cases hv'
    rw [hu.unique ht, hu'.unique ht']
    exact h

theorem replace_none {heap : Heap} (hc : heap.HasChild p c) :
    ∃ heap', heap.replace p c none = some heap' := by
  unfold Heap.replace
  rw [if_neg (Nat.ne_of_lt (List.idxOf_lt_length_iff.2 hc))]
  exact ⟨_, rfl⟩

theorem remove_total (hp : Proper s.heap p) (htype : (s.heap.get p).type ∈ [.jsonArray, .jsonObject])
    (hc : s.heap.HasChild p c) :
    ∃ heap, s.replace p c none = some { s with heap } ∧ Grafted s.heap heap p := by
  obtain ⟨heap, hreplace⟩ := replace_none hc
  refine ⟨heap, ?_, (removed_of_replace hreplace).grafted hp htype⟩
  rw [Store.replace, hreplace]
  rfl

theorem objectAction_total (h : Ready op s R) (hn : R n)
    (hobject : (s.heap.get n).type = .jsonObject) :
    Returns (∀ next, Leads s n key next → op.Accepts std s next) valueTokens s
      (op.objectAction std s n key) := by
  obtain ⟨hvalue, -⟩ := h.walkable.value n hn
  have hproper := hvalue.proper n .refl
  rw [Operation.objectAction]
  cases hfound : s.lookdown n key with
  | nil =>
    have hok : ∀ next, Leads s n key next → op.Accepts std s next := by
      intro next hleads
      cases hleads with
      | member m rest _ hfound' =>
        rw [hfound] at hfound'
        cases hfound'
      | element i harray =>
        rw [hobject] at harray
        exact absurd harray (by decide)
    apply Outcome.returns _ hok
    cases haction : op.action with
    | insert =>
      obtain ⟨v, hv, hisvalue, htype⟩ := h.exists_value (by rw [haction]; decide)
      obtain ⟨heap, hadd, hg⟩ := addMember_total hproper hobject (hvalue.lt .refl)
        hvalue.child_lt key hisvalue htype
      simp only [hv, Option.bind_eq_bind, Option.bind_some, hadd]
      exact .grafted hg hproper hisvalue htype
    | read | replace | remove | compare => exact .err _ hvalue.tree _
  | cons m rest =>
    have hm := h.walkable.member n key m hn hobject (hfound ▸ .head _)
    obtain ⟨-, existing, -, -, -, -, hexisting⟩ := hm.proper.memberKey hm.type
    have hleads : Leads s n key existing := .member m rest hobject hfound hexisting
    have hR := h.walkable.leads hn hleads
    obtain ⟨hexvalue, hextype⟩ := h.walkable.value existing hR
    have hok : (∀ next, Leads s n key next → op.Accepts std s next) ↔
        op.Accepts std s existing := by
      constructor
      · exact fun h => h existing hleads
      · intro h next hnext
        rw [hnext.unique hleads]
        exact h
    apply Returns.congr _ hok
    simp only [Option.bind_eq_bind, hexisting, Option.bind_some]
    cases haction : op.action with
    | compare =>
      obtain ⟨v, hv, hisvalue, htype⟩ := h.exists_value (by rw [haction]; decide)
      obtain ⟨-, hlooks⟩ := h.compared haction
      obtain ⟨t, ht⟩ := hexvalue.tree
      obtain ⟨t', ht'⟩ := hisvalue.tree
      simp only [hv, Option.bind_some]
      exact (compare_total hexvalue hisvalue (h.looks (by rw [haction]; decide) existing hR)
        (hlooks v hv) ht ht' hextype).congr (accepts_iff haction hv ht ht')
    | insert | replace =>
      obtain ⟨v, hv, hisvalue, htype⟩ := h.exists_value (by rw [haction]; decide)
      obtain ⟨heap, hassign, hg⟩ := assignCopy_total hm.proper hm.type hm.below hisvalue htype
      simp only [hv, Option.bind_some, hassign]
      exact (Outcome.grafted hg hm.proper hexvalue hextype).returns
        (accepts_of_ne (by rw [haction]; decide) existing)
    | read =>
      exact (Outcome.value hexvalue hextype).returns
        (accepts_of_ne (by rw [haction]; decide) existing)
    | remove =>
      have hchild := h.looks (by rw [haction]; decide) n hn n key m .refl hobject (hfound ▸ .head _)
      obtain ⟨heap, hreplace, hg⟩ := remove_total hproper (by rw [hobject]; decide) hchild
      simp only [hreplace, Option.bind_some]
      exact (Outcome.grafted hg hproper hexvalue hextype).returns
        (accepts_of_ne (by rw [haction]; decide) existing)

theorem elementAction_total (h : Ready op s R) (hn : R n)
    (harray : (s.heap.get n).type = .jsonArray) (hslot : (s.heap.get n).children[i]? = some element) :
    Returns (op.Accepts std s element) valueTokens s (op.elementAction std s n element i) := by
  have hchild : s.heap.HasChild n element := List.mem_of_getElem? hslot
  have hR := h.walkable.element n element hn harray hchild
  obtain ⟨hvalue, -⟩ := h.walkable.value n hn
  obtain ⟨helement, hetype⟩ := h.walkable.value element hR
  have hproper := hvalue.proper n .refl
  rw [Operation.elementAction]
  cases haction : op.action with
  | compare =>
    obtain ⟨v, hv, hisvalue, htype⟩ := h.exists_value (by rw [haction]; decide)
    obtain ⟨hs, -⟩ := h.compared haction
    obtain ⟨heap₁, hclone, hframe, -, hfresh, t', ht', hcopy⟩ := hisvalue.clone
    obtain ⟨t, ht⟩ := helement.tree
    have hlooks := h.looks (by rw [haction]; decide) element hR
    have hctype : (heap₁.get s.heap.nodes.length).type ∈ .top :: valueTokens := by
      have htwins : Twins s.heap heap₁ v s.heap.nodes.length := ⟨t', ht', hcopy⟩
      rw [htwins.type]
      exact List.mem_cons_of_mem _ htype
    simp only [hv, Option.bind_eq_bind, Option.bind_some, store_clone hclone]
    apply Returns.congr _ (accepts_iff haction hv ht ht')
    apply Returns.frame _ hframe
    apply compare_total (helement.frame hframe) (hfresh.isValue hctype)
      (hlooks.frame helement hs hframe) (.of_fresh hs hfresh) (ht.frame hframe) hcopy
    change (heap₁.get element).type ∈ valueTokens
    rw [hframe.type element (helement.lt .refl)]
    exact hetype
  | insert =>
    obtain ⟨v, hv, hisvalue, htype⟩ := h.exists_value (by rw [haction]; decide)
    obtain ⟨heap₁, hclone, -, hg⟩ := insertCopy_grafted hproper harray (hvalue.lt .refl)
      hvalue.child_lt hisvalue htype (.refl (Above.length s.heap))
    have hclone : s.clone v = some ({ s with heap := heap₁ }, s.heap.nodes.length) := hclone
    simp only [hv, Option.bind_eq_bind, Option.bind_some, hclone]
    exact (Outcome.grafted (hg i) hproper hisvalue htype).returns
      (accepts_of_ne (by rw [haction]; decide) element)
  | read =>
    exact (Outcome.value helement hetype).returns
      (accepts_of_ne (by rw [haction]; decide) element)
  | remove =>
    obtain ⟨heap, hreplace, hg⟩ := remove_total hproper (by rw [harray]; decide) hchild
    simp only [Option.bind_eq_bind, hreplace, Option.bind_some]
    exact (Outcome.grafted hg hproper helement hetype).returns
      (accepts_of_ne (by rw [haction]; decide) element)
  | replace =>
    obtain ⟨v, hv, hisvalue, htype⟩ := h.exists_value (by rw [haction]; decide)
    obtain ⟨heap, hreplace, hg⟩ := replaceCopy_total hproper harray hvalue.child_lt hslot hisvalue
      htype
    obtain ⟨⟨s₁, copy⟩, hclone, hreplace⟩ := Option.bind_eq_some_iff.1 hreplace
    simp only [hv, Option.bind_eq_bind, Option.bind_some, hclone, hreplace]
    exact (Outcome.grafted hg hproper helement hetype).returns
      (accepts_of_ne (by rw [haction]; decide) element)

theorem arrayAction_total (h : Ready op s R) (hn : R n)
    (harray : (s.heap.get n).type = .jsonArray) :
    Returns (key.view.toList ≠ [] ∧ ∀ next, Leads s n key next → op.Accepts std s next)
      valueTokens s (op.arrayAction std s n key) := by
  obtain ⟨hvalue, -⟩ := h.walkable.value n hn
  by_cases hkey : key.view.toList = []
  · apply Returns.throws (fun hok => hok.1 hkey)
    rw [Operation.arrayAction, arrayLookup_empty hkey]
    rfl
  rcases arrayLookup_total s.heap hkey n with
    ⟨i, element, hi, hslot, hlookup⟩ | ⟨heap, e, i, hlookup, hframe, herror⟩
  · have hR := h.walkable.element n element hn harray (List.mem_of_getElem? hslot)
    obtain ⟨helement, -⟩ := h.walkable.value element hR
    have hleads : Leads s n key element := .element i harray hi hslot helement.noError
    have hlt : i ≠ (s.heap.get n).children.length :=
      Nat.ne_of_lt (List.getElem?_eq_some_iff.1 hslot).1
    have hok : (key.view.toList ≠ [] ∧ ∀ next, Leads s n key next → op.Accepts std s next) ↔
        op.Accepts std s element := by
      constructor
      · exact fun h => h.2 element hleads
      · intro h
        refine ⟨hkey, fun next hnext => ?_⟩
        rw [hnext.unique hleads]
        exact h
    apply Returns.congr _ hok
    simp only [Operation.arrayAction, hlookup, Option.bind_eq_bind, Option.bind_some]
    rw [if_neg fun hc => hlt hc.2, helement.isError, if_neg Bool.false_ne_true]
    exact elementAction_total h hn harray hslot
  · have hok : key.view.toList ≠ [] ∧ ∀ next, Leads s n key next → op.Accepts std s next := by
      refine ⟨hkey, fun next hleads => ?_⟩
      cases hleads with
      | member m rest hobject =>
        rw [harray] at hobject
        exact absurd hobject (by decide)
      | element i' _ hi' hslot hno =>
        rw [arrayLookup_of_index hi' hslot] at hlookup
        cases hlookup
        exact absurd herror hno
    apply Outcome.returns _ hok
    simp only [Operation.arrayAction, hlookup, Option.bind_eq_bind, Option.bind_some]
    split
    · next hinsert =>
      obtain ⟨v, hv, hisvalue, htype⟩ := h.exists_value (by rw [hinsert.1]; decide)
      have hproper := hvalue.proper n .refl
      obtain ⟨heap₁, hclone, hg, -⟩ := insertCopy_grafted hproper harray (hvalue.lt .refl)
        hvalue.child_lt hisvalue htype hframe
      simp only [hv, Option.bind_some, hclone]
      exact .grafted hg hproper hisvalue htype
    · rw [if_pos (show Store.isError { s with heap } e = true from decide_eq_true herror)]
      exact ⟨heap, e, rfl, .inl herror⟩

/-- The action throws for an empty key in an array and for a number that is not in range. -/
theorem act_total (h : Ready op s R) (hn : R n) :
    Returns (¬ ((s.heap.get n).type = .jsonArray ∧ key.view.toList = []) ∧
      ∀ next, Leads s n key next → op.Accepts std s next) valueTokens s
      (op.act std s n key) := by
  rw [Operation.act]
  split
  · next hobject =>
    apply (objectAction_total h hn hobject).congr
    apply and_iff_right
    rw [hobject]
    exact fun hc => absurd hc.1 (by decide)
  · next hobject =>
    split
    · next harray =>
      apply (arrayAction_total h hn harray).congr
      rw [harray, and_iff_right rfl]
    · next harray =>
      obtain ⟨hvalue, -⟩ := h.walkable.value n hn
      apply Outcome.returns (.err _ hvalue.tree _)
      refine ⟨fun hc => harray hc.1, fun next hleads => ?_⟩
      cases hleads with
      | member m rest htype => exact absurd htype hobject
      | element i htype => exact absurd htype harray

end Actions

end Trieste.Json
