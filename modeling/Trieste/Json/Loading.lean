import Trieste.Json.Running
import Trieste.Json.Transfer

namespace Trieste.Json
set_option autoImplicit true
open Library Relation Heap

/-- A value with the symbol tables of its objects. -/
structure Loaded (s : Store) (v : Node) : Prop where
  value : IsValue s.heap v
  tabled : Tabled s v

section Stores
variable {s : Store} {heap : Heap}

theorem TablesInHeap.above (h : TablesInHeap s) : s.Above s.heap.nodes.length :=
  ⟨.length s.heap, fun b hb hscope => absurd (h b hb).1 (Nat.not_lt.2 hscope)⟩

theorem keyText_frame (h : IsValue s.heap v) (hf : Heap.Frame s.heap.nodes.length s.heap heap)
    (hm : s.heap.InTree v m) : Store.keyText heap m = Store.keyText s.heap m := by
  have hkept := hf.kept m (h.lt hm)
  rw [Store.keyText, Store.keyText, hkept]
  cases hc : (s.heap.get m).children with
  | nil => rfl
  | cons key rest =>
    have hkey : s.heap.HasChild m key := by
      rw [HasChild, hc]
      exact .head _
    simp only [List.head?_cons, Option.map_some, viewOf, hf.kept key (h.lt (hm.tail hkey))]

theorem Loaded.frame (h : Loaded s v) (hs : TablesInHeap s)
    (hf : Heap.Frame s.heap.nodes.length s.heap heap) : Loaded { s with heap } v := by
  refine ⟨h.value.frame hf, fun n key hn hobject => ?_⟩
  have hn := inTree_frame h.value hf hn
  have hkept := hf.kept n (h.value.lt hn)
  change (heap.get n).type = .jsonObject at hobject
  change Store.lookdown { s with heap } n key =
    (heap.get n).children.filter fun m => Store.keyText heap m = key.view
  rw [hs.lookdown_eq hf, hkept]
  rw [hkept] at hobject
  rw [h.tabled n key hn hobject]
  apply List.filter_congr
  intro m hm
  rw [keyText_frame h.value hf (hn.tail hm)]

theorem Loaded.sub (h : Loaded s v) (hn : ValueIn s.heap v n) : Loaded s n :=
  ⟨h.value.sub hn.1 (List.mem_cons_of_mem _ hn.2), fun m key hm => h.tabled m key (hn.1.trans hm)⟩

/-- The tables of a value are built. -/
theorem IsValue.built (h : IsValue s.heap v) :
    ∃ s', s.buildSt v = some s' ∧ s'.heap = s.heap ∧ Loaded s' v := by
  obtain ⟨s', hbuild, htables⟩ := h.isDocument.buildSt
  have h' : IsValue s'.heap v := by
    rw [htables.heap]
    exact h
  exact ⟨s', hbuild, htables.heap, h', h'.isDocument.tabled hbuild⟩

theorem IsValue.cloned (h : IsValue s.heap v) :
    ∃ s₁ s₂ copy, s.clone v = some (s₁, copy) ∧ s₁.buildSt copy = some s₂ ∧ Loaded s₂ copy ∧
      ∀ w, IsValue s.heap w → IsValue s₂.heap w ∧ (s₂.heap.get w).type = (s.heap.get w).type := by
  obtain ⟨heap₁, hclone, hframe, -, hfresh, htwins⟩ := h.clone
  have htype : (heap₁.get s.heap.nodes.length).type ∈ .top :: valueTokens := by
    rw [htwins.type]
    exact h.type
  have hcopy : IsValue (Store.mk heap₁ s.symbols).heap s.heap.nodes.length := hfresh.isValue htype
  obtain ⟨s₂, hbuild, hheap, hloaded⟩ := hcopy.built
  refine ⟨_, s₂, _, store_clone hclone, hbuild, hloaded, fun w hw => ?_⟩
  rw [hheap]
  exact ⟨hw.frame hframe, hframe.type w (hw.lt .refl)⟩

end Stores

namespace Patch
section Reading
variable [BEq α] (std : StdLib α) {s : Store} {node : Node}

theorem pointer_member : ∀ path ∈ [opKey, pathKey, valueKey, fromKey],
    (pointer (.ofString path)).all fun keys => keys.all fun key => !key.view.toList.isEmpty := by
  decide +kernel

theorem not_emptyAt (hkeys : ∀ key ∈ keys, (!key.view.toList.isEmpty) = true) :
    ¬ EmptyAt s n keys := by
  intro hempty
  induction hempty with
  | here _ hnil =>
    have hfront := hkeys _ (.head _)
    rw [hnil] at hfront
    cases hfront
  | later _ _ ih => exact ih fun key hmem => hkeys key (.tail _ hmem)

theorem select_total (hs : TablesInHeap s) (h : Loaded s node) (htype : (s.heap.get node).type ∈ valueTokens)
    (hpath : path ∈ [opKey, pathKey, valueKey, fromKey]) :
    ∃ heap result, select std s node path = some ({ s with heap }, result) ∧
      Heap.Frame s.heap.nodes.length s.heap heap ∧
      ((heap.get result).type = .error ∨
        heap = s.heap ∧ IsValue s.heap result ∧ ValueIn s.heap node result) := by
  let op : Operation := { path := .ofString path, action := .read }
  have hready : Ready op s (ValueIn s.heap node) := by
    constructor
    · exact h.value.walkable h.tabled
    · exact .inl (.head _)
    · intro v hv
      cases hv
    · exact fun _ n hn => h.tabled.looks.sub hn.1
    · intro haction
      cases haction
  have hdefined : op.Defined std s node := by
    intro keys hkeys
    have hkey := pointer_member path hpath
    rw [show pointer (.ofString path) = some keys from hkeys, Option.all_some, List.all_eq_true] at hkey
    refine ⟨not_emptyAt hkey, fun n _ => accepts_of_ne (fun haction => ?_) n⟩
    cases haction
  obtain ⟨heap, result, hrun, houtcome⟩ := (run_total hready ⟨.refl, htype⟩).1 hdefined
  have hselect : select std s node path = some ({ s with heap }, result) := hrun
  refine ⟨heap, result, hselect, (select_frame hs.above (Nat.le_refl _) hselect).nodes, ?_⟩
  rcases houtcome with herror | ⟨hvalue, hrtype, -⟩
  · exact .inl herror
  rcases Op.run_read (by rfl) hrun with herror | hselects
  · exact .inl (of_decide_eq_true herror)
  · have hrun' : op.run std s node = some (s, result) := run_read_selects (by rfl) hselects
    rw [hrun] at hrun'
    have hheap : heap = s.heap := congrArg (fun r : Store × Node => r.1.heap) (Option.some.inj hrun')
    subst hheap
    obtain ⟨keys, -, htarget⟩ := hselects
    exact .inr ⟨rfl, hvalue, h.tabled.target_inTree .refl htarget, hrtype⟩

theorem selectString_total (hs : TablesInHeap s) (h : Loaded s node)
    (htype : (s.heap.get node).type ∈ valueTokens)
    (hpath : path ∈ [opKey, pathKey, valueKey, fromKey]) :
    (∃ heap, selectString std s node path = some ({ s with heap }, none) ∧
      Heap.Frame s.heap.nodes.length s.heap heap) ∨
    ∃ text, selectString std s node path = some (s, some text) := by
  obtain ⟨heap, result, hselect, hframe, houtcome⟩ := select_total std hs h htype hpath
  rw [selectString, hselect]
  simp only [Option.bind_eq_bind, Option.bind_some]
  rcases houtcome with herror | ⟨rfl, hvalue, -⟩
  · rw [if_pos (show Store.isError { s with heap } result = true from decide_eq_true herror)]
    exact .inl ⟨heap, rfl, hframe⟩
  · rw [hvalue.isError, if_neg Bool.false_ne_true]
    cases getString s.heap result with
    | none => exact .inl ⟨s.heap, rfl, hframe⟩
    | some text => exact .inr ⟨text, rfl⟩

def Op.Carries (op : Op) (s : Store) : Prop :=
  op.type ∈ [.add, .replace, .test] →
    ∃ v, op.value = some v ∧ Loaded s v ∧ (s.heap.get v).type ∈ valueTokens

theorem Op.Carries.frame {op : Op} {heap : Heap} (h : op.Carries s) (hs : TablesInHeap s)
    (hf : Heap.Frame s.heap.nodes.length s.heap heap) : op.Carries { s with heap } := by
  intro htype
  obtain ⟨v, hv, hloaded, hvtype⟩ := h htype
  refine ⟨v, hv, hloaded.frame hs hf, ?_⟩
  change (heap.get v).type ∈ valueTokens
  rw [hf.type v (hloaded.value.lt .refl)]
  exact hvtype

/-- What reading an operation returns. An error is about the node that was read. -/
def ReadsOp (s : Store) (node : Node) (r : Option (Store × Op)) : Prop :=
  ∃ heap op, r = some ({ s with heap }, op) ∧ Heap.Frame s.heap.nodes.length s.heap heap ∧
    op.node = node ∧ op.Carries { s with heap }

theorem ReadsOp.error {heap : Heap} (hf : Heap.Frame s.heap.nodes.length s.heap heap)
    (node : Node) (msg : String) : ReadsOp s node (some ({ s with heap }, .error node msg)) :=
  ⟨heap, _, rfl, hf, rfl, fun hc => absurd hc (by simp [Op.error])⟩

theorem ofType_total (hs : TablesInHeap s) (h : Loaded s node)
    (htype : (s.heap.get node).type ∈ valueTokens) (type : OpType) (path : Location) :
    ReadsOp s node (Op.ofType std s node type path) := by
  have hrefl := Heap.Frame.refl (Above.length s.heap)
  cases type with
  | remove => exact ⟨s.heap, _, rfl, hrefl, rfl, fun hc => absurd hc (by simp)⟩
  | error => exact .error hrefl node _
  | add | replace | test =>
    obtain ⟨heap, result, hselect, hframe, houtcome⟩ :=
      select_total std hs h htype (.tail _ (.tail _ (.head _)))
    rw [Op.ofType, hselect]
    simp only [Option.bind_eq_bind, Option.bind_some]
    rcases houtcome with herror | ⟨rfl, hvalue, hin⟩
    · rw [if_pos (show Store.isError { s with heap } result = true from decide_eq_true herror)]
      exact .error hframe node _
    · rw [hvalue.isError, if_neg Bool.false_ne_true]
      exact ⟨s.heap, _, rfl, hframe, rfl, fun _ => ⟨result, rfl, h.sub hin, hin.2⟩⟩
  | copy | move =>
    rw [Op.ofType]
    rcases selectString_total std hs h htype (.tail _ (.tail _ (.tail _ (.head _)))) with
      ⟨heap, hselect, hframe⟩ | ⟨text, hselect⟩
    · simp only [hselect, Option.bind_eq_bind, Option.bind_some]
      exact .error hframe node _
    · simp only [hselect, Option.bind_eq_bind, Option.bind_some]
      exact ⟨s.heap, _, rfl, hrefl, rfl, fun hc => absurd hc (by simp)⟩

theorem fromNode_total (hs : TablesInHeap s) (h : Loaded s node)
    (htype : (s.heap.get node).type ∈ valueTokens) :
    ReadsOp s node (Op.fromNode std s node) := by
  have hrefl := Heap.Frame.refl (Above.length s.heap)
  rw [Op.fromNode]
  rcases selectString_total std hs h htype (.head _) with
    ⟨heap, hselect, hframe⟩ | ⟨name, hselect⟩
  · simp only [hselect, Option.bind_eq_bind, Option.bind_some]
    exact .error hframe node _
  simp only [hselect, Option.bind_eq_bind, Option.bind_some]
  cases typeLookup name.view with
  | none => exact .error hrefl node _
  | some type =>
    rcases selectString_total std hs h htype (.tail _ (.head _)) with
      ⟨heap, hselect, hframe⟩ | ⟨path, hselect⟩
    · simp only [hselect, Option.bind_some]
      exact .error hframe node _
    · simp only [hselect, Option.bind_some]
      exact ofType_total std hs h htype type path

end Reading
end Patch

end Trieste.Json
