import Trieste.Ast.Trees
import Trieste.Json.Document

namespace Trieste.Json
set_option autoImplicit true
open Library Relation

/-- A tree in which the members are the children of the objects, and nothing is an error. -/
structure IsDocument (h : Heap) (document : Node) : Prop where
  tree : ∃ t, h.Represents document t
  parent : ∀ n c, h.InTree document n → h.HasChild n c → (h.get c).parent = some n
  nodup : ∀ n, h.InTree document n → (h.get n).children.Nodup
  member : ∀ n c, h.InTree document n → h.HasChild n c →
    ((h.get c).type = .jsonMember ↔ (h.get n).type = .jsonObject)
  fields : ∀ m, h.InTree document m → (h.get m).type = .jsonMember →
    ∃ key value, (h.get m).children = [key, value]
  noError : ∀ n, h.InTree document n → (h.get n).type ≠ .error
  root : (h.get document).type ≠ .jsonMember

namespace Store

def keyText (h : Heap) (m : Node) : String := (((h.get m).children.head?).map (viewOf h)).getD ""

def own (h : Heap) (scope n : Node) : List Binding :=
  if (h.get n).type = .jsonMember ∧ (h.get n).parent = some scope then
    [{ scope, name := keyText h n, node := n }]
  else []

def table (s : Store) (scope : Node) : List Binding := s.symbols.filter fun b => b.scope = scope

/-- The nodes have been built: the tables in their trees are new, and other tables have got what the
nodes themselves bind. -/
structure Tables (s s' : Store) (ns : List Node) : Prop where
  heap : s'.heap = s.heap
  inside : ∀ x, (∃ n ∈ ns, s.heap.InTree n x) →
    s'.table x = (s.heap.get x).children.flatMap (own s.heap x)
  outside : ∀ x, (∀ n ∈ ns, ¬ s.heap.InTree n x) →
    s'.table x = s.table x ++ ns.flatMap (own s.heap x)

theorem Tables.nil (s : Store) : Tables s s [] where
  heap := rfl
  inside := fun x hx => by
    obtain ⟨n, hn, -⟩ := hx
    cases hn
  outside := fun x _ => (List.append_nil _).symm

/-- One more node is built, which binds nothing in the trees before it. -/
theorem Tables.snoc (h : Tables s s₁ ns) (h' : Tables s₁ s₂ [n])
    (hown : ∀ m ∈ ns, ∀ x, s.heap.InTree m x → own s.heap x n = []) :
    Tables s s₂ (ns ++ [n]) := by
  have hin := h'.inside
  have hout := h'.outside
  simp only [List.mem_singleton, exists_eq_left, forall_eq, List.flatMap_singleton, h.heap] at hin hout
  refine ⟨h'.heap.trans h.heap, fun x hx => ?_, fun x hx => ?_⟩
  · by_cases hn : s.heap.InTree n x
    · exact hin x hn
    · obtain ⟨m, hm, hmx⟩ := hx
      rcases List.mem_append.1 hm with hm | hm
      · rw [hout x hn, h.inside x ⟨m, hm, hmx⟩, hown m hm x hmx, List.append_nil]
      · rw [List.mem_singleton.1 hm] at hmx
        exact absurd hmx hn
  · have hn := hx n (List.mem_append_right _ (.head _))
    rw [hout x hn, h.outside x fun m hm => hx m (List.mem_append_left _ hm), List.append_assoc,
      List.flatMap_append, List.flatMap_singleton]

theorem own_parent {heap : Heap} {x : Node} (h : own heap x n ≠ []) :
    (heap.get n).parent = some x := by
  unfold own at h
  split at h
  · next hn => exact hn.2
  · exact absurd rfl h

theorem buildStFrom_heap (h : Store.buildStFrom fuel s n = some s') : s'.heap = s.heap := by
  induction fuel generalizing s n s' with
  | zero => cases h
  | succ fuel ih =>
    unfold Store.buildStFrom at h
    split at h
    · exact Option.some.inj h ▸ rfl
    · obtain ⟨s₁, hshape, hfold⟩ := Option.bind_eq_some_iff.1 h
      have hheap : s₁.heap = s.heap := by
        unfold Store.bindShape at hshape
        split at hshape
        · split at hshape
          · exact Option.some.inj hshape ▸ rfl
          · obtain ⟨st, -, rfl⟩ := Option.map_eq_some_iff.1 hshape
            rfl
        · exact Option.some.inj hshape ▸ rfl
      apply foldlM_invariant (I := fun t => t.heap = s.heap) _ hheap hfold
      intro t c t' _ ht hstep
      exact (ih hstep).trans ht

end Store

namespace IsDocument

/-- A member is in an object. -/
theorem object (hdoc : IsDocument heap document) (hin : heap.InTree document m)
    (hm : (heap.get m).type = .jsonMember) :
    ∃ p, heap.InTree document p ∧ heap.HasChild p m ∧ (heap.get p).type = .jsonObject := by
  rcases hin.cases_tail with rfl | ⟨p, hp, hc⟩
  · exact absurd hm hdoc.root
  · exact ⟨p, hp, hc, (hdoc.member p m hp hc).1 hm⟩

/-- What the shape of a node binds is in the table of its object. -/
theorem bindShape {s : Store} (hdoc : IsDocument s.heap document)
    (hin : s.heap.InTree document n) :
    ∃ s', s.bindShape n = some s' ∧ s'.heap = s.heap ∧
      ∀ x, s'.table x = s.table x ++ Store.own s.heap x n := by
  unfold Store.bindShape
  split
  · next hm =>
    obtain ⟨p, hp, hc, hobject⟩ := hdoc.object hin hm
    obtain ⟨key, value, hchildren⟩ := hdoc.fields n hin hm
    have hparent := hdoc.parent p n hp hc
    have hsymtab : (s.heap.get p).type.has Flag.symtab = true := by
      rw [hobject]
      decide
    have hscope : Store.scope s.heap n = some p := by
      rw [Store.scope, hparent, Store.scopeFrom, if_pos hsymtab]
    rw [hchildren]
    refine ⟨_, congrArg (Option.map _) hscope, rfl, fun x => ?_⟩
    have hkey : Store.keyText s.heap n = (s.heap.get key).location.view := by
      rw [Store.keyText, hchildren]
      rfl
    simp only [Store.table, List.filter_append, Store.own, hm, hparent, true_and, hkey,
      Option.some.injEq, List.filter_cons, List.filter_nil]
    by_cases hx : p = x
    · rw [hx]
      simp
    · simp [hx]
  · next hm =>
    refine ⟨s, rfl, rfl, fun x => ?_⟩
    rw [Store.own, if_neg fun hc => hm hc.1, List.append_nil]

theorem not_self (hdoc : IsDocument heap document) (hin : heap.InTree document n)
    (hc : heap.HasChild n c) : ¬ heap.InTree c n := by
  obtain ⟨t, ht⟩ := hdoc.tree
  obtain ⟨t', ht', -⟩ := ht.inTree hin
  exact ht'.not_below hc

theorem own_self (hdoc : IsDocument heap document) (hin : heap.InTree document n) :
    Store.own heap n n = [] := by
  unfold Store.own
  split
  · next hn =>
    obtain ⟨p, hp, hc, -⟩ := hdoc.object hin hn.1
    have hparent := hdoc.parent p n hp hc
    rw [hn.2] at hparent
    cases hparent
    exact absurd .refl (hdoc.not_self hp hc)
  · rfl

theorem own_child (hdoc : IsDocument heap document) (hin : heap.InTree document n)
    (hc : heap.HasChild n c) (hx : x ≠ n) : Store.own heap x c = [] := by
  apply Classical.byContradiction
  intro hne
  have hparent := Store.own_parent hne
  rw [hdoc.parent n c hin hc] at hparent
  exact hx (Option.some.inj hparent).symm

/-- The loop over the children, which are those done and the rest. -/
theorem buildChildren {s s₁ : Store} (hdoc : IsDocument s.heap document)
    (hin : s.heap.InTree document n) (hchildren : (s.heap.get n).children = done ++ rest)
    (ih : ∀ c s', s'.heap = s.heap → s.heap.HasChild n c →
      ∃ s'', Store.buildStFrom fuel s' c = some s'' ∧ Store.Tables s' s'' [c])
    (h₁ : Store.Tables s s₁ done) :
    ∃ s₂, rest.foldlM (Store.buildStFrom fuel) s₁ = some s₂ ∧
      Store.Tables s s₂ (s.heap.get n).children := by
  induction rest generalizing done s₁ with
  | nil =>
    rw [hchildren, List.append_nil]
    exact ⟨s₁, rfl, h₁⟩
  | cons c rest ihrest =>
    have hmem : ∀ d ∈ done ++ [c], s.heap.HasChild n d := by
      intro d hd
      rw [Heap.HasChild, hchildren, ← List.singleton_append, ← List.append_assoc]
      exact List.mem_append_left _ hd
    have hc := hmem c (List.mem_append_right _ (.head _))
    obtain ⟨s₂, hbuild, h₂⟩ := ih c s₁ h₁.heap hc
    have hown : ∀ d ∈ done, ∀ x, s.heap.InTree d x → Store.own s.heap x c = [] := by
      intro d hd x hx
      apply hdoc.own_child hin hc
      rintro rfl
      exact hdoc.not_self hin (hmem d (List.mem_append_left _ hd)) hx
    rw [← List.singleton_append, ← List.append_assoc] at hchildren
    obtain ⟨s₃, hrest, h₃⟩ := ihrest hchildren (h₁.snoc h₂ hown)
    refine ⟨s₃, ?_, h₃⟩
    rw [List.foldlM_cons, hbuild]
    exact hrest

theorem tables_node {s s₀ s' : Store} (hdoc : IsDocument s.heap document)
    (hin : s.heap.InTree document n) (hheap : s₀.heap = s.heap)
    (htable : ∀ x, s₀.table x = (if x = n then [] else s.table x) ++ Store.own s.heap x n)
    (h : Store.Tables s₀ s' (s.heap.get n).children) : Store.Tables s s' [n] := by
  have hinside := h.inside
  have houtside := h.outside
  rw [hheap] at hinside houtside
  refine ⟨h.heap.trans hheap, fun x hx => ?_, fun x hx => ?_⟩
  · obtain ⟨m, hm, hmx⟩ := hx
    obtain rfl := List.mem_singleton.1 hm
    rcases hmx.cases_head with rfl | ⟨c, hc, hcx⟩
    · rw [houtside m fun c hc => hdoc.not_self hin hc, htable, if_pos rfl, hdoc.own_self hin]
      rfl
    · exact hinside x ⟨c, hc, hcx⟩
  · have hout := hx n (.head _)
    have hne : x ≠ n := by
      rintro rfl
      exact hout .refl
    have hbelow : ∀ c ∈ (s.heap.get n).children, ¬ s.heap.InTree c x := by
      intro c hc hcx
      exact hout (hcx.head hc)
    have hown : (s.heap.get n).children.flatMap (Store.own s.heap x) = [] := by
      apply List.flatMap_eq_nil_iff.2
      intro c hc
      exact hdoc.own_child hin hc hne
    rw [houtside x hbelow, hown, htable, if_neg hne, List.append_nil, List.flatMap_singleton]

theorem table_clearSymbols (s : Store) (n x : Node) :
    (s.clearSymbols n).table x = if x = n then [] else s.table x := by
  rw [Store.table, Store.clearSymbols, List.filter_filter]
  split
  · next hx =>
    apply List.filter_eq_nil_iff.2
    intro b _ hb
    simp [hx] at hb
  · next hx =>
    apply List.filter_congr
    intro b _
    by_cases hb : b.scope = x
    · simp [hb, hx]
    · simp [hb]

theorem buildStFrom {s : Store} (hdoc : IsDocument s.heap document)
    (hin : s.heap.InTree document n) (ht : s.heap.Represents n t) (hdepth : t.depth ≤ fuel) :
    ∃ s', Store.buildStFrom fuel s n = some s' ∧ Store.Tables s s' [n] := by
  induction fuel generalizing s n t with
  | zero =>
    cases t with
    | node type location trees =>
      rw [Tree.depth] at hdepth
      exact absurd hdepth (Nat.not_succ_le_zero _)
  | succ fuel ih =>
    rw [Store.buildStFrom, if_neg (hdoc.noError n hin)]
    have hclear : IsDocument (s.clearSymbols n).heap document := hdoc
    obtain ⟨s₀, hshape, hheap, htable⟩ := hclear.bindShape hin
    have hheap : s₀.heap = s.heap := hheap
    have hchildren : (s₀.heap.get n).children = [] ++ (s.heap.get n).children := by
      rw [hheap]
      rfl
    have hdoc₀ : IsDocument s₀.heap document := by rwa [hheap]
    have hin₀ : s₀.heap.InTree document n := by rwa [hheap]
    have hchild : ∀ c s', s'.heap = s₀.heap → s₀.heap.HasChild n c →
        ∃ s'', Store.buildStFrom fuel s' c = some s'' ∧ Store.Tables s' s'' [c] := by
      intro c s' hs' hc
      rw [hheap] at hs' hc
      obtain ⟨t', ht', hlt⟩ := ht.child hc
      have hc' : s'.heap.InTree document c := by
        rw [hs']
        exact hin.tail hc
      exact ih (by rwa [hs']) hc' (by rwa [hs']) (Nat.le_of_lt_succ (Nat.lt_of_lt_of_le hlt hdepth))
    obtain ⟨s', hfold, htables⟩ := hdoc₀.buildChildren hin₀ hchildren hchild (Store.Tables.nil s₀)
    rw [hheap] at htables
    refine ⟨s', ?_, hdoc.tables_node hin hheap ?_ htables⟩
    · rw [Option.bind_eq_bind, hshape, Option.bind_some, hheap]
      exact hfold
    · intro x
      rw [htable x, table_clearSymbols]
      rfl

theorem buildSt {s : Store} (hdoc : IsDocument s.heap document) :
    ∃ s', s.buildSt document = some s' ∧ Store.Tables s s' [document] := by
  obtain ⟨t, ht⟩ := hdoc.tree
  exact hdoc.buildStFrom .refl ht (Nat.le_succ_of_le ht.depth_le)

theorem lookdown_table (s : Store) (n : Node) (key : Location) :
    s.lookdown n key = ((s.table n).filter fun b => b.name = key.view ∧
      (s.heap.get b.node).type.has Flag.lookdown).map Binding.node := by
  rw [Store.table, List.filter_filter, Store.lookdown]
  congr 1
  apply List.filter_congr
  intro b _
  simp [Bool.and_comm]

/-- Looking down from an object of a document that has been built finds the members with the key. -/
theorem lookdown {s₀ s : Store} (hdoc : IsDocument s.heap document)
    (hbuilt : s₀.buildSt document = some s) (hin : s.heap.InTree document n)
    (hobject : (s.heap.get n).type = .jsonObject) (key : Location) :
    s.lookdown n key =
      (s.heap.get n).children.filter fun m => Store.keyText s.heap m = key.view := by
  have hheap : s.heap = s₀.heap := Store.buildStFrom_heap hbuilt
  rw [hheap] at hdoc hin
  obtain ⟨s', hs', htables⟩ := hdoc.buildSt
  rw [hbuilt] at hs'
  cases hs'
  have htable := htables.inside n ⟨document, .head _, hin⟩
  rw [hheap] at hobject ⊢
  have hown : (s₀.heap.get n).children.flatMap (Store.own s₀.heap n) =
      (s₀.heap.get n).children.map fun m => ⟨n, Store.keyText s₀.heap m, m⟩ := by
    rw [List.map_eq_flatMap]
    apply List.flatMap_congr
    intro m hm
    rw [Store.own, if_pos ⟨(hdoc.member n m hin hm).2 hobject, hdoc.parent n m hin hm⟩]
  rw [lookdown_table, htable, hown, List.filter_map, List.map_map, hheap]
  have hid : Binding.node ∘ (fun m => (⟨n, Store.keyText s₀.heap m, m⟩ : Binding)) = id := rfl
  rw [hid, List.map_id]
  apply List.filter_congr
  intro m hm
  have hlookdown : (s₀.heap.get m).type.has Flag.lookdown = true := by
    rw [(hdoc.member n m hin hm).2 hobject]
    decide
  simp [hlookdown]

end IsDocument

end Trieste.Json
