import Trieste.Ast.Parents
import Trieste.Ast.Trees

namespace Trieste
set_option autoImplicit true
open Library

namespace Heap

theorem children_foldl_adopt (h : Heap) (p : Node) (ns : List Node) (m : Node) :
    ((ns.foldl (·.adopt p) h).get m).children = (h.get m).children := by
  induction ns generalizing h with
  | nil => rfl
  | cons n ns ih => exact (ih (h.adopt p n)).trans ((h.adopt_adopted p n).children m)

/-- The states before and after an operation that edits a node, if any, and attaches nodes. -/
structure Touched (edited : Option Node) (attached : List Node) (h h' : Heap) : Prop where
  length : h.nodes.length ≤ h'.nodes.length
  children : ∀ q < h.nodes.length, q ∉ edited → (h'.get q).children = (h.get q).children
  parent : ∀ c < h.nodes.length, c ∉ attached → (h'.get c).parent = (h.get c).parent ∨
    (∃ p ∈ edited, (h.get c).parent = some p) ∧ (h'.get c).parent = none
  location : ∀ c < h.nodes.length, (h'.get c).location = (h.get c).location
  added : ∀ q, ∀ c ∈ (h'.get q).children,
    c ∈ (h.get q).children ∨ c ∈ attached ∨ h.nodes.length ≤ c

namespace Touched

theorem refl (edited : Option Node) (attached : List Node) (h : Heap) :
    Touched edited attached h h :=
  ⟨Nat.le_refl _, fun _ _ _ => rfl, fun _ _ _ => .inl rfl, fun _ _ => rfl, fun _ _ => .inl⟩

theorem trans (h : Touched (some p) ns heap heap₁) (h' : Touched (some p) ns heap₁ heap₂) :
    Touched (some p) ns heap heap₂ := by
  refine ⟨h.length.trans h'.length, fun q hq hp => ?_, fun c hc hns => ?_, fun c hc => ?_,
    fun q c hc => ?_⟩
  · exact (h'.children q (hq.trans_le h.length) hp).trans (h.children q hq hp)
  · rcases h.parent c hc hns with hsame | ⟨hp, hnone⟩
    · have hrest := h'.parent c (hc.trans_le h.length) hns
      rwa [hsame] at hrest
    · rcases h'.parent c (hc.trans_le h.length) hns with hsame | ⟨-, hnone'⟩
      · exact .inr ⟨hp, hsame.trans hnone⟩
      · exact .inr ⟨hp, hnone'⟩
  · exact (h'.location c (hc.trans_le h.length)).trans (h.location c hc)
  · rcases h'.added q c hc with hmid | hns | hnew
    · exact h.added q c hmid
    · exact .inr (.inl hns)
    · exact .inr (.inr (h.length.trans hnew))

theorem mono (h : Touched edited ns heap heap') (hsub : ns ⊆ ns') :
    Touched edited ns' heap heap' :=
  ⟨h.length, h.children, fun c hc hns => h.parent c hc fun hm => hns (hsub hm), h.location,
    fun q c hc => (h.added q c hc).imp_right (Or.imp_left fun hm => hsub hm)⟩

theorem of_new (h : Touched edited ns heap heap') (hnew : ∀ n ∈ ns, heap.nodes.length ≤ n) :
    Touched edited [] heap heap' := by
  refine ⟨h.length, h.children, fun c hc _ => h.parent c hc fun hm => ?_, h.location,
    fun q c hc => ?_⟩
  · exact absurd hc (Nat.not_lt.2 (hnew c hm))
  · rcases h.added q c hc with hsame | hns | hle
    · exact .inl hsame
    · exact .inr (.inr (hnew c hns))
    · exact .inr (.inr hle)

theorem setChildren {h : Heap} {children : List Node}
    (hsub : ∀ c ∈ children, c ∈ (h.get p).children ∨ c ∈ ns) :
    Touched (some p) ns h (h.setChildren p children) := by
  refine ⟨Nat.le_of_eq (length_setChildren ..).symm, fun q _ hq => ?_, fun c _ _ => ?_, fun c _ => ?_,
    fun q c hc => ?_⟩
  · rw [children_setChildren, if_neg fun heq => hq (congrArg some heq.1)]
  · exact .inl (parent_setChildren ..)
  · exact proj_modify (π := NodeDef.location) h p c _ fun _ => rfl
  · rw [children_setChildren] at hc
    split at hc
    · next heq => exact heq.1 ▸ (hsub c hc).imp_right .inl
    · exact .inl hc

theorem adopt (h : Heap) (edited : Option Node) (p n : Node) :
    Touched edited [n] h (h.adopt p n) := by
  have ha := h.adopt_adopted p n
  refine ⟨Nat.le_of_eq ha.length.symm, fun q _ _ => ha.children q, fun c _ hc => ?_,
    fun c _ => location_adopt h p n c, fun q c hc => .inl (ha.children q ▸ hc)⟩
  rw [ha.parent, if_neg fun heq => hc (List.mem_singleton.2 heq.1.symm)]
  exact .inl rfl

theorem foldl_adopt (h : Heap) (p : Node) (ns : List Node) :
    Touched (some p) ns h (ns.foldl (·.adopt p) h) := by
  induction ns generalizing h with
  | nil => exact refl ..
  | cons n ns ih =>
    have hfirst := (adopt h (some p) p n).mono (List.cons_subset_cons n (List.nil_subset ns))
    exact hfirst.trans ((ih (h.adopt p n)).mono (List.subset_cons_self n ns))

theorem orphan (h : Heap) (p n : Node) (ns : List Node) :
    Touched (some p) ns h (h.orphan p n) := by
  obtain ⟨hlen, -, hchildren, -, hparent⟩ := h.orphan_kept p n
  refine ⟨Nat.le_of_eq hlen.symm, fun q _ _ => hchildren q, fun c _ _ => ?_, fun c _ => ?_,
    fun q c hc => .inl (hchildren q ▸ hc)⟩
  · rw [hparent]
    split
    · next heq => exact .inr ⟨⟨p, rfl, heq.1 ▸ heq.2⟩, rfl⟩
    · exact .inl rfl
  · unfold Heap.orphan
    split
    · exact proj_modify (π := NodeDef.location) h n c _ fun _ => rfl
    · rfl

theorem foldl_orphan (h : Heap) (p : Node) (erased ns : List Node) :
    Touched (some p) ns h (erased.foldl (·.orphan p) h) := by
  induction erased generalizing h with
  | nil => exact refl ..
  | cons n erased ih => exact (orphan h p n ns).trans (ih (h.orphan p n))

theorem create (h : Heap) (edited : Option Node) (ns : List Node) (type : Token)
    (location : Location) : Touched edited ns h (h.create type location).1 := by
  have hget : ∀ n < h.nodes.length, (h.create type location).1.get n = h.get n := by
    intro n hn
    rw [get_create, if_neg (Nat.ne_of_lt hn)]
  refine ⟨?_, fun q hq _ => ?_, fun c hc _ => .inl ?_, fun c hc => ?_, fun q c hc => ?_⟩
  · rw [length_create]
    exact Nat.le_succ _
  · rw [hget q hq]
  · rw [hget c hc]
  · rw [hget c hc]
  · rw [get_create] at hc
    split at hc
    · cases hc
    · exact .inl hc

theorem insertRange (h : Heap) (p : Node) (pos : Nat) (ns : List Node) :
    Touched (some p) ns h (h.insertRange p pos ns) := by
  unfold Heap.insertRange
  split
  · exact refl ..
  · apply (foldl_adopt h p ns).trans
    apply setChildren
    intro c hc
    rw [children_foldl_adopt]
    exact List.mem_append.1 ((perm_insertAt _ pos ns).mem_iff.1 hc)

theorem insertCopies (h : Heap) (p : Node) (pos count : Nat) (type : Token) :
    Touched (some p) [] h (h.insertCopies p pos count type) := by
  unfold Heap.insertCopies
  split
  · exact refl ..
  · have hnew := create h (some p) (List.replicate count h.nodes.length) type {}
    apply (hnew.trans (insertRange _ p pos _)).of_new
    intro n hn
    exact Nat.le_of_eq (List.eq_of_mem_replicate hn).symm

theorem insert (h : Heap) (p : Node) (pos : Nat) (n : Option Node) :
    Touched (some p) n.toList h (h.insert p pos n) := by
  cases n with
  | none => exact refl ..
  | some n =>
    apply (adopt h (some p) p n).trans
    apply setChildren
    intro c hc
    rw [(h.adopt_adopted p n).children]
    exact List.mem_append.1 ((perm_insertAt _ pos [n]).mem_iff.1 hc)

theorem erase (h : Heap) (p : Node) (first last : Nat) (ns : List Node) :
    Touched (some p) ns h (h.erase p first last) := by
  obtain ⟨-, -, hchildren, -, -⟩ :=
    h.foldl_orphan_kept p (((h.get p).children.take last).drop first)
  apply (foldl_orphan h p _ ns).trans
  apply setChildren
  intro c hc
  rw [hchildren]
  rcases List.mem_append.1 hc with hbefore | hbehind
  · exact .inl (List.mem_of_mem_take hbefore)
  · exact .inl (List.mem_of_mem_drop hbehind)

theorem popBack (h : Heap) (p : Node) (ns : List Node) :
    Touched (some p) ns h (h.popBack p).1 := by
  unfold Heap.popBack
  split
  · exact refl ..
  · have hdrop : Touched (some p) ns h (h.setChildren p (h.get p).children.dropLast) :=
      setChildren fun c hc => .inl ((List.dropLast_sublist _).subset hc)
    exact hdrop.trans (orphan _ p _ ns)

theorem replace (hr : Heap.replace h p n₁ n₂ = some h') : Touched (some p) n₂.toList h h' := by
  cases n₂ with
  | some n₂ =>
    obtain ⟨-, rfl⟩ := replace_eq_some hr
    apply ((orphan h p n₁ [n₂]).trans (adopt _ (some p) p n₂)).trans
    apply setChildren
    intro c hc
    obtain ⟨-, -, hchildren, -, -⟩ := h.orphan_kept p n₁
    rw [((h.orphan p n₁).adopt_adopted p n₂).children, hchildren]
    exact (List.mem_or_eq_of_mem_set hc).imp_right List.mem_singleton.2
  | none =>
    simp only [Heap.replace] at hr
    split at hr
    · cases hr
    · cases hr
      exact setChildren fun c hc => .inl (List.mem_of_mem_eraseIdx hc)

theorem clone (hc : Heap.clone fuel h n = some (h', copy)) (ns : List Node) :
    Touched none ns h h' := by
  obtain ⟨hframe, -⟩ := (Above.length h).clone (Nat.le_refl _) hc
  refine ⟨hframe.length, fun q hq _ => ?_, fun c hc _ => .inl ?_, fun c hc => ?_, fun q c hc => ?_⟩
  · rw [hframe.kept q hq]
  · rw [hframe.kept c hc]
  · rw [hframe.kept c hc]
  · by_cases hq : q < h.nodes.length
    · rw [hframe.kept q hq] at hc
      exact .inl hc
    · exact .inr (.inr (hframe.above.children q c (Nat.le_of_not_lt hq) hc))

end Touched

end Heap

namespace NodeOp

def edited : NodeOp → Option Node
  | build (.create _ _) | build (.clone _) => none
  | build (.pushFront p _) | build (.pushBack p _) | build (.insert p _ _)
  | build (.insertRange p _ _) | build (.insertCopies p _ _ _) | build (.replace p _ _)
  | build (.erase p _ _) | build (.popBack p) => some p
  | remove p _ | replaceAt p _ _ => some p

theorem touched {op : NodeOp} (h : op.Performs heap heap') :
    Heap.Touched op.edited op.attached heap heap' := by
  cases op with
  | remove p n => exact .replace h
  | replaceAt p index n =>
    obtain ⟨n₁, -, hreplace⟩ := Option.bind_eq_some_iff.1 h
    exact .replace hreplace
  | build op =>
    cases op with
    | create type location =>
      cases h
      exact .create heap none [] type location
    | pushFront p n =>
      cases h
      cases n with
      | none => exact .refl ..
      | some n =>
        apply Heap.Touched.trans (.setChildren _) (.adopt _ (some p) p n)
        intro c hc
        exact (List.mem_cons.1 hc).symm.imp_right List.mem_singleton.2
    | pushBack p n =>
      cases h
      cases n with
      | none => exact .refl ..
      | some n =>
        apply Heap.Touched.trans (.setChildren _) (.adopt _ (some p) p n)
        intro c hc
        exact List.mem_append.1 hc
    | insert p pos n =>
      cases h
      exact .insert heap p pos n
    | insertRange p pos ns =>
      cases h
      exact .insertRange heap p pos ns
    | insertCopies p pos count type =>
      cases h
      exact .insertCopies heap p pos count type
    | replace p n₁ n₂ => exact .replace h
    | erase p first last =>
      cases h
      exact .erase heap p first last []
    | popBack p =>
      cases h
      exact .popBack heap p []
    | clone n =>
      obtain ⟨fuel, copy, hclone⟩ := h
      exact .clone hclone []

end NodeOp

end Trieste
