import Mathlib.Data.List.Nodup
import Trieste.Ast.Trees
import Trieste.Json

namespace Trieste
set_option autoImplicit true
open Relation

namespace Tree

def member (location key : Location) (value : Tree) : Tree :=
  .node .jsonMember location [.node .jsonKey key [], value]

def keyText : Tree → String
  | .node _ _ (.node _ key _ :: _) => key.view
  | _ => ""

end Tree

namespace Json

theorem depth_value_le (h : (Tree.node type location ts).depth ≤ bound + 1)
    (hmem : .member l key v ∈ ts) : v.depth ≤ bound := by
  have hle := Heap.depth_child_le h hmem
  rw [Tree.member, Tree.depth, Tree.depthAll, Tree.depthAll] at hle
  omega

/-- The value is under the key in one of the members. -/
def Entry (members : List Tree) (key : String) (value : Tree) : Prop :=
  ∃ location keyLocation, Tree.member location keyLocation value ∈ members ∧
    keyLocation.view = key

section Relations
variable {α : Type} (stod : String → Option α)

/-- A value whose objects have distinct keys and whose numbers `stod` accepts, or a document of
such values. -/
inductive Comparable : Tree → Prop
  | object (ht : type = .jsonObject) (hm : ∀ m ∈ members, ∃ l key value, m = .member l key value)
      (hv : ∀ key value, Entry members key value → Comparable value)
      (hkeys : (members.map Tree.keyText).Nodup) : Comparable (.node type l members)
  | list (ht : type ∈ [.jsonArray, .top]) (hv : ∀ t ∈ ts, Comparable t) :
      Comparable (.node type l ts)
  | number (ht : type = .jsonNumber) (hn : (stod l.view).isSome) : Comparable (.node type l ts)
  | atom (ht : type ∈ [.jsonString, .jsonTrue, .jsonFalse, .jsonNull]) :
      Comparable (.node type l ts)

/-- The values are the same up to the order of members and the spelling of numbers. -/
inductive Same [BEq α] : Tree → Tree → Prop
  | object (ht : type = .jsonObject)
      (hkeys : ∀ key, (∃ v, Entry members key v) ↔ ∃ v, Entry members' key v)
      (hv : ∀ key v v', Entry members key v → Entry members' key v' → Same v v') :
      Same (.node type l members) (.node type l' members')
  | list (ht : type ∈ [.jsonArray, .top]) (hlen : ts.length = ts'.length)
      (hv : ∀ (i : Nat) t t', ts[i]? = some t → ts'[i]? = some t' → Same t t') :
      Same (.node type l ts) (.node type l' ts')
  | number (ht : type = .jsonNumber) (hx : stod l.view = some x) (hy : stod l'.view = some y)
      (h : (x == y) = true) : Same (.node type l ts) (.node type l' ts')
  | atom (ht : type ∈ [.jsonString, .jsonTrue, .jsonFalse, .jsonNull]) (h : l.view = l'.view) :
      Same (.node type l ts) (.node type l' ts')

/-- Somewhere in a value, in an element of a list or a value of a member, a tree is changed. -/
inductive Inside (R : Tree → Tree → Prop) : Tree → Tree → Prop
  | here (h : R t t') : Inside R t t'
  | element {before after : List Tree} (ht : type ∈ [.jsonArray, .top]) (h : Inside R t t') :
      Inside R (.node type l (before ++ t :: after)) (.node type l (before ++ t' :: after))
  | value {before after : List Tree} (ht : type = .jsonObject) (h : Inside R t t') :
      Inside R (.node type l (before ++ .member l' key t :: after))
        (.node type l (before ++ .member l' key t' :: after))

/-- The members of an object have been put into another order. -/
inductive Permuted : Tree → Tree → Prop
  | members (ht : type = .jsonObject) (h : List.Perm members members') :
      Permuted (.node type l members) (.node type l members')

end Relations

section Same
variable {α : Type} {stod : String → Option α}

/-- Where the keys are distinct, there is one value under a key. -/
theorem Entry.unique (h : Entry members key v) (h' : Entry members key v')
    (hkeys : (members.map Tree.keyText).Nodup) : v = v' := by
  obtain ⟨l, k, hm, rfl⟩ := h
  obtain ⟨l', k', hm', heq⟩ := h'
  have hsame := List.inj_on_of_nodup_map hkeys hm hm' heq.symm
  cases hsame
  rfl

theorem list_not_atom : ∀ type ∈ [Token.jsonArray, .top],
    type ∉ [Token.jsonString, .jsonTrue, .jsonFalse, .jsonNull] := by
  decide

theorem entry_member {before after : List Tree} :
    Entry (before ++ .member l k t :: after) key v ↔
      Entry (before ++ after) key v ∨ key = k.view ∧ v = t := by
  constructor
  · intro h
    obtain ⟨l', k', hm, hkey⟩ := h
    rw [List.mem_append, List.mem_cons] at hm
    rcases hm with hm | heq | hm
    · exact .inl ⟨l', k', List.mem_append_left _ hm, hkey⟩
    · cases heq
      exact .inr ⟨hkey.symm, rfl⟩
    · exact .inl ⟨l', k', List.mem_append_right _ hm, hkey⟩
  · intro h
    rcases h with ⟨l', k', hm, hkey⟩ | ⟨rfl, rfl⟩
    · refine ⟨l', k', ?_, hkey⟩
      rw [List.mem_append, List.mem_cons]
      exact (List.mem_append.1 hm).imp_right .inr
    · exact ⟨l, k, List.mem_append_right _ List.mem_cons_self, rfl⟩

theorem Inside.part (h : Inside R t t') (ht : Comparable stod t) :
    ∃ u u', R u u' ∧ Comparable stod u := by
  induction h with
  | here h => exact ⟨_, _, h, ht⟩
  | element hlist h ih =>
    cases ht with
    | object htype | number htype =>
      rw [htype] at hlist
      exact absurd hlist (by decide)
    | list _ hv => exact ih (hv _ (by simp))
    | atom htype => exact absurd htype (list_not_atom _ hlist)
  | value hobject h ih =>
    subst hobject
    cases ht with
    | object _ hm hv => exact ih (hv _ _ (entry_member.2 (.inr ⟨rfl, rfl⟩)))
    | list htype | number htype | atom htype => exact absurd htype (by decide)

variable [BEq α]

theorem Same.refl [ReflBEq α] (h : Comparable stod t) : Same stod t t := by
  induction h with
  | object ht hm hv hkeys ih =>
    apply Same.object ht fun key => Iff.rfl
    intro key v v' hentry hentry'
    cases hentry.unique hentry' hkeys
    exact ih key v hentry
  | list ht hv ih =>
    apply Same.list ht rfl
    intro i t t' hi hi'
    rw [hi] at hi'
    cases hi'
    exact ih t (List.mem_of_getElem? hi)
  | number ht hn =>
    obtain ⟨x, hx⟩ := Option.isSome_iff_exists.1 hn
    exact .number ht hx hx BEq.rfl
  | atom ht => exact .atom ht rfl

theorem Same.symm [PartialEquivBEq α] (h : Same stod t u) : Same stod u t := by
  induction h with
  | object ht hkeys hv ih =>
    exact .object ht (fun key => (hkeys key).symm) fun key v v' h h' => ih key v' v h' h
  | list ht hlen hv ih => exact .list ht hlen.symm fun i t t' hi hi' => ih i t' t hi' hi
  | number ht hx hy h => exact .number ht hy hx (BEq.symm h)
  | atom ht h => exact .atom ht h.symm

theorem Same.trans [PartialEquivBEq α] (h : Same stod t u) (h' : Same stod u v) :
    Same stod t v := by
  induction h generalizing v with
  | object ht hkeys hv ih =>
    subst ht
    cases h' with
    | object ht' hkeys' hv' =>
      apply Same.object rfl fun key => (hkeys key).trans (hkeys' key)
      intro key v v'' hentry hentry''
      obtain ⟨v', hentry'⟩ := (hkeys key).1 ⟨v, hentry⟩
      exact ih key v v' hentry hentry' (hv' key v' v'' hentry' hentry'')
    | list ht' | number ht' | atom ht' => exact absurd ht' (by decide)
  | @list type ts ts' l l' ht hlen hv ih =>
    cases h' with
    | object ht' | number ht' =>
      rw [ht'] at ht
      exact absurd ht (by decide)
    | list ht' hlen' hv' =>
      apply Same.list ht (hlen.trans hlen')
      intro i t t'' hi hi''
      have hlt : i < ts'.length := by
        rw [← hlen]
        exact (List.getElem?_eq_some_iff.1 hi).1
      have hi' := List.getElem?_eq_getElem hlt
      exact ih i t _ hi hi' (hv' i _ t'' hi' hi'')
    | atom ht' => exact absurd ht' (list_not_atom _ ht)
  | number ht hx hy h =>
    subst ht
    cases h' with
    | number ht' hy' hz h' =>
      rw [hy] at hy'
      cases hy'
      exact .number rfl hx hz (PartialEquivBEq.trans h h')
    | object ht' | list ht' | atom ht' => exact absurd ht' (by decide)
  | atom ht h =>
    cases h' with
    | object ht' | number ht' =>
      rw [ht'] at ht
      exact absurd ht (by decide)
    | list ht' => exact absurd ht (list_not_atom _ ht')
    | atom ht' h' => exact .atom ht (h.trans h')

theorem getElem?_changed {P : Tree → Tree → Prop} {before after : List Tree}
    (hP : ∀ u ∈ before ++ after, P u u) (ht : P t t') (i : Nat) (u u' : Tree)
    (hi : (before ++ t :: after)[i]? = some u) (hi' : (before ++ t' :: after)[i]? = some u') :
    P u u' := by
  induction before generalizing i with
  | nil =>
    cases i with
    | zero =>
      cases hi
      cases hi'
      exact ht
    | succ i =>
      rw [List.nil_append, List.getElem?_cons_succ] at hi hi'
      rw [hi] at hi'
      cases hi'
      exact hP u (List.mem_of_getElem? hi)
  | cons b before ih =>
    rw [List.cons_append, List.forall_mem_cons] at hP
    cases i with
    | zero =>
      cases hi
      cases hi'
      exact hP.1
    | succ i => exact ih hP.2 i hi hi'

/-- A change that keeps the value of a part keeps the value of the whole. -/
theorem Inside.same [ReflBEq α]
    (hR : ∀ t t', R t t' → Comparable stod t → Comparable stod t' ∧ Same stod t t')
    (h : Inside R t t') (ht : Comparable stod t) : Comparable stod t' ∧ Same stod t t' := by
  induction h with
  | here h => exact hR _ _ h ht
  | @element type t t' l before after hlist h ih =>
    have hall : ∀ u ∈ before ++ t :: after, Comparable stod u := by
      cases ht with
      | object htype | number htype =>
        rw [htype] at hlist
        exact absurd hlist (by decide)
      | list _ hv => exact hv
      | atom htype => exact absurd htype (list_not_atom _ hlist)
    simp only [List.mem_append, List.mem_cons] at hall
    obtain ⟨ht', hsame⟩ := ih (hall t (.inr (.inl rfl)))
    constructor
    · apply Comparable.list hlist
      intro u hu
      rw [List.mem_append, List.mem_cons] at hu
      rcases hu with hu | rfl | hu
      · exact hall u (.inl hu)
      · exact ht'
      · exact hall u (.inr (.inr hu))
    · apply Same.list hlist (by simp)
      apply getElem?_changed _ hsame
      intro u hu
      rw [List.mem_append] at hu
      exact Same.refl (hall u (hu.imp_right .inr))
  | @value type t t' l l' k before after hobject h ih =>
    subst hobject
    cases ht with
    | object _ hm hv hkeys =>
      have hentry : Entry (before ++ .member l' k t :: after) k.view t :=
        entry_member.2 (.inr ⟨rfl, rfl⟩)
      obtain ⟨ht', hsame⟩ := ih (hv _ _ hentry)
      constructor
      · apply Comparable.object rfl
        · intro m hmem
          rw [List.mem_append, List.mem_cons] at hmem
          rcases hmem with hmem | rfl | hmem
          · exact hm m (by simp [hmem])
          · exact ⟨l', k, t', rfl⟩
          · exact hm m (by simp [hmem])
        · intro key v hentry
          rcases entry_member.1 hentry with hentry | ⟨-, rfl⟩
          · exact hv key v (entry_member.2 (.inl hentry))
          · exact ht'
        · rw [List.map_append, List.map_cons] at hkeys ⊢
          exact hkeys
      · apply Same.object rfl
        · intro key
          simp only [entry_member, exists_or, exists_and_left, exists_eq]
        · intro key v v' hv₁ hv₂
          rcases entry_member.1 hv₂ with hv₂ | ⟨rfl, rfl⟩
          · cases hv₁.unique (entry_member.2 (.inl hv₂)) hkeys
            exact Same.refl (hv key v hv₁)
          · rw [hv₁.unique hentry hkeys]
            exact hsame
    | list htype | number htype | atom htype => exact absurd htype (by decide)

theorem Permuted.same [ReflBEq α] (h : Permuted t t') (ht : Comparable stod t) :
    Comparable stod t' ∧ Same stod t t' := by
  cases h with
  | @members _ members members' _ hobject hperm =>
    subst hobject
    cases ht with
    | object _ hm hv hkeys =>
      have hentry : ∀ key v, Entry members key v ↔ Entry members' key v := fun key v =>
        exists_congr fun l => exists_congr fun k => and_congr_left' hperm.mem_iff
      constructor
      · exact .object rfl (fun m hm' => hm m (hperm.mem_iff.2 hm'))
          (fun key v hv' => hv key v ((hentry key v).2 hv')) ((hperm.map _).nodup_iff.1 hkeys)
      · apply Same.object rfl fun key => exists_congr (hentry key)
        intro key v v' hv₁ hv₂
        cases hv₁.unique ((hentry key v').2 hv₂) hkeys
        exact Same.refl (hv key v hv₁)
    | list htype | number htype | atom htype => exact absurd htype (by decide)

end Same

end Json

end Trieste
