import Mathlib.Data.List.Nodup
import Trieste.Ast.Parents
import Trieste.Parse.Make

namespace Trieste
set_option autoImplicit true
open Relation

namespace Heap

/-- The nodes below the root on the way down to the last one, which comes first. Each of them is
the last child of the next one. -/
inductive Open (h : Heap) (top : Node) : List Node → Prop
  | root : (h.get top).parent = none → Open h top []
  | child : Open h top ns → (h.get n).parent = some (ns.headD top) →
      (h.get (ns.headD top)).children.getLast? = some n → Open h top (n :: ns)

namespace Open

theorem parent_top (h : Open heap top ns) : (heap.get top).parent = none := by
  induction h with
  | root hnone => exact hnone
  | child _ _ _ ih => exact ih

theorem inTree (h : Open heap top ns) : heap.InTree top (ns.headD top) := by
  induction h with
  | root => exact .refl
  | child _ _ hlast ih => exact ih.tail (List.mem_of_getLast? hlast)

/-- The open nodes are the ancestors of the first one. -/
theorem unique (h : Open heap top ns) (h' : Open heap top ns') (hhead : ns.headD top = ns'.headD top) :
    ns = ns' := by
  induction h generalizing ns' with
  | root hnone =>
    cases h' with
    | root => rfl
    | @child ns' n' _ hparent =>
      have htop : top = n' := hhead
      rw [← htop, hnone] at hparent
      cases hparent
  | @child ns n h hparent _ ih =>
    cases h' with
    | root hnone =>
      have htop : n = top := hhead
      rw [← htop, hparent] at hnone
      cases hnone
    | @child ns' n' h' hparent' _ =>
      obtain rfl : n = n' := hhead
      rw [hparent] at hparent'
      rw [ih h' (Option.some.inj hparent')]

theorem suffix (h : Open heap top ns) (hs : ns' <:+ ns) : Open heap top ns' := by
  induction h with
  | root hnone =>
    rw [List.suffix_nil.1 hs]
    exact .root hnone
  | child h hparent hlast ih =>
    rcases List.suffix_cons_iff.1 hs with rfl | hs
    · exact .child h hparent hlast
    · exact ih hs

theorem not_mem (h : Open heap top (n :: ns)) : n ∉ ns := by
  intro hmem
  obtain ⟨before, after, rfl⟩ := List.append_of_mem hmem
  have hafter : Open heap top (n :: after) := h.suffix ⟨n :: before, by simp⟩
  have heq := congrArg List.length (h.unique hafter rfl)
  simp at heq
  omega

theorem top_not_mem (h : Open heap top ns) : top ∉ ns := by
  intro hmem
  obtain ⟨before, after, rfl⟩ := List.append_of_mem hmem
  have hafter : Open heap top (top :: after) := h.suffix ⟨before, rfl⟩
  have heq := hafter.unique (.root h.parent_top) rfl
  cases heq

theorem nodup (h : Open heap top ns) : ns.Nodup := by
  induction h with
  | root => exact List.nodup_nil
  | child h hparent hlast ih => exact List.nodup_cons.2 ⟨(Open.child h hparent hlast).not_mem, ih⟩

theorem lt (h : Open heap top ns) (hn : n ∈ ns) : n < heap.nodes.length := by
  induction h with
  | root => cases hn
  | child _ hparent _ ih =>
    rcases List.mem_cons.1 hn with rfl | hn
    · by_contra hle
      rw [get_of_le heap (Nat.le_of_not_lt hle)] at hparent
      cases hparent
    · exact ih hn

/-- There are fewer open nodes below the root than nodes. -/
theorem length_lt (h : Open heap top ns) (htop : top < heap.nodes.length) :
    ns.length < heap.nodes.length := by
  have hnodup : (top :: ns).Nodup := List.nodup_cons.2 ⟨h.top_not_mem, h.nodup⟩
  have hsub : (top :: ns) ⊆ List.range heap.nodes.length := by
    intro n hn
    rcases List.mem_cons.1 hn with rfl | hn
    · exact List.mem_range.2 htop
    · exact List.mem_range.2 (h.lt hn)
  have hle := (List.subperm_of_subset hnodup hsub).length_le
  rwa [List.length_range] at hle

/-- Only the children of the first node may change. -/
theorem congr {heap' : Heap} (h : Open heap top ns)
    (hparent : ∀ k ∈ top :: ns, (heap'.get k).parent = (heap.get k).parent)
    (hchildren : ∀ k ∈ top :: ns, k ≠ ns.headD top →
      (heap'.get k).children = (heap.get k).children) : Open heap' top ns := by
  induction h with
  | root hnone =>
    apply Open.root
    rw [hparent top List.mem_cons_self]
    exact hnone
  | @child ns n h hp hlast ih =>
    have hopen := Open.child h hp hlast
    have hsub : ∀ k ∈ top :: ns, k ∈ top :: n :: ns := by
      intro k hk
      rcases List.mem_cons.1 hk with rfl | hk
      · exact List.mem_cons_self
      · exact List.mem_cons_of_mem _ (List.mem_cons_of_mem _ hk)
    have hne : ∀ k ∈ top :: ns, k ≠ n := by
      intro k hk heq
      rw [heq] at hk
      rcases List.mem_cons.1 hk with hk | hk
      · exact hopen.top_not_mem (hk ▸ List.mem_cons_self)
      · exact hopen.not_mem hk
    have hhead : ns.headD top ∈ top :: ns := by
      cases ns with
      | nil => exact List.mem_cons_self
      | cons p ns => exact List.mem_cons_of_mem _ List.mem_cons_self
    apply Open.child
    · apply ih
      · intro k hk
        exact hparent k (hsub k hk)
      · intro k hk _
        exact hchildren k (hsub k hk) (hne k hk)
    · rw [hparent n (List.mem_cons_of_mem _ List.mem_cons_self)]
      exact hp
    · rw [hchildren _ (hsub _ hhead) (hne _ hhead)]
      exact hlast

end Open

/-- The states before and after new nodes come under a node. -/
structure Grown (h h' : Heap) (n : Node) : Prop where
  length : h.nodes.length ≤ h'.nodes.length
  type : ∀ k < h.nodes.length, (h'.get k).type = (h.get k).type
  parent : ∀ k < h.nodes.length, (h'.get k).parent = (h.get k).parent
  children : ∀ k < h.nodes.length, k ≠ n → (h'.get k).children = (h.get k).children
  kept : ∀ c ∈ (h.get n).children, c ∈ (h'.get n).children
  reached : ∀ k, h.nodes.length ≤ k → k < h'.nodes.length → h'.InTree n k

theorem Grown.inTree {h : Heap} (hg : Grown h h' n) (hin : h.InTree a b) : h'.InTree a b := by
  have hmono : ∀ p c, h.HasChild p c → h'.HasChild p c := by
    intro p c hc
    by_cases hp : p = n
    · rw [hp] at hc ⊢
      exact hg.kept c hc
    · rw [HasChild, hg.children p (lt_of_mem_children hc) hp]
      exact hc
  exact ReflTransGen.mono hmono a b hin

theorem grown_extendLocation (h : Heap) (k n : Node) (loc : Location) :
    Grown h (h.extendLocation k loc) n := by
  have htype : ∀ m, ((h.extendLocation k loc).get m).type = (h.get m).type := fun m =>
    proj_modify (π := NodeDef.type) h k m _ fun _ => rfl
  have hparent : ∀ m, ((h.extendLocation k loc).get m).parent = (h.get m).parent := fun m =>
    proj_modify (π := NodeDef.parent) h k m _ fun _ => rfl
  have hchildren : ∀ m, ((h.extendLocation k loc).get m).children = (h.get m).children := fun m =>
    proj_modify (π := NodeDef.children) h k m _ fun _ => rfl
  have hlen : (h.extendLocation k loc).nodes.length = h.nodes.length := length_modify ..
  refine ⟨Nat.le_of_eq hlen.symm, fun m _ => htype m, fun m _ => hparent m,
    fun m _ _ => hchildren m, fun c hc => ?_, fun m hle hlt => ?_⟩
  · rw [hchildren]
    exact hc
  · rw [hlen] at hlt
    exact absurd hlt (Nat.not_lt.2 hle)

theorem Grown.trans {h₁ h₂ h₃ : Heap} (h : Grown h₁ h₂ n) (h' : Grown h₂ h₃ n) : Grown h₁ h₃ n := by
  have hlt : ∀ k < h₁.nodes.length, k < h₂.nodes.length := fun k hk =>
    Nat.lt_of_lt_of_le hk h.length
  refine ⟨Nat.le_trans h.length h'.length, fun k hk => ?_, fun k hk => ?_, fun k hk hne => ?_,
    fun c hc => h'.kept c (h.kept c hc), fun k hle hk => ?_⟩
  · rw [h'.type k (hlt k hk), h.type k hk]
  · rw [h'.parent k (hlt k hk), h.parent k hk]
  · rw [h'.children k (hlt k hk) hne, h.children k hk hne]
  · rcases Nat.lt_or_ge k h₂.nodes.length with hold | hnew
    · exact h'.inTree (h.reached k hle hold)
    · exact h'.reached k hnew hk

theorem inTree_pushBack {h : Heap} (hp : p < h.nodes.length) (n : Node) (hin : h.InTree a b) :
    (h.pushBack p (some n)).InTree a b := by
  have hmono : ∀ a b, h.HasChild a b → (h.pushBack p (some n)).HasChild a b := by
    intro a b hab
    rw [HasChild, children_pushBack h hp]
    split
    · next heq =>
      rw [heq]
      exact List.mem_append_left _ hab
    · exact hab
  exact ReflTransGen.mono hmono a b hin

theorem hasChild_pushBack {h : Heap} (hp : p < h.nodes.length) (n : Node) :
    (h.pushBack p (some n)).HasChild p n := by
  rw [HasChild, children_pushBack h hp, if_pos rfl]
  exact List.mem_append_right _ (List.mem_singleton_self n)

theorem grown_pushBack {h h' : Heap} (hn : n < h.nodes.length)
    (hg : Grown (h.create type loc).1 h' h.nodes.length) :
    Grown h (h'.pushBack n (some h.nodes.length)) n := by
  have hlen : h.nodes.length + 1 ≤ h'.nodes.length := by
    have hle := hg.length
    rwa [length_create] at hle
  have hn' : n < h'.nodes.length := Nat.lt_of_lt_of_le (Nat.lt_succ_of_lt hn) hlen
  have hold : ∀ k < h.nodes.length, k < (h.create type loc).1.nodes.length := by
    intro k hk
    rw [length_create]
    exact Nat.lt_succ_of_lt hk
  have hget : ∀ k < h.nodes.length, (h.create type loc).1.get k = h.get k := by
    intro k hk
    rw [get_create, if_neg (Nat.ne_of_lt hk)]
  refine ⟨?_, fun k hk => ?_, fun k hk => ?_, fun k hk hne => ?_, fun c hc => ?_, fun k hle hk => ?_⟩
  · rw [length_pushBack]
    exact Nat.le_of_succ_le hlen
  · rw [type_pushBack, hg.type k (hold k hk), hget k hk]
  · rw [parent_pushBack, if_neg fun heq => Nat.ne_of_gt hk heq.1, hg.parent k (hold k hk), hget k hk]
  · rw [children_pushBack h' hn', if_neg (Ne.symm hne),
      hg.children k (hold k hk) (Nat.ne_of_lt hk), hget k hk]
  · rw [children_pushBack h' hn', if_pos rfl, hg.children n (hold n hn) (Nat.ne_of_lt hn), hget n hn]
    exact List.mem_append_left _ hc
  · rw [length_pushBack] at hk
    have hroot := hasChild_pushBack hn' h.nodes.length
    rcases Nat.eq_or_lt_of_le hle with heq | hlt
    · rw [← heq]
      exact .single hroot
    · have hin := hg.reached k (by rwa [length_create]) hk
      exact .head hroot (inTree_pushBack hn' _ hin)

theorem Grown.refl (h : Heap) (n : Node) : Grown h h n :=
  ⟨Nat.le_refl _, fun _ _ => rfl, fun _ _ => rfl, fun _ _ _ => rfl, fun _ hc => hc,
    fun _ hle hlt => absurd hlt (Nat.not_lt.2 hle)⟩

theorem grown_append {h : Heap} (hn : n < h.nodes.length) (type : Token) (loc : Location) :
    Grown h ((h.create type loc).1.pushBack n (some h.nodes.length)) n :=
  grown_pushBack hn (.refl _ _)

/-- The states before and after the last child of a node comes under a new node in its place. -/
structure Wrapped (h h' : Heap) (p child s : Node) (t : Token) : Prop where
  fresh : s = h.nodes.length
  length : h'.nodes.length = h.nodes.length + 1
  type : ∀ k < h.nodes.length, (h'.get k).type = (h.get k).type
  typeSeq : (h'.get s).type = t
  parent : ∀ k < h.nodes.length, k ≠ child → (h'.get k).parent = (h.get k).parent
  parentSeq : (h'.get s).parent = some p
  children : ∀ k < h.nodes.length, k ≠ p → (h'.get k).children = (h.get k).children
  childrenParent : (h'.get p).children = (h.get p).children.dropLast ++ [s]
  childrenSeq : child ∈ (h'.get s).children

theorem popBack_wrapped {h : Heap} (hp : p < h.nodes.length) (hchild : child < h.nodes.length)
    (hlast : (h.get p).children.getLast? = some child) (t : Token) :
    ∃ h₁, h.popBack p = (h₁, some child) ∧ ∀ loc,
      Wrapped h (((h₁.create t loc).1.pushBack p (some h₁.nodes.length)).pushBack h₁.nodes.length
        (some child)) p child h₁.nodes.length t := by
  obtain ⟨hlen, htype, hchildren, -, hparent⟩ :=
    (h.setChildren p (h.get p).children.dropLast).orphan_kept p child
  have hpop : h.popBack p =
      ((h.setChildren p (h.get p).children.dropLast).orphan p child, some child) := by
    rw [popBack, hlast]
  refine ⟨_, hpop, fun loc => ?_⟩
  generalize (h.setChildren p (h.get p).children.dropLast).orphan p child = h₁ at *
  rw [length_setChildren] at hlen
  have hp₂ : p < (h₁.create t loc).1.nodes.length := by
    rw [length_create, hlen]
    exact Nat.lt_succ_of_lt hp
  have hseq : h₁.nodes.length < ((h₁.create t loc).1.pushBack p (some h₁.nodes.length)).nodes.length := by
    rw [length_pushBack, length_create]
    exact Nat.lt_succ_self _
  have hold : ∀ k < h.nodes.length, (h₁.create t loc).1.get k = h₁.get k := by
    intro k hk
    rw [get_create, hlen, if_neg (Nat.ne_of_lt hk)]
  have hnew : ∀ k < h.nodes.length, h₁.nodes.length ≠ k := by
    intro k hk heq
    rw [← heq, hlen] at hk
    exact Nat.lt_irrefl _ hk
  refine ⟨hlen, ?_, fun k hk => ?_, ?_, fun k hk hne => ?_, ?_, fun k hk hne => ?_, ?_, ?_⟩
  · rw [length_pushBack, length_pushBack, length_create, hlen]
  · rw [type_pushBack, type_pushBack, hold k hk, htype, type_setChildren]
  · rw [type_pushBack, type_pushBack, get_create, if_pos rfl]
  · rw [parent_pushBack, if_neg fun heq => hne heq.1.symm, parent_pushBack,
      if_neg fun heq => hnew k hk heq.1, hold k hk, hparent, if_neg fun heq => hne heq.1.symm,
      parent_setChildren]
  · rw [parent_pushBack, if_neg fun heq => hnew child hchild heq.1.symm, parent_pushBack, if_pos]
    refine ⟨rfl, ?_⟩
    rw [length_create]
    exact Nat.lt_succ_self _
  · rw [children_pushBack _ hseq, if_neg (hnew k hk), children_pushBack _ hp₂, if_neg (Ne.symm hne),
      hold k hk, hchildren, children_setChildren, if_neg fun heq => hne heq.1.symm]
  · rw [children_pushBack _ hseq, if_neg (hnew p hp), children_pushBack _ hp₂, if_pos rfl, hold p hp,
      hchildren, children_setChildren, if_pos ⟨rfl, hp⟩]
  · exact hasChild_pushBack hseq child

theorem Wrapped.inTree {h : Heap} (hw : Wrapped h h' p child s t)
    (hlast : (h.get p).children.getLast? = some child) (hin : h.InTree a b) : h'.InTree a b := by
  -- an edge that is gone became two
  have hedge : ∀ a b, h.HasChild a b → h'.InTree a b := by
    intro a b hab
    by_cases ha : a = p
    · subst ha
      have hsplit := List.dropLast_append_getLast? child hlast
      rw [HasChild, ← hsplit] at hab
      rcases List.mem_append.1 hab with hb | hb
      · apply ReflTransGen.single
        rw [HasChild, hw.childrenParent]
        exact List.mem_append_left _ hb
      · obtain rfl := List.mem_singleton.1 hb
        have hseq : h'.HasChild a s := by
          rw [HasChild, hw.childrenParent]
          exact List.mem_append_right _ (List.mem_singleton_self s)
        exact (ReflTransGen.single hseq).tail hw.childrenSeq
    · apply ReflTransGen.single
      rw [HasChild, hw.children a (lt_of_mem_children hab) ha]
      exact hab
  induction hin with
  | refl => exact .refl
  | tail _ hlast ih => exact ih.trans (hedge _ _ hlast)

end Heap

namespace Make

/-- The states of `Make` with the given open nodes of the given types, in which all nodes are
reachable from the root. -/
structure Built (m : Make) (ns : List Node) (ts : List Token) : Prop where
  first : m.top = 0
  node : m.node = some (ns.headD m.top)
  opened : m.heap.Open m.top ns
  bound : m.top < m.heap.nodes.length
  root : (m.heap.get m.top).type = .file
  typed : ns.map (fun n => (m.heap.get n).type) = ts
  reached : ∀ n < m.heap.nodes.length, m.heap.InTree m.top n

namespace Built

theorem lt (h : Built m ns ts) : ns.headD m.top < m.heap.nodes.length := by
  cases ns with
  | nil => exact h.bound
  | cons n ns => exact h.opened.lt List.mem_cons_self

theorem type_head (h : Built m ns ts) : (m.heap.get (ns.headD m.top)).type = ts.headD .file := by
  rw [← h.typed]
  cases ns with
  | nil => exact h.root
  | cons n ns => rfl

/-- New nodes under the last open node leave the open nodes as they are. -/
theorem grow {m' : Make} (h : Built m ns ts) (hg : Heap.Grown m.heap m'.heap (ns.headD m.top))
    (htop : m'.top = m.top) (hnode : m'.node = m.node) : Built m' ns ts := by
  have hlt : ∀ k ∈ m.top :: ns, k < m.heap.nodes.length := by
    intro k hk
    rcases List.mem_cons.1 hk with rfl | hk
    · exact h.bound
    · exact h.opened.lt hk
  refine ⟨htop.trans h.first, ?_, ?_, ?_, ?_, ?_, fun k hk => ?_⟩
  · rw [hnode, htop, h.node]
  · rw [htop]
    apply h.opened.congr
    · intro k hk
      exact hg.parent k (hlt k hk)
    · intro k hk hne
      exact hg.children k (hlt k hk) hne
  · rw [htop]
    exact Nat.lt_of_lt_of_le h.bound hg.length
  · rw [htop, hg.type _ h.bound]
    exact h.root
  · rw [← h.typed]
    apply List.map_congr_left
    intro n hn
    exact hg.type n (hlt n (List.mem_cons_of_mem _ hn))
  · rw [htop]
    rcases Nat.lt_or_ge k m.heap.nodes.length with hold | hnew
    · exact hg.inTree (h.reached k hold)
    · exact (hg.inTree h.opened.inTree).trans (hg.reached k hnew hk)

theorem leave (h : Built m (n :: ns) (t :: ts)) :
    (m.heap.get n).parent = some (ns.headD m.top) ∧
      Built { m with node := (m.heap.get n).parent } ns ts := by
  obtain ⟨hfirst, -, hopen, hbound, hroot, htyped, hreached⟩ := h
  rcases hopen with _ | ⟨hopen, hparent, hlast⟩
  exact ⟨hparent, hfirst, hparent, hopen, hbound, hroot, (List.cons.inj htyped).2, hreached⟩

/-- The open nodes after the last child of the first one is entered. -/
theorem enter (h : Built m ns ts)
    (hlast : (m.heap.get (ns.headD m.top)).children.getLast? = some k)
    (hparent : (m.heap.get k).parent = some (ns.headD m.top)) (htype : (m.heap.get k).type = t) :
    Built { m with node := some k } (k :: ns) (t :: ts) := by
  refine ⟨h.first, rfl, .child h.opened hparent hlast, h.bound, h.root, ?_, h.reached⟩
  rw [List.map_cons, htype, h.typed]

/-- The open nodes after the first one comes under a new node. -/
theorem wrap {m' : Make} {s : Node} (h : Built m (n :: ns) (t :: ts))
    (hw : Heap.Wrapped m.heap m'.heap (ns.headD m.top) n s t') (htop : m'.top = m.top)
    (hnode : m'.node = some s) : Built m' (s :: ns) (t' :: ts) := by
  have hopen := h.opened
  rcases hopen with _ | ⟨hopen', hparent, hlast⟩
  have hlt : ∀ k ∈ m.top :: ns, k < m.heap.nodes.length := by
    intro k hk
    rcases List.mem_cons.1 hk with rfl | hk
    · exact h.bound
    · exact h.opened.lt (List.mem_cons_of_mem _ hk)
  have hne : ∀ k ∈ m.top :: ns, k ≠ n := by
    intro k hk heq
    rw [heq] at hk
    rcases List.mem_cons.1 hk with hk | hk
    · exact h.opened.top_not_mem (hk ▸ List.mem_cons_self)
    · exact h.opened.not_mem hk
  have hopened : m'.heap.Open m.top ns := by
    apply hopen'.congr
    · intro k hk
      exact hw.parent k (hlt k hk) (hne k hk)
    · intro k hk hp
      exact hw.children k (hlt k hk) hp
  have hlast' : (m'.heap.get (ns.headD m.top)).children.getLast? = some s := by
    rw [hw.childrenParent, List.getLast?_concat]
  refine ⟨htop.trans h.first, hnode, ?_, ?_, ?_, ?_, fun k hk => ?_⟩
  · rw [htop]
    exact .child hopened hw.parentSeq hlast'
  · rw [htop, hw.length]
    exact Nat.lt_succ_of_lt h.bound
  · rw [htop, hw.type _ h.bound]
    exact h.root
  · have htyped := h.typed
    rw [List.map_cons] at htyped ⊢
    rw [hw.typeSeq, ← (List.cons.inj htyped).2]
    congr 1
    apply List.map_congr_left
    intro k hk
    exact hw.type k (hlt k (List.mem_cons_of_mem _ hk))
  · rw [htop]
    rw [hw.length] at hk
    rcases Nat.lt_succ_iff_lt_or_eq.1 hk with hk | hk
    · exact hw.inTree hlast (h.reached k hk)
    · rw [hk, ← hw.fresh]
      exact hopened.inTree.tail (List.mem_of_getLast? hlast')

end Built

end Make

end Trieste
