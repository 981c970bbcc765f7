import Mathlib.Logic.Relation
import Trieste.Ast.Attach
import Trieste.Library.Transition

namespace Trieste
set_option autoImplicit true
open Library Relation

namespace Heap

/-- The first node is a proper ancestor of the second. -/
def Ancestor (h : Heap) : Node → Node → Prop := TransGen fun p c => c ∈ (h.get p).children

theorem mark_root {h : Heap} (hp : (h.get p).parent = none) (bit : FlagBit) (fuel : Nat) :
    h.mark bit (fuel + 1) (some p) = if h.flag p bit then h else h.setFlag p bit true := by
  have hmark : ∀ heap : Heap, mark bit fuel heap none = heap := fun heap => by
    cases fuel <;> rfl
  rw [mark, hp, hmark]

theorem get_setParent_ne (h : Heap) (hk : k ≠ n) (p : Option Node) :
    (h.setParent n p).get k = h.get k := by
  rw [setParent, get_modify, if_neg fun hc => hk hc.1.symm]

theorem mark_setParent_root {h : Heap} (hp : (h.get p).parent = none) (hpn : p ≠ n)
    (bit : FlagBit) (fuel : Nat) :
    (∀ k, k ≠ p → k ≠ n → ((h.setParent n (some p)).mark bit (fuel + 1)
      ((h.setParent n (some p)).get n).parent).get k = h.get k) ∧
    ∀ b, ((h.setParent n (some p)).mark bit (fuel + 1)
      ((h.setParent n (some p)).get n).parent).flag p b = true → h.flag p b = true ∨ b = bit := by
  have hp' : ((h.setParent n (some p)).get p).parent = none := by
    rw [get_setParent_ne h hpn, hp]
  rcases Nat.lt_or_ge n h.nodes.length with hn | hn
  · have hparent : ((h.setParent n (some p)).get n).parent = some p := by
      rw [parent_setParent, if_pos ⟨rfl, hn⟩]
    rw [hparent, mark_root hp']
    constructor
    · intro k hk hkn
      split
      · exact get_setParent_ne h hkn _
      · rw [setFlag, get_modify, if_neg fun hc => hk hc.1.symm, get_setParent_ne h hkn]
    · intro b hf
      split at hf
      · exact .inl ((flag_setParent ..).symm.trans hf)
      · by_cases hb : bit = b
        · exact .inr hb.symm
        · rw [flag_setFlag, if_neg fun hc => hb hc.2.2, flag_setParent] at hf
          exact .inl hf
  · have hparent : ((h.setParent n (some p)).get n).parent = none := by
      rw [parent_setParent, if_neg fun hc => absurd hc.2 (Nat.not_lt.2 hn), get_of_le h hn]
    rw [hparent]
    exact ⟨fun k _ hkn => get_setParent_ne h hkn _,
      fun b hf => .inl ((flag_setParent ..).symm.trans hf)⟩

theorem adopt_root {h : Heap} (hp : (h.get p).parent = none) (hpn : p ≠ n) :
    (∀ k, k ≠ p → k ≠ n → (h.adopt p n).get k = h.get k) ∧
    ∀ b, (h.adopt p n).flag p b = true → h.flag p b = true ∨
      (b = .error ∧ ((h.get n).type = .error ∨ h.flag n .error = true)) ∨
      (b = .lift ∧ (h.get n).type ≠ .error ∧ ((h.get n).type = .lift ∨ h.flag n .lift = true)) := by
  unfold adopt addFlags
  simp only [type_setParent, flag_setParent]
  split
  · next herr =>
    obtain ⟨hget, hflag⟩ := mark_setParent_root hp hpn .error (h.setParent n (some p)).nodes.length
    exact ⟨hget, fun b hf => (hflag b hf).imp_right fun hb => .inl ⟨hb, herr⟩⟩
  · next herr =>
    rw [not_or] at herr
    split
    · next hlift =>
      obtain ⟨hget, hflag⟩ := mark_setParent_root hp hpn .lift (h.setParent n (some p)).nodes.length
      exact ⟨hget, fun b hf => (hflag b hf).imp_right fun hb => .inr ⟨hb, herr.1, hlift⟩⟩
    · exact ⟨fun k _ hkn => get_setParent_ne h hkn _,
        fun b hf => .inl ((flag_setParent ..).symm.trans hf)⟩

/-- Invariants that hold together in every state of a run. -/
structure Sound (h : Heap) : Prop where
  propagated : h.Propagated
  linked : h.Linked
  unshared : h.Unshared

/-- A new root that stands for a node, whose flags are among those of the node. -/
structure Cloned (h h' : Heap) (n copy : Node) : Prop where
  sound : h'.Sound
  fresh : h.nodes.length ≤ copy
  lt : copy < h'.nodes.length
  old : ∀ m, m < h.nodes.length → h'.get m = h.get m
  root : (h'.get copy).parent = none
  type : (h'.get copy).type = (h.get n).type
  flags : ∀ b, h'.flag copy b = true → h.flag n b = true

theorem Sound.create (h : Sound heap) (type : Token) (location : Location) :
    Sound (heap.create type location).1 :=
  ⟨h.propagated.create type location, h.linked.create type location,
    (unshared_create ..).2 h.unshared⟩

theorem Sound.cloned_create (h : Sound heap) (n : Node) :
    Cloned heap (heap.create (heap.get n).type (heap.get n).location).1 n heap.nodes.length := by
  have hnew := heap.get_create (heap.get n).type (heap.get n).location heap.nodes.length
  rw [if_pos rfl] at hnew
  refine ⟨h.create _ _, Nat.le_refl _, by simp, fun m hm => ?_, by rw [hnew], by rw [hnew], fun b hb => ?_⟩
  · rw [get_create, if_neg (Nat.ne_of_lt hm)]
  · rw [flag, hnew] at hb
    cases b <;> cases hb

/-- A root that no node has as a child may be attached. -/
theorem Sound.pushBack (h : Sound heap) (hp : p < heap.nodes.length) (hn : n < heap.nodes.length)
    (hroot : (heap.get n).parent = none) (hmix : ¬ heap.Mixed n) :
    Sound (heap.pushBack p (some n)) := by
  have hout : ∀ q, n ∉ (heap.get q).children := fun q hq => by
    rw [h.linked q n hq] at hroot
    cases hroot
  have ha := (heap.setChildren p ((heap.get p).children ++ [n])).adopt_adopted p n
  have hchildren : ∀ q, ((heap.pushBack p (some n)).get q).children =
      if p = q then (heap.get p).children ++ [n] else (heap.get q).children := fun q => by
    rw [Heap.pushBack, ha.children, children_setChildren]
    simp only [hp, and_true]
  have hu : Unshared (heap.pushBack p (some n)) := by
    refine (unshared_iff _).2 ⟨fun q => ?_, fun q q' c hc hc' => ?_⟩
    · rw [hchildren]
      split
      · refine List.nodup_append.2 ⟨h.unshared.nodup p, List.nodup_singleton n, ?_⟩
        rintro c hc _ hc' rfl
        rw [List.mem_singleton.1 hc'] at hc
        exact hout p hc
      · exact h.unshared.nodup q
    · rw [hchildren] at hc hc'
      have hcases : ∀ q, c ∈ (if p = q then (heap.get p).children ++ [n]
          else (heap.get q).children) → c ∈ (heap.get q).children ∨ c = n ∧ p = q := by
        intro q hq
        split at hq
        · next hpq => grind
        · exact .inl hq
      rcases hcases q hc with hc | ⟨hcn, hpq⟩ <;> rcases hcases q' hc' with hc' | ⟨hcn', hpq'⟩
      · exact h.unshared.unique hc hc'
      · exact absurd (hcn' ▸ hc) (hout q)
      · exact absurd (hcn ▸ hc') (hout q')
      · exact hpq.symm.trans hpq'
  refine ⟨(h.propagated.setChildren p _).adopt ?_ ?_, h.linked.attach
    (heap.pushBack_attached hp hn) hu, hu⟩
  · rwa [mixed_setChildren]
  · rwa [length_setChildren]

/-- The copy of a child is attached to the copy of its parent. -/
theorem Cloned.pushBack (h : Sound heap) (hnode : Cloned heap heap₁ n node)
    (hc : c ∈ (heap.get n).children) (hmix : ¬ heap.Mixed c)
    (hcopy : Cloned heap₁ heap₂ c copy) :
    Cloned heap (heap₂.pushBack node (some copy)) n node := by
  have hclt := h.linked.lt hc
  have hlt : heap.nodes.length ≤ heap₁.nodes.length :=
    Nat.le_trans hnode.fresh (Nat.le_of_lt hnode.lt)
  have hc₁ : heap₁.get c = heap.get c := hnode.old c hclt
  have htype : (heap₂.get copy).type = (heap.get c).type := by rw [hcopy.type, hc₁]
  have hflags : ∀ b, heap₂.flag copy b = true → heap.flag c b = true := fun b hb => by
    have hb' := hcopy.flags b hb
    rwa [flag, hc₁] at hb'
  have hmix₂ : ¬ heap₂.Mixed copy := by
    rintro ⟨ht, herr, hlift⟩
    exact hmix ⟨htype ▸ ht, hflags _ herr, hlift.imp (fun hl => htype ▸ hl) (hflags _)⟩
  have hnode₂ : heap₂.get node = heap₁.get node := hcopy.old node hnode.lt
  have hne : node ≠ copy := Nat.ne_of_lt (Nat.lt_of_lt_of_le hnode.lt hcopy.fresh)
  have hlt₂ : node < heap₂.nodes.length :=
    Nat.lt_of_lt_of_le hnode.lt (Nat.le_trans hcopy.fresh (Nat.le_of_lt hcopy.lt))
  have hroot : ((heap₂.setChildren node ((heap₂.get node).children ++ [copy])).get node).parent =
      none := by
    rw [parent_setChildren, hnode₂, hnode.root]
  obtain ⟨hget, hflag⟩ := adopt_root hroot hne
  have ha := (heap₂.setChildren node ((heap₂.get node).children ++ [copy])).adopt_adopted node copy
  refine ⟨hcopy.sound.pushBack hlt₂ hcopy.lt hcopy.root hmix₂, hnode.fresh, ?_, fun m hm => ?_,
    ?_, ?_, fun b hb => ?_⟩
  · rwa [Heap.pushBack, ha.length, length_setChildren]
  · have hm₁ : m < heap₁.nodes.length := Nat.lt_of_lt_of_le hm hlt
    have hnm : m ≠ node := Nat.ne_of_lt (Nat.lt_of_lt_of_le hm hnode.fresh)
    have hcm : m ≠ copy := Nat.ne_of_lt (Nat.lt_of_lt_of_le hm₁ hcopy.fresh)
    rw [Heap.pushBack, hget m hnm hcm, setChildren, get_modify, if_neg fun hc => hnm hc.1.symm,
      hcopy.old m hm₁, hnode.old m hm]
  · rw [Heap.pushBack, ha.parent, if_neg fun hc => hne hc.1.symm, hroot]
  · rw [Heap.pushBack, ha.type, type_setChildren, hnode₂, hnode.type]
  · obtain ⟨hnlt, herror, hlift⟩ := h.propagated c n (h.linked n c hc)
    rcases hflag b hb with hf | ⟨rfl, hf⟩ | ⟨rfl, ht, hf⟩
    · rw [flag_setChildren, flag, hnode₂] at hf
      exact hnode.flags b hf
    · rw [type_setChildren, flag_setChildren, htype] at hf
      exact herror (hf.imp_right (hflags _))
    · rw [type_setChildren, htype] at ht
      rw [type_setChildren, flag_setChildren, htype] at hf
      exact hlift ht (hf.imp_right (hflags _))

/-- Below nodes that a clone leaves as they are, ancestors are the same. -/
theorem Cloned.ancestor (h : Sound heap) (hnode : Cloned heap heap₁ n node)
    (hc : c < heap.nodes.length) (ha : heap₁.Ancestor c m) :
    heap.Ancestor c m ∧ m < heap.nodes.length := by
  induction ha with
  | single hm =>
    rw [hnode.old c hc] at hm
    exact ⟨.single hm, h.linked.lt hm⟩
  | tail _ hm ih =>
    obtain ⟨ha, hlt⟩ := ih
    rw [hnode.old _ hlt] at hm
    exact ⟨ha.tail hm, h.linked.lt hm⟩

/-- A clone of a tree without mixed nodes below its root keeps the invariants. -/
theorem Sound.clone (h : Sound heap) (hn : n < heap.nodes.length)
    (hsafe : ∀ m, heap.Ancestor n m → ¬ heap.Mixed m)
    (hclone : heap.clone fuel n = some (heap', copy)) : Cloned heap heap' n copy := by
  induction fuel generalizing heap n heap' copy with
  | zero => cases hclone
  | succ fuel ih =>
    simp only [Heap.clone, Option.map_eq_some_iff, Prod.mk.injEq] at hclone
    obtain ⟨heap₁, hrun, rfl, rfl⟩ := hclone
    refine foldlM_invariant (I := fun heap₁ => Cloned heap heap₁ n heap.nodes.length) ?_
      (h.cloned_create n) hrun
    intro heap₁ c heap₂ hc hnode hstep
    simp only [Option.bind_eq_bind, Option.bind_eq_some_iff, Option.pure_def,
      Option.some.injEq, Prod.exists] at hstep
    obtain ⟨heap₄, copy', hcopy, rfl⟩ := hstep
    have hclt := h.linked.lt hc
    have hcopied : Cloned heap₁ heap₄ c copy' := by
      refine ih hnode.sound (Nat.lt_of_lt_of_le hclt
        (Nat.le_trans hnode.fresh (Nat.le_of_lt hnode.lt))) (fun m hm hmix => ?_) hcopy
      obtain ⟨ha, hlt⟩ := hnode.ancestor h hclt hm
      refine hsafe m (.head hc ha) ?_
      simpa only [Mixed, flag, hnode.old m hlt] using hmix
    exact hnode.pushBack h hc (hsafe c (.single hc)) hcopied

end Heap

end Trieste
