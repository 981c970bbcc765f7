import Trieste.Json.Returning

namespace Trieste.Json
set_option autoImplicit true
open Library Relation Heap

variable {s : Store} {p v : Node}

/-- What keeps all nodes of a later heap keeps those of an earlier one. -/
theorem frame_trans {heap : Heap} (h₁ : Heap.Frame bound heap heap₁)
    (h₂ : Heap.Frame heap₁.nodes.length heap₁ heap₂) (hle : bound ≤ heap₁.nodes.length) :
    Heap.Frame bound heap heap₂ := by
  constructor
  · exact Nat.le_trans h₁.length h₂.length
  · intro n hn
    rw [h₂.type n (Nat.lt_of_lt_of_le hn h₁.length), h₁.type n hn]
  · intro n hn
    rw [h₂.kept n (Nat.lt_of_lt_of_le hn hle), h₁.kept n hn]
  · constructor
    · intro n c hn hc
      rcases Nat.lt_or_ge n heap₁.nodes.length with hlt | hge
      · rw [h₂.kept n hlt] at hc
        exact h₁.above.children n c hn hc
      · exact Nat.le_trans hle (h₂.above.children n c hge hc)
    · intro n p hn hp
      rcases Nat.lt_or_ge n heap₁.nodes.length with hlt | hge
      · rw [h₂.kept n hlt] at hp
        exact h₁.above.parent n p hn hp
      · exact Nat.le_trans hle (h₂.above.parent n p hge hp)

theorem Fresh.mono (h : Fresh bound heap c) (hle : bound' ≤ bound) : Fresh bound' heap c :=
  ⟨h.tree, fun n hn => Nat.le_trans hle (h.above n hn), h.proper⟩

/-- Before an edit: the node, the value of which a copy is inserted, and the heap with the copy. -/
structure Copied (h h₁ : Heap) (p c : Node) : Prop where
  frame : Heap.Frame h.nodes.length h h₁
  proper : Proper h p
  lt : p < h.nodes.length
  below : ∀ n, h.HasChild p n → n < h.nodes.length
  fresh : Fresh h.nodes.length h₁ c

namespace Copied
variable {heap heap₁ : Heap} {c : Node}

theorem lt₁ (h : Copied heap heap₁ p c) : p < heap₁.nodes.length :=
  Nat.lt_of_lt_of_le h.lt h.frame.length

theorem children (h : Copied heap heap₁ p c) : (heap₁.get p).children = (heap.get p).children := by
  rw [h.frame.kept p h.lt]

theorem type (h : Copied heap heap₁ p c) : (heap₁.get p).type = (heap.get p).type :=
  h.frame.type p h.lt

theorem new (h : Copied heap heap₁ p c) : ¬ heap₁.HasChild p c := by
  intro hc
  rw [HasChild, h.children] at hc
  exact absurd (h.below c hc) (Nat.not_lt.2 (h.fresh.above c .refl))

theorem nodup (h : Copied heap heap₁ p c) : (heap₁.get p).children.Nodup := by
  rw [h.children]
  exact h.proper.nodup

theorem grafted (h : Copied heap heap₁ p c) (hedit : Edited heap₁ heap₂ p c cs)
    (hadmits : Admits heap₁ p c cs) : Grafted heap heap₂ p :=
  hedit.grafted h.frame h.proper h.lt h.below h.fresh hadmits

end Copied

/-- The clone of a value, in a store where another node is edited. -/
theorem IsValue.copied (h : IsValue heap v) (hp : Proper heap p) (hlt : p < heap.nodes.length)
    (hbelow : ∀ n, heap.HasChild p n → n < heap.nodes.length) :
    ∃ heap₁, heap.clone (heap.nodes.length + 1) v = some (heap₁, heap.nodes.length) ∧
      Copied heap heap₁ p heap.nodes.length ∧
      (heap₁.get heap.nodes.length).type = (heap.get v).type := by
  obtain ⟨heap₁, hclone, hframe, -, hfresh, htwins⟩ := h.clone
  exact ⟨heap₁, hclone, ⟨hframe, hp, hlt, hbelow, hfresh⟩, htwins.type⟩

theorem store_clone {heap₁ : Heap}
    (h : s.heap.clone (s.heap.nodes.length + 1) v = some (heap₁, copy)) :
    s.clone v = some ({ s with heap := heap₁ }, copy) := by
  rw [Store.clone, h]
  rfl

theorem assignCopy_total (hm : Proper s.heap m) (hmember : (s.heap.get m).type = .jsonMember)
    (hbelow : ∀ n, s.heap.HasChild m n → n < s.heap.nodes.length) (hv : IsValue s.heap v)
    (hvalue : (s.heap.get v).type ∈ valueTokens) :
    ∃ heap, Operation.assignCopy s m v = some { s with heap } ∧ Grafted s.heap heap m := by
  obtain ⟨key, value, hc, -, -, -, hmvalue⟩ := hm.memberKey hmember
  have hchild : s.heap.HasChild m value := by simp [HasChild, hc]
  have hlt := lt_of_mem_children hchild
  obtain ⟨heap₁, hclone, hcopied, htype⟩ := hv.copied hm hlt hbelow
  have hslot : (heap₁.get m).children[1]? = some value := by
    rw [hcopied.children, hc]
    rfl
  obtain ⟨heap₂, hreplace, hedit⟩ := edited_replace hcopied.lt₁ hcopied.fresh.lt hcopied.new
    hcopied.nodup hslot
  refine ⟨heap₂, ?_, hcopied.grafted hedit (.value ?_ ?_ ⟨key, value, ?_, ?_⟩)⟩
  · have hmvalue₁ : Store.memberValue heap₁ m = some value := by
      rw [Store.memberValue, Store.memberField, hcopied.type, hcopied.children]
      rwa [Store.memberValue, Store.memberField] at hmvalue
    have hparent : (heap₁.get value).parent = some m := by
      rw [hcopied.frame.kept value (hbelow value hchild)]
      exact hm.parent value hchild
    rw [Operation.assignCopy, store_clone hclone]
    simp only [Option.bind_eq_bind, Option.bind_some, Store.assignValue, hmvalue₁, hparent,
      Store.replaceAt, hslot, Store.replace, hreplace]
    rfl
  · rw [hcopied.type]
    exact hmember
  · rw [htype]
    exact hvalue
  · rw [hcopied.children, hc]
  · rw [hcopied.children, hc]
    rfl

theorem replaceCopy_total (hp : Proper s.heap p) (harray : (s.heap.get p).type = .jsonArray)
    (hbelow : ∀ n, s.heap.HasChild p n → n < s.heap.nodes.length)
    (hslot : (s.heap.get p).children[i]? = some old) (hv : IsValue s.heap v)
    (hvalue : (s.heap.get v).type ∈ valueTokens) :
    ∃ heap, (do
      let (s, copy) ← s.clone v
      s.replaceAt p i copy) = some { s with heap } ∧ Grafted s.heap heap p := by
  have hlt := lt_of_mem_children (List.mem_of_getElem? hslot)
  obtain ⟨heap₁, hclone, hcopied, htype⟩ := hv.copied hp hlt hbelow
  have hslot₁ : (heap₁.get p).children[i]? = some old := by
    rw [hcopied.children]
    exact hslot
  obtain ⟨heap₂, hreplace, hedit⟩ := edited_replace hcopied.lt₁ hcopied.fresh.lt hcopied.new
    hcopied.nodup hslot₁
  refine ⟨heap₂, ?_, hcopied.grafted hedit (.element ?_ ?_)⟩
  · simp only [Option.bind_eq_bind, store_clone hclone, Option.bind_some, Store.replaceAt, hslot₁,
      Store.replace, hreplace]
    rfl
  · rw [hcopied.type]
    exact harray
  · rw [htype]
    exact hvalue

/-- An array can get a copy of a value, also after errors have been made in the heap. -/
theorem insertCopy_grafted (hp : Proper s.heap p) (harray : (s.heap.get p).type = .jsonArray)
    (hlt : p < s.heap.nodes.length)
    (hbelow : ∀ n, s.heap.HasChild p n → n < s.heap.nodes.length) (hv : IsValue s.heap v)
    (hvalue : (s.heap.get v).type ∈ valueTokens)
    (hframe : Heap.Frame s.heap.nodes.length s.heap heap) :
    ∃ heap₁, Store.clone { s with heap } v = some ({ s with heap := heap₁ }, heap.nodes.length) ∧
      Grafted s.heap (heap₁.pushBack p (some heap.nodes.length)) p ∧
      ∀ pos, Grafted s.heap (heap₁.insert p pos (some heap.nodes.length)) p := by
  have hv' := hv.frame hframe
  obtain ⟨heap₁, hclone, hframe₁, -, hfresh, htwins⟩ := hv'.clone
  have hframe₂ := frame_trans hframe hframe₁ hframe.length
  have hcopied : Copied s.heap heap₁ p heap.nodes.length :=
    ⟨hframe₂, hp, hlt, hbelow, hfresh.mono hframe.length⟩
  have hadmits : ∀ cs, Admits heap₁ p heap.nodes.length cs := by
    intro cs
    apply Admits.element
    · rw [hcopied.type]
      exact harray
    · rw [htwins.type, hframe.type v (hv.lt .refl)]
      exact hvalue
  refine ⟨heap₁, store_clone (s := { s with heap }) hclone, ?_, fun pos => ?_⟩
  · exact hcopied.grafted (edited_pushBack hcopied.lt₁ hfresh.lt hcopied.new hcopied.nodup)
      (hadmits _)
  · exact hcopied.grafted (edited_insert hcopied.lt₁ hfresh.lt hcopied.new hcopied.nodup pos)
      (hadmits _)

theorem fresh_member {heap : Heap} (hlinked : LinkedFrom bound heap) (hm : bound ≤ m)
    (hlt : m < heap.nodes.length) (hmember : (heap.get m).type = .jsonMember)
    (hc : (heap.get m).children = [key, value]) (hkeylt : bound ≤ key)
    (hkeylen : key < heap.nodes.length) (hkey : (heap.get key).type = .jsonKey)
    (hleaf : (heap.get key).children = []) (hvalue : (heap.get value).type ∈ valueTokens)
    (hfresh : Fresh bound heap value) : Fresh bound heap m := by
  have hchild : ∀ c, heap.HasChild m c ↔ c = key ∨ c = value := by
    intro c
    rw [HasChild, hc, List.mem_cons, List.mem_singleton]
  have hnone : ∀ c, ¬ heap.HasChild key c := by
    intro c hkc
    rw [HasChild, hleaf] at hkc
    cases hkc
  have hwhere : ∀ n, heap.InTree m n → n = m ∨ n = key ∨ heap.InTree value n := by
    intro n hn
    rcases hn.cases_head with rfl | ⟨c, hmc, hcn⟩
    · exact .inl rfl
    · rcases (hchild c).1 hmc with rfl | rfl
      · rcases hcn.cases_head with rfl | ⟨d, hkd, -⟩
        · exact .inr (.inl rfl)
        · exact absurd hkd (hnone d)
      · exact .inr (.inr hcn)
  have hproper_key : Proper heap key := by
    constructor
    · rw [hkey]
      decide
    · exact fun c hkc => absurd hkc (hnone c)
    · rw [hleaf]
      exact List.nodup_nil
    · exact fun c hkc => absurd hkc (hnone c)
    · intro htop
      rw [hkey] at htop
      exact absurd htop (by decide)
    · exact fun _ c hkc => absurd hkc (hnone c)
    · intro hmember
      rw [hkey] at hmember
      exact absurd hmember (by decide)
    · exact fun _ => hleaf
  have hproper : Proper heap m := by
    constructor
    · rw [hmember]
      decide
    · exact fun c => hlinked.parent m c hm
    · exact hlinked.nodup m hm
    · intro c hmc
      rw [hmember]
      refine iff_of_false ?_ (by decide)
      rcases (hchild c).1 hmc with rfl | rfl
      · rw [hkey]
        decide
      · exact (value_type _ hvalue).1
    · intro htop
      rw [hmember] at htop
      exact absurd htop (by decide)
    · intro hlist
      rw [hmember] at hlist
      exact absurd hlist (by decide)
    · exact fun _ => ⟨key, value, hc, hkey, hvalue⟩
    · intro hother
      rw [hmember] at hother
      exact absurd hother (by decide)
  constructor
  · apply exists_represents hlt
    intro c hmc
    rcases (hchild c).1 hmc with rfl | rfl
    · exact exists_represents hkeylen fun d hkd => absurd hkd (hnone d)
    · exact hfresh.tree
  · intro n hn
    rcases hwhere n hn with rfl | rfl | hn
    · exact hm
    · exact hkeylt
    · exact hfresh.above n hn
  · intro n hn
    rcases hwhere n hn with rfl | rfl | hn
    · exact hproper
    · exact hproper_key
    · exact hfresh.proper n hn

theorem addMember_total {object : Node} (hp : Proper s.heap object)
    (hobject : (s.heap.get object).type = .jsonObject) (hlt : object < s.heap.nodes.length)
    (hbelow : ∀ n, s.heap.HasChild object n → n < s.heap.nodes.length) (key : Location)
    (hv : IsValue s.heap v) (hvalue : (s.heap.get v).type ∈ valueTokens) :
    ∃ heap, Operation.addMember s object key v = some { s with heap } ∧
      Grafted s.heap heap object := by
  -- the member with its key
  let m := s.heap.nodes.length
  let heap₁ := (s.heap.create .jsonMember {}).1
  let heap₂ := (heap₁.create .jsonKey key).1
  let heap₃ := heap₂.pushBack m (some (m + 1))
  have hlen₁ : heap₁.nodes.length = m + 1 := length_create ..
  have hlen₂ : heap₂.nodes.length = m + 2 := by rw [length_create, hlen₁]
  have hlen₃ : heap₃.nodes.length = m + 2 := by rw [length_pushBack, hlen₂]
  have hm₂ : heap₂.get m = { type := .jsonMember } := by
    rw [get_create, if_neg (by rw [hlen₁]; exact Nat.ne_of_lt (Nat.lt_succ_self m)), get_create,
      if_pos rfl]
  have hk₂ : heap₂.get (m + 1) = { type := .jsonKey, location := key } := by
    rw [get_create, if_pos hlen₁.symm]
  have hm_two : m < m + 2 := Nat.lt_add_of_pos_right Nat.two_pos
  have hk_two : m + 1 < m + 2 := Nat.lt_succ_self (m + 1)
  have hmlt : m < heap₂.nodes.length := by
    rw [hlen₂]
    exact hm_two
  have hframe₁ := (Above.length s.heap).create (Nat.le_refl m) .jsonMember {}
  have hframe₂ := hframe₁.trans (hframe₁.above.create (by rw [hlen₁]; omega) .jsonKey key)
  have hframe₃ := hframe₂.trans (hframe₂.above.pushBack (Nat.le_refl m) (Nat.le_succ m))
  have hlinked₂ := ((LinkedFrom.length s.heap).create .jsonMember {}).create .jsonKey key
  have hempty : ∀ q, m ≤ q → (heap₂.get q).children = [] := by
    intro q hq
    rcases Nat.eq_or_lt_of_le hq with rfl | hq
    · rw [hm₂]
    · rcases Nat.eq_or_lt_of_le hq with rfl | hq
      · rw [hk₂]
      · rw [get_of_le heap₂ (by rw [hlen₂]; exact hq)]
  have hlinked₃ := hlinked₂.pushBack (Nat.lt_succ_self m)
    (by
      change m + 1 < heap₂.nodes.length
      rw [hlen₂]
      exact hk_two) fun q hq hc => by
      rw [HasChild] at hc
      rw [hempty q hq] at hc
      cases hc
  have hmc₃ : (heap₃.get m).children = [m + 1] := by
    rw [children_pushBack heap₂ hmlt, if_pos rfl, hm₂]
    rfl
  -- the copy of the value
  have hv₃ := hv.frame hframe₃
  obtain ⟨heap₄, hclone, hframe₄, -, hfresh₄, htwins⟩ := hv₃.clone
  rw [hlen₃] at hclone hframe₄ hfresh₄ htwins
  obtain ⟨hlinked₄, hcopylt⟩ := hlinked₃.clone (by rw [hlen₃]; omega) hclone
  have hmc₄ : (heap₄.get m).children = [m + 1] := by
    rw [hframe₄.kept m hm_two, hmc₃]
  have hnew : ∀ q, m ≤ q → ¬ heap₄.HasChild q (m + 2) := by
    intro q hq hc
    have hlater := hlinked₄.later q _ hq hc
    rw [HasChild, hframe₄.kept q hlater] at hc
    rw [children_pushBack heap₂ hmlt] at hc
    split at hc
    · rw [hm₂] at hc
      simp at hc
    · rw [hempty q hq] at hc
      cases hc
  have hedit := edited_pushBack (hm_two.trans hcopylt) hcopylt (hnew m (Nat.le_refl m))
    (hlinked₄.nodup m (Nat.le_refl m))
  rw [hmc₄] at hedit
  have hfresh₅ := hedit.fresh hfresh₄ hm_two fun n hn => by
    rw [HasChild, hmc₄, List.mem_singleton] at hn
    rw [hn]
    exact hk_two
  have hlinked₅ := hlinked₄.pushBack hm_two hcopylt hnew
  let heap₅ := heap₄.pushBack m (some (m + 2))
  have hlen₅ : m + 2 < heap₅.nodes.length := by
    rw [length_pushBack]
    exact hcopylt
  have hget₄ : ∀ n, n < m + 2 → heap₄.get n = heap₃.get n := hframe₄.kept
  have hfresh : Fresh m heap₅ m := by
    apply fresh_member hlinked₅ (Nat.le_refl m) (hm_two.trans hlen₅) ?_ hedit.children
      (Nat.le_succ m) (hk_two.trans hlen₅) ?_ ?_ ?_ (hfresh₅.mono (Nat.le_add_right m 2))
    · rw [hedit.type, hget₄ m hm_two, type_pushBack, hm₂]
    · rw [hedit.types, hget₄ (m + 1) hk_two, type_pushBack, hk₂]
    · have hne : m + 1 ≠ m := Nat.succ_ne_self m
      rw [(hedit.alike (m + 1) hne).2.2, hget₄ (m + 1) hk_two, children_pushBack heap₂ hmlt,
        if_neg hne.symm, hk₂]
    · rw [hedit.types, htwins.type, hframe₃.type v (hv.lt .refl)]
      exact hvalue
  -- the object with the member
  have hframe₅ : Heap.Frame m s.heap heap₅ := by
    have hle : m ≤ heap₃.nodes.length := by
      rw [hlen₃]
      exact Nat.le_add_right m 2
    have h₄ := hframe₃.trans (hframe₃.above.clone hle hclone).1
    exact h₄.trans (h₄.above.pushBack (Nat.le_refl m) (Nat.le_add_right m 2))
  have hcopied : Copied s.heap heap₅ object m := ⟨hframe₅, hp, hlt, hbelow, hfresh⟩
  have hlast := edited_pushBack hcopied.lt₁ hcopied.fresh.lt hcopied.new hcopied.nodup
  refine ⟨heap₅.pushBack object (some m), ?_, hcopied.grafted hlast (.member ?_ ?_)⟩
  · have hstore : Store.clone { s with heap := heap₃ } v =
        some ({ s with heap := heap₄ }, m + 2) := by
      rw [Store.clone]
      change Option.map _ (heap₃.clone (heap₃.nodes.length + 1) v) = _
      rw [hlen₃, hclone]
      rfl
    have hk : heap₁.nodes.length = m + 1 := hlen₁
    simp only [Operation.addMember, Store.create, create_node]
    rw [show (s.heap.create .jsonMember {}).1.nodes.length = m + 1 from hk]
    change (Store.clone { s with heap := heap₃ } v).bind _ = _
    rw [hstore]
    rfl
  · rw [hcopied.type]
    exact hobject
  · rw [hedit.type, hget₄ m hm_two, type_pushBack, hm₂]

end Trieste.Json
