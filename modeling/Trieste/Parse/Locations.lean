import Trieste.Ast.Trees
import Trieste.Parse.Steps

namespace Trieste
set_option autoImplicit true

theorem Heap.children_extendLocation (h : Heap) (n k : Node) (loc : Location) :
    ((h.extendLocation n loc).get k).children = (h.get k).children :=
  proj_modify (π := NodeDef.children) h n k _ fun _ => rfl

namespace Make

/-- The types of the nodes that the operations make on their own. -/
def ownTypes : List Token := [.group, .invalid, .error, .errorMsg, .errorAst]

/-- What became of the nodes of an earlier state, and what is known of the nodes since then. -/
structure Since (before : Heap) (Span : Location → Prop) (Adds : Token → Location → Prop)
    (Grows : Node → Location → Prop) (heap : Heap) : Prop where
  length : before.nodes.length ≤ heap.nodes.length
  type : ∀ k < before.nodes.length, (heap.get k).type = (before.get k).type
  old : ∀ k < before.nodes.length, (heap.get k).location = (before.get k).location ∨
    Grows k (heap.get k).location
  within : ∀ k, before.nodes.length ≤ k → k < heap.nodes.length →
    (heap.get k).type ≠ .errorMsg → Span (heap.get k).location
  adds : ∀ k, before.nodes.length ≤ k → k < heap.nodes.length →
    (heap.get k).type ∈ ownTypes ∨ Adds (heap.get k).type (heap.get k).location
  children : ∀ k, before.nodes.length ≤ k → k < heap.nodes.length → ∀ c ∈ (heap.get k).children,
    before.nodes.length ≤ c ∧ c < heap.nodes.length ∧
      ((heap.get k).type ≠ .error → (heap.get c).type ≠ .errorMsg)

section Since
variable {before heap : Heap} {Span : Location → Prop} {Adds : Token → Location → Prop}
  {Grows : Node → Location → Prop} {n c : Node} {type : Token} {loc : Location}

theorem Since.refl (heap : Heap) : Since heap Span Adds Grows heap :=
  ⟨Nat.le_refl _, fun _ _ => rfl, fun _ _ => .inl rfl,
    fun _ hle hlt => absurd hlt (Nat.not_lt.2 hle), fun _ hle hlt => absurd hlt (Nat.not_lt.2 hle),
    fun _ hle hlt => absurd hlt (Nat.not_lt.2 hle)⟩

theorem Since.create (h : Since before Span Adds Grows heap) (hspan : type ≠ .errorMsg → Span loc)
    (hadds : type ∈ ownTypes ∨ Adds type loc) :
    Since before Span Adds Grows (heap.create type loc).1 := by
  have hold : ∀ k < before.nodes.length, (heap.create type loc).1.get k = heap.get k := by
    intro k hk
    rw [Heap.get_create, if_neg (Nat.ne_of_lt (Nat.lt_of_lt_of_le hk h.length))]
  have hlength : (heap.create type loc).1.nodes.length = heap.nodes.length + 1 :=
    Heap.length_create ..
  have hother : ∀ k, k < (heap.create type loc).1.nodes.length → k ≠ heap.nodes.length →
      k < heap.nodes.length := by
    intro k hlt hne
    rw [hlength] at hlt
    exact (Nat.lt_succ_iff_lt_or_eq.1 hlt).resolve_right hne
  refine ⟨?_, fun k hk => ?_, fun k hk => ?_, fun k hle hlt => ?_, fun k hle hlt => ?_,
    fun k hle hlt c hc => ?_⟩
  · rw [hlength]
    exact Nat.le_succ_of_le h.length
  · rw [hold k hk, h.type k hk]
  · rw [hold k hk]
    exact h.old k hk
  · rw [Heap.get_create]
    split
    · exact hspan
    · next hne => exact h.within k hle (hother k hlt hne)
  · rw [Heap.get_create]
    split
    · exact hadds
    · next hne => exact h.adds k hle (hother k hlt hne)
  · rw [Heap.get_create] at hc
    split at hc
    · cases hc
    · next hne =>
      obtain ⟨hnew, hbound, hmsg⟩ := h.children k hle (hother k hlt hne) c hc
      refine ⟨hnew, ?_, ?_⟩
      · rw [hlength]
        exact Nat.lt_succ_of_lt hbound
      · rw [Heap.get_create, Heap.get_create, if_neg hne, if_neg (Nat.ne_of_lt hbound)]
        exact hmsg

theorem Since.pushBack (h : Since before Span Adds Grows heap) (hn : n < heap.nodes.length)
    (hc : before.nodes.length ≤ c) (hbound : c < heap.nodes.length)
    (hmsg : (heap.get n).type ≠ .error → (heap.get c).type ≠ .errorMsg) :
    Since before Span Adds Grows (heap.pushBack n (some c)) := by
  refine ⟨?_, fun k hk => ?_, fun k hk => ?_, fun k hle hlt => ?_, fun k hle hlt => ?_,
    fun k hle hlt d hd => ?_⟩
  · rw [Heap.length_pushBack]
    exact h.length
  · rw [Heap.type_pushBack, h.type k hk]
  · rw [Heap.location_pushBack]
    exact h.old k hk
  · rw [Heap.length_pushBack] at hlt
    rw [Heap.type_pushBack, Heap.location_pushBack]
    exact h.within k hle hlt
  · rw [Heap.length_pushBack] at hlt
    rw [Heap.type_pushBack, Heap.location_pushBack]
    exact h.adds k hle hlt
  · rw [Heap.length_pushBack] at hlt ⊢
    rw [Heap.type_pushBack, Heap.type_pushBack]
    rw [Heap.children_pushBack heap hn] at hd
    split at hd
    · next heq =>
      subst heq
      rcases List.mem_append.1 hd with hd | hd
      · exact h.children n hle hlt d hd
      · obtain rfl := List.mem_singleton.1 hd
        exact ⟨hc, hbound, hmsg⟩
    · exact h.children k hle hlt d hd

theorem Since.addChild (h : Since before Span Adds Grows heap) (hn : n < heap.nodes.length)
    (hspan : type ≠ .errorMsg → Span loc) (hadds : type ∈ ownTypes ∨ Adds type loc)
    (hmsg : (heap.get n).type ≠ .error → type ≠ .errorMsg) :
    Since before Span Adds Grows
      ((heap.create type loc).1.pushBack n (some heap.nodes.length)) := by
  have hlength : (heap.create type loc).1.nodes.length = heap.nodes.length + 1 :=
    Heap.length_create ..
  refine (h.create hspan hadds).pushBack ?_ h.length ?_ ?_
  · rw [hlength]
    exact Nat.lt_succ_of_lt hn
  · rw [hlength]
    exact Nat.lt_succ_self _
  · rw [Heap.get_create, Heap.get_create, if_pos rfl, if_neg (Nat.ne_of_lt hn)]
    exact hmsg

theorem Since.extendLocation (h : Since before Span Adds Grows heap)
    (hold : n < before.nodes.length → Grows n ((heap.get n).location.join loc))
    (hspan : before.nodes.length ≤ n → n < heap.nodes.length → (heap.get n).type ≠ .errorMsg →
      Span ((heap.get n).location.join loc))
    (hadds : ∀ l l', Adds (heap.get n).type l → Adds (heap.get n).type l') :
    Since before Span Adds Grows (heap.extendLocation n loc) := by
  have htype : ∀ k, ((heap.extendLocation n loc).get k).type = (heap.get k).type := fun k =>
    Heap.proj_modify (π := NodeDef.type) heap n k _ fun _ => rfl
  have hlocation : ∀ k, ((heap.extendLocation n loc).get k).location =
      if n = k ∧ n < heap.nodes.length then (heap.get n).location.join loc
      else (heap.get k).location := by
    intro k
    rw [Heap.extendLocation, Heap.get_modify]
    split
    · rfl
    · rfl
  have hlength : (heap.extendLocation n loc).nodes.length = heap.nodes.length :=
    Heap.length_modify ..
  refine ⟨hlength ▸ h.length, fun k hk => (htype k).trans (h.type k hk), fun k hk => ?_,
    fun k hle hlt => ?_, fun k hle hlt => ?_, fun k hle hlt c hc => ?_⟩
  · rw [hlocation]
    split
    · next heq =>
      rw [← heq.1] at hk ⊢
      exact .inr (hold hk)
    · exact h.old k hk
  · rw [hlength] at hlt
    rw [htype, hlocation]
    split
    · next heq =>
      rw [← heq.1] at hle hlt ⊢
      exact hspan hle hlt
    · exact h.within k hle hlt
  · rw [hlength] at hlt
    rw [htype, hlocation]
    split
    · next heq =>
      rw [← heq.1] at hle hlt ⊢
      exact (h.adds n hle hlt).imp_right (hadds _ _)
    · exact h.adds k hle hlt
  · rw [hlength] at hlt ⊢
    rw [htype, htype]
    rw [Heap.children_extendLocation] at hc
    exact h.children k hle hlt c hc

/-- The nodes of the type may be closed. -/
structure MayClose (before : Heap) (Adds : Token → Location → Prop) (Grows : Node → Location → Prop)
    (type : Token) : Prop where
  grows : ∀ k < before.nodes.length, (before.get k).type = type → ∀ l, Grows k l
  adds : ∀ l l', Adds type l → Adds type l'
  ne : type ≠ .error ∧ type ≠ .errorMsg

variable {m m' : Make} {ns : List Node} {ts : List Token} {reMatch : Nat → Location} {index : Nat}

theorem Since.append (h : Since before Span Adds Grows m.heap) (hb : Built m ns ts)
    (htype : type ≠ .errorMsg) (hspan : Span loc) (hadds : type ∈ ownTypes ∨ Adds type loc)
    (hrun : m.append type loc = .ok m') : Since before Span Adds Grows m'.heap := by
  rw [Make.append, hb.deref] at hrun
  have hheap : m'.heap =
      (m.heap.create type loc).1.pushBack (ns.headD m.top) (some m.heap.nodes.length) := by
    cases hrun
    rfl
  rw [hheap]
  exact h.addChild hb.lt (fun _ => hspan) hadds fun _ => htype

theorem heap_enter (h : m.enter = .ok m') : m'.heap = m.heap := by
  rw [Make.enter] at h
  cases hderef : m.deref with
  | error fault =>
    rw [hderef] at h
    cases h
  | ok n =>
    rw [hderef] at h
    cases h
    rfl

theorem Since.openGroup (h : Since before Span Adds Grows m.heap) (hb : Built m ns ts)
    (hspan : Span (reMatch 0)) (hrun : m.openGroup reMatch = .ok m') :
    Since before Span Adds Grows m'.heap := by
  rw [Make.openGroup, hb.isIn] at hrun
  simp only [bind, Except.bind] at hrun
  split at hrun
  · cases hrun
    exact h
  · obtain ⟨m₁, happend, -, m₂, k, henter, -⟩ := hb.append .group (reMatch 0)
    have h₁ := h.append hb (by decide) hspan (.inl (by decide)) happend
    simp only [happend, henter] at hrun
    cases hrun
    rw [heap_enter henter]
    exact h₁

theorem Since.add (h : Since before Span Adds Grows m.heap) (hb : Built m ns ts)
    (hzero : Span (reMatch 0)) (hspan : Span (reMatch index)) (htype : type ≠ .errorMsg)
    (hadds : type ∈ ownTypes ∨ Adds type (reMatch index))
    (hrun : m.add reMatch type index = .ok m') : Since before Span Adds Grows m'.heap := by
  have hinner : ∀ m₁ ns₁ ts₁, Built m₁ ns₁ ts₁ → Since before Span Adds Grows m₁.heap →
      (if type = .error then { m₁ with errorCount := m₁.errorCount + 1 } else m₁).append type
        (reMatch index) = .ok m' → Since before Span Adds Grows m'.heap := by
    intro m₁ ns₁ ts₁ hb₁ h₁ happend
    split at happend
    · exact Since.append (m := { m₁ with errorCount := m₁.errorCount + 1 }) h₁ (hb₁.withErrors _)
        htype hspan hadds happend
    · exact h₁.append hb₁ htype hspan hadds happend
  rw [Make.add] at hrun
  by_cases hgroup : type = .group
  · rw [if_pos hgroup] at hrun
    exact hinner m ns ts hb h hrun
  · obtain ⟨m₁, ns₁, hopen, hb₁⟩ := hb.openGroup reMatch
    rw [if_neg hgroup, hopen] at hrun
    exact hinner m₁ ns₁ _ hb₁ (h.openGroup hb hzero hopen) hrun

theorem Since.push (h : Since before Span Adds Grows m.heap) (hb : Built m ns ts)
    (hzero : Span (reMatch 0)) (hspan : Span (reMatch index)) (htype : type ≠ .errorMsg)
    (hadds : type ∈ ownTypes ∨ Adds type (reMatch index))
    (hrun : m.push reMatch type index = .ok m') : Since before Span Adds Grows m'.heap := by
  obtain ⟨m₁, ns₁, hadd, -⟩ := hb.add reMatch type index
  rw [Make.push, hadd] at hrun
  rw [heap_enter hrun]
  exact h.add hb hzero hspan htype hadds hadd

theorem Since.extend (h : Since before Span Adds Grows m.heap) (hb : Built m ns ts)
    (hjoin : ∀ l l', Span l → Span l' → Span (l.join l')) (hzero : Span (reMatch 0))
    (hspan : Span (reMatch index)) (htype : type ≠ .errorMsg)
    (hadds : type ∈ ownTypes ∨ Adds type (reMatch index))
    (hold : ∀ back, (m.heap.get (ns.headD m.top)).children.getLast? = some back →
      (m.heap.get back).type = type → back < before.nodes.length →
        Grows back ((m.heap.get back).location.join (reMatch index)))
    (hflex : ∀ l l', Adds type l → Adds type l')
    (hrun : m.extend reMatch type index = .ok m') : Since before Span Adds Grows m'.heap := by
  rw [Make.extend, hb.deref] at hrun
  simp only [bind, Except.bind] at hrun
  split at hrun
  · exact h.add hb hzero hspan htype hadds hrun
  · next back hback =>
    split at hrun
    · next heq =>
      cases hrun
      refine h.extendLocation (hold back hback heq) (fun hle hlt hne => ?_) ?_
      · exact hjoin _ _ (h.within back hle hlt hne) hspan
      · rw [heq]
        exact hflex
    · exact h.add hb hzero hspan htype hadds hrun

theorem Since.invalid (h : Since before Span Adds Grows m.heap) (hb : Built m ns ts)
    (hjoin : ∀ l l', Span l → Span l' → Span (l.join l')) (hzero : Span (reMatch 0))
    (hclose : MayClose before Adds Grows .invalid) (hrun : m.invalid reMatch = .ok m') :
    Since before Span Adds Grows m'.heap := by
  refine Since.extend (m := { m with errorCount := m.errorCount + 1 }) h (hb.withErrors _) hjoin
    hzero hzero (by decide) (.inl (by decide)) ?_ hclose.adds hrun
  intro back _ htype hlt
  exact hclose.grows back hlt ((h.type back hlt).symm.trans htype) _

theorem Since.extendBack (h : Since before Span Adds Grows m.heap) (hb : Built m ns ts)
    (hjoin : ∀ l l', Span l → Span l' → Span (l.join l'))
    (hclose : MayClose before Adds Grows (ts.headD .file)) (hrun : m.extendBack = .ok m') :
    Since before Span Adds Grows m'.heap := by
  rw [Make.extendBack, hb.deref] at hrun
  simp only [bind, Except.bind] at hrun
  have htype := hb.type_head
  split at hrun
  · cases hrun
    exact h
  · next back hback =>
    cases hrun
    refine h.extendLocation (fun hlt => ?_) (fun hle hlt hne => ?_) ?_
    · exact hclose.grows _ hlt ((h.type _ hlt).symm.trans htype) _
    · obtain ⟨hnew, hbound, hmsg⟩ := h.children _ hle hlt back (List.mem_of_getLast? hback)
      have hne' := hmsg (htype.trans_ne hclose.ne.1)
      exact hjoin _ _ (h.within _ hle hlt hne) (h.within back hnew hbound hne')
    · rw [htype]
      exact hclose.adds

theorem Since.tryPop (h : Since before Span Adds Grows m.heap) (hb : Built m ns ts)
    (hjoin : ∀ l l', Span l → Span l' → Span (l.join l')) (hclose : MayClose before Adds Grows type)
    (hrun : m.tryPop type = .ok (m', popped)) : Since before Span Adds Grows m'.heap := by
  by_cases htype : ts.headD .file = type
  · subst htype
    obtain ⟨heap, hextend, hb'⟩ := hb.extendBack
    have h' := h.extendBack hb hjoin hclose hextend
    rw [Make.tryPop, hb.isIn, beq_self_eq_true] at hrun
    simp only [bind, Except.bind, if_true, hextend, hb'.deref] at hrun
    cases hrun
    exact h'
  · rw [hb.tryPop_other htype] at hrun
    cases hrun
    exact h

theorem Since.popType (h : Since before Span Adds Grows m.heap) (hb : Built m ns ts)
    (hjoin : ∀ l l', Span l → Span l' → Span (l.join l')) (hzero : Span (reMatch 0))
    (hclose : MayClose before Adds Grows type) (hinvalid : MayClose before Adds Grows .invalid)
    (hrun : m.popType reMatch type = .ok m') : Since before Span Adds Grows m'.heap := by
  by_cases htype : ts.headD .file = type
  · cases htry : m.tryPop type with
    | error fault =>
      rw [Make.popType, htry] at hrun
      cases hrun
    | ok result =>
      obtain ⟨m₁, popped⟩ := result
      have h₁ := h.tryPop hb hjoin hclose htry
      subst htype
      obtain ⟨m₂, -, hpop⟩ := hb.tryPop_eq
      rw [htry] at hpop
      obtain ⟨rfl, rfl⟩ := Prod.mk.inj (Except.ok.inj hpop)
      rw [Make.popType, htry] at hrun
      cases hrun
      exact h₁
  · rw [hb.popType_other reMatch htype] at hrun
    exact h.invalid hb hjoin hzero hinvalid hrun

theorem Since.term (h : Since before Span Adds Grows m.heap) (hb : Built m ns ts)
    (hjoin : ∀ l l', Span l → Span l' → Span (l.join l'))
    (hclose : MayClose before Adds Grows .group)
    (hrun : m.term [] = .ok m') : Since before Span Adds Grows m'.heap := by
  rw [Make.term, Make.tryPopAll] at hrun
  cases htry : m.tryPop .group with
  | error fault =>
    rw [htry] at hrun
    cases hrun
  | ok result =>
    rw [htry] at hrun
    cases hrun
    exact h.tryPop hb hjoin hclose htry

theorem Since.error (h : Since before Span Adds Grows m.heap) (hb : Built m ns ts)
    (hzero : Span (reMatch 0)) (hspan : Span loc) (msg : String)
    (hrun : m.error reMatch msg loc = .ok m') : Since before Span Adds Grows m'.heap := by
  obtain ⟨m₁, ns₁, hopen, hb₁⟩ := hb.openGroup reMatch
  have h₁ := h.openGroup hb hzero hopen
  rw [Make.error, hopen] at hrun
  have hderef := (hb₁.withErrors (m₁.errorCount + 1)).deref
  simp only [bind, Except.bind, Make.appendError, hderef] at hrun
  cases hrun
  -- the error is attached last, after its own children
  have hroot : Since before Span Adds Grows (m₁.heap.create .error loc).1 :=
    h₁.create (fun _ => hspan) (.inl (by decide))
  have hlt : m₁.heap.nodes.length < (m₁.heap.create .error loc).1.nodes.length := by
    rw [Heap.length_create]
    exact Nat.lt_succ_self _
  have htype : ((m₁.heap.create .error loc).1.get m₁.heap.nodes.length).type = .error := by
    rw [Heap.get_create, if_pos rfl]
  have hmsg : Since before Span Adds Grows
      (((m₁.heap.create .error loc).1.create .errorMsg (.ofString msg)).1.pushBack
        m₁.heap.nodes.length (some (m₁.heap.create .error loc).1.nodes.length)) :=
    hroot.addChild hlt (fun hne => absurd rfl hne) (.inl (by decide)) fun hne => absurd htype hne
  have hgrown := Heap.grown_append hlt .errorMsg (.ofString msg)
  have hast := Heap.grown_append (Nat.lt_of_lt_of_le hlt hgrown.length) .errorAst loc
  have hall := hgrown.trans hast
  refine (hmsg.addChild ?_ (fun _ => hspan) (.inl (by decide))
    fun _ => by decide).pushBack ?_ h₁.length ?_ fun _ => ?_
  · exact Nat.lt_of_lt_of_le hlt hgrown.length
  · exact Nat.lt_of_lt_of_le (Nat.lt_trans hb₁.lt hlt) hall.length
  · exact Nat.lt_of_lt_of_le hlt hall.length
  · have hkept := (hall.type _ hlt).trans htype
    exact fun hne => absurd (hkept.symm.trans hne) (by decide)

/-- The last child of the node is newer than the state before. -/
def LastNew (before : Heap) (m : Make) : Prop :=
  ∀ n back, m.node = some n → (m.heap.get n).children.getLast? = some back →
    before.nodes.length ≤ back

theorem lastNew_append (hb : Built m ns ts) (hlength : before.nodes.length ≤ m.heap.nodes.length)
    (hrun : m.append type loc = .ok m') : LastNew before m' := by
  rw [Make.append, hb.deref] at hrun
  have hheap : m'.heap = (m.heap.create type loc).1.pushBack (ns.headD m.top)
      (some m.heap.nodes.length) ∧ m'.node = m.node := by
    cases hrun
    exact ⟨rfl, rfl⟩
  have hlt : ns.headD m.top < (m.heap.create type loc).1.nodes.length := by
    rw [Heap.length_create]
    exact Nat.lt_succ_of_lt hb.lt
  intro n back hnode hback
  rw [hheap.2, hb.node] at hnode
  obtain rfl := Option.some.inj hnode
  rw [hheap.1, Heap.children_pushBack _ hlt, if_pos rfl, List.getLast?_concat] at hback
  rw [← Option.some.inj hback]
  exact hlength

theorem lastNew_add (hb : Built m ns ts) (hlength : before.nodes.length ≤ m.heap.nodes.length)
    (hrun : m.add reMatch type index = .ok m') : LastNew before m' := by
  have hinner : ∀ m₁ ns₁ ts₁, Built m₁ ns₁ ts₁ → before.nodes.length ≤ m₁.heap.nodes.length →
      (if type = .error then { m₁ with errorCount := m₁.errorCount + 1 } else m₁).append type
        (reMatch index) = .ok m' → LastNew before m' := by
    intro m₁ ns₁ ts₁ hb₁ hle happend
    split at happend
    · exact lastNew_append (m := { m₁ with errorCount := m₁.errorCount + 1 }) (hb₁.withErrors _) hle
        happend
    · exact lastNew_append hb₁ hle happend
  rw [Make.add] at hrun
  by_cases hgroup : type = .group
  · rw [if_pos hgroup] at hrun
    exact hinner m ns ts hb hlength hrun
  · obtain ⟨m₁, ns₁, hopen, hb₁⟩ := hb.openGroup reMatch
    have hkept : Since m.heap (fun _ => True) (fun _ _ => True) (fun _ _ => True) m₁.heap :=
      (Since.refl m.heap).openGroup hb trivial hopen
    rw [if_neg hgroup, hopen] at hrun
    exact hinner m₁ ns₁ _ hb₁ (Nat.le_trans hlength hkept.length) hrun

theorem LastNew.extend (h : LastNew before m) (hb : Built m ns ts)
    (hlength : before.nodes.length ≤ m.heap.nodes.length)
    (hrun : m.extend reMatch type index = .ok m') : LastNew before m' := by
  rw [Make.extend, hb.deref] at hrun
  simp only [bind, Except.bind] at hrun
  split at hrun
  · exact lastNew_add hb hlength hrun
  · next back hback =>
    split at hrun
    · cases hrun
      intro n back' hnode hback'
      rw [Heap.children_extendLocation] at hback'
      exact h n back' hnode hback'
    · exact lastNew_add hb hlength hrun

end Since

end Make

end Trieste
