import Mathlib.Logic.Relation
import Trieste.Ast.Edits
import Trieste.Json.Patch

namespace Trieste.Json
set_option autoImplicit true
open Library Relation

namespace Store

/-- The nodes from a bound on, and what their symbol tables bind, are among themselves. -/
structure Above (bound : Nat) (s : Store) : Prop where
  nodes : Heap.Above bound s.heap
  symbols : ∀ b ∈ s.symbols, bound ≤ b.scope → bound ≤ b.node

/-- The nodes below the bound and their symbol tables are unchanged. -/
structure Frame (bound : Nat) (s s' : Store) : Prop where
  nodes : Heap.Frame bound s.heap s'.heap
  symbols : ∀ b, b.scope < bound → (b ∈ s'.symbols ↔ b ∈ s.symbols)
  binds : ∀ b ∈ s'.symbols, bound ≤ b.scope → bound ≤ b.node

theorem Frame.above (h : Frame bound s s') : Above bound s' := ⟨h.nodes.above, h.binds⟩

theorem Frame.refl (h : Above bound s) : Frame bound s s :=
  ⟨.refl h.nodes, fun _ _ => Iff.rfl, h.symbols⟩

theorem Frame.trans (h : Frame bound s s') (h' : Frame bound s' s'') : Frame bound s s'' :=
  ⟨h.nodes.trans h'.nodes, fun b hb => (h'.symbols b hb).trans (h.symbols b hb), h'.binds⟩

theorem Frame.length (h : Frame bound s s') (hlen : bound ≤ s.heap.nodes.length) :
    bound ≤ s'.heap.nodes.length :=
  Nat.le_trans hlen h.nodes.length

namespace Above
variable {bound : Nat} {s s' : Store}

/-- A change of the nodes only. -/
theorem frame (h : Above bound s) {heap : Heap} (hnodes : Heap.Frame bound s.heap heap) :
    Frame bound s { s with heap } :=
  ⟨hnodes, fun _ _ => Iff.rfl, h.symbols⟩

theorem create (h : Above bound s) (hlen : bound ≤ s.heap.nodes.length) (type : Token)
    (location : Location) : Frame bound s (s.create type location).1 :=
  h.frame (h.nodes.create hlen type location)

theorem pushBack (h : Above bound s) (hp : bound ≤ p) (hn : bound ≤ n) :
    Frame bound s (s.pushBack p n) :=
  h.frame (h.nodes.pushBack hp hn)

theorem insert (h : Above bound s) (hp : bound ≤ p) (hn : bound ≤ n) (pos : Nat) :
    Frame bound s (s.insert p pos n) :=
  h.frame (h.nodes.insert hp hn pos)

/-- A copy is new, whatever it is a copy of. -/
theorem clone (h : Above bound s) (hlen : bound ≤ s.heap.nodes.length)
    (hc : s.clone n = some (s', copy)) : Frame bound s s' ∧ bound ≤ copy := by
  obtain ⟨⟨heap, copy'⟩, hclone, he⟩ := Option.map_eq_some_iff.1 hc
  cases he
  obtain ⟨hframe, rfl⟩ := h.nodes.clone hlen hclone
  exact ⟨h.frame hframe, hlen⟩

theorem replace (h : Above bound s) (hp : bound ≤ p) (hn₁ : bound ≤ n₁)
    (hn₂ : ∀ n, n₂ = some n → bound ≤ n) (hr : s.replace p n₁ n₂ = some s') :
    Frame bound s s' := by
  obtain ⟨heap, hreplace, rfl⟩ := Option.map_eq_some_iff.1 hr
  exact h.frame (h.nodes.replace hp hn₁ hn₂ hreplace)

theorem replaceAt (h : Above bound s) (hp : bound ≤ p) (hn : bound ≤ n)
    (hr : s.replaceAt p index n = some s') : Frame bound s s' := by
  obtain ⟨child, hchild, hr⟩ := Option.bind_eq_some_iff.1 hr
  have hmem := h.nodes.children p child hp (List.mem_of_getElem? hchild)
  apply h.replace hp hmem _ hr
  intro m hm
  exact Option.some.inj hm ▸ hn

theorem err (h : Above bound s) (hlen : bound ≤ s.heap.nodes.length)
    (he : s.err node msg = some (s', e)) : Frame bound s s' ∧ s'.isError e = true := by
  obtain ⟨⟨heap, e'⟩, herr, he⟩ := Option.map_eq_some_iff.1 he
  cases he
  obtain ⟨hframe, rfl, htype⟩ := err_frame h.nodes hlen herr
  exact ⟨h.frame hframe, decide_eq_true htype⟩

theorem errAt (h : Above bound s) (hlen : bound ≤ s.heap.nodes.length)
    (he : s.errAt type location msg = some (s', e)) : Frame bound s s' := by
  obtain ⟨⟨heap, e'⟩, herr, he⟩ := Option.map_eq_some_iff.1 he
  cases he
  have hcreate := h.nodes.create hlen type location
  obtain ⟨hframe, -, -⟩ := err_frame hcreate.above (Nat.le_trans hlen hcreate.length) herr
  exact h.frame (hcreate.trans hframe)

/-- What is looked up in a scope above the bound is above it. -/
theorem lookdown (h : Above bound s) (hn : bound ≤ n) (hm : m ∈ s.lookdown n key) : bound ≤ m := by
  obtain ⟨b, hb, rfl⟩ := List.mem_map.1 hm
  obtain ⟨hb, hscope⟩ := List.mem_filter.1 hb
  have hscope := of_decide_eq_true hscope
  exact h.symbols b hb (hscope.1 ▸ hn)

theorem memberField (h : Above bound s) (hn : bound ≤ n)
    (hv : Store.memberField s.heap index n = some v) : bound ≤ v := by
  unfold Store.memberField at hv
  split at hv
  · exact h.nodes.children n v hn (List.mem_of_getElem? hv)
  · cases hv

theorem assignValue (h : Above bound s) (hmember : bound ≤ member) (hn : bound ≤ n)
    (ha : s.assignValue member n = some s') : Frame bound s s' := by
  obtain ⟨value, hvalue, ha⟩ := Option.bind_eq_some_iff.1 ha
  obtain ⟨p, hp, ha⟩ := Option.bind_eq_some_iff.1 ha
  have hv := h.memberField hmember hvalue
  exact h.replaceAt (h.nodes.parent value p hv hp) hn ha

theorem clearSymbols (h : Above bound s) (hn : bound ≤ n) : Frame bound s (s.clearSymbols n) := by
  refine ⟨.refl h.nodes, fun b hb => ?_, fun b hb => h.symbols b (List.mem_of_mem_filter hb)⟩
  have hne : b.scope ≠ n := Nat.ne_of_lt (Nat.lt_of_lt_of_le hb hn)
  rw [Store.clearSymbols, List.mem_filter, decide_eq_true hne]
  exact and_iff_left rfl

theorem scopeFrom {heap : Heap} (h : Heap.Above bound heap) (hp : ∀ p, first = some p → bound ≤ p)
    (hs : Store.scopeFrom heap fuel first = some st) : bound ≤ st := by
  induction fuel generalizing first with
  | zero => cases hs
  | succ fuel ih =>
    cases first with
    | none => cases hs
    | some p =>
      have hbound := hp p rfl
      unfold Store.scopeFrom at hs
      split at hs
      · exact Option.some.inj hs ▸ hbound
      · exact ih (fun q hq => h.parent p q hbound hq) hs

theorem bind (h : Above bound s) (hn : bound ≤ n) (hb : s.bind n name = some s') :
    Frame bound s s' := by
  obtain ⟨st, hst, rfl⟩ := Option.map_eq_some_iff.1 hb
  have hscope : bound ≤ st := scopeFrom h.nodes (fun p hp => h.nodes.parent n p hn hp) hst
  refine ⟨.refl h.nodes, fun b hb => ?_, fun b hb hbound => ?_⟩
  · rw [List.mem_append, List.mem_singleton]
    apply or_iff_left
    rintro rfl
    exact absurd hscope (Nat.not_le.2 hb)
  · rcases List.mem_append.1 hb with hb | hb
    · exact h.symbols b hb hbound
    · obtain rfl := List.mem_singleton.1 hb
      exact hn

theorem bindShape (h : Above bound s) (hn : bound ≤ n) (hb : s.bindShape n = some s') :
    Frame bound s s' := by
  unfold Store.bindShape at hb
  split at hb
  · split at hb
    · exact Option.some.inj hb ▸ .refl h
    · exact h.bind hn hb
  · exact Option.some.inj hb ▸ .refl h

theorem buildStFrom (h : Above bound s) (hn : bound ≤ n)
    (hb : Store.buildStFrom fuel s n = some s') : Frame bound s s' := by
  induction fuel generalizing s n s' with
  | zero => cases hb
  | succ fuel ih =>
    unfold Store.buildStFrom at hb
    split at hb
    · exact Option.some.inj hb ▸ .refl h
    · obtain ⟨s₁, hshape, hfold⟩ := Option.bind_eq_some_iff.1 hb
      have hclear := h.clearSymbols hn
      have hframe := hclear.trans (hclear.above.bindShape hn hshape)
      apply foldlM_invariant (I := Frame bound s) _ hframe hfold
      intro t child t' hchild ht hstep
      have hc := hframe.above.nodes.children n child hn hchild
      exact ht.trans (ih ht.above hc hstep)

theorem buildSt (h : Above bound s) (hn : bound ≤ n) (hb : s.buildSt n = some s') :
    Frame bound s s' :=
  h.buildStFrom hn hb

end Above

end Store

/-- An action that edits is used only above the bound. -/
def Safe (action : Action) (bound : Nat) (n : Node) : Prop :=
  action = .read ∨ action = .compare ∨ bound ≤ n

theorem Safe.of_edit (h : Safe action bound n) (hread : action ≠ .read)
    (hcompare : action ≠ .compare) : bound ≤ n := by
  rcases h with h | h | h
  · exact absurd h hread
  · exact absurd h hcompare
  · exact h

theorem Safe.next (h : Safe action bound n) (hnext : bound ≤ n → bound ≤ m) :
    Safe action bound m :=
  h.imp_right fun h => h.imp_right hnext

theorem errAt_frame {heap : Heap} (h : Heap.Above bound heap) (hlen : bound ≤ heap.nodes.length)
    (he : errAt heap type location msg = some (heap', e)) :
    Heap.Frame bound heap heap' ∧ bound ≤ e := by
  have hcreate := h.create hlen type location
  have hlen' := Nat.le_trans hlen hcreate.length
  obtain ⟨hframe, rfl, -⟩ := err_frame hcreate.above hlen' he
  exact ⟨hcreate.trans hframe, hlen'⟩

theorem arrayLookup_frame {heap : Heap} (h : Heap.Above bound heap)
    (hlen : bound ≤ heap.nodes.length)
    (hl : arrayLookup heap current key index = some (heap', element, index')) :
    Heap.Frame bound heap heap' ∧ (bound ≤ current → bound ≤ element) := by
  have herror : ∀ {type msg index}, (errAt heap type key msg).map (fun r => (r.1, r.2, index)) =
      some (heap', element, index') →
        Heap.Frame bound heap heap' ∧ (bound ≤ current → bound ≤ element) := by
    intro type msg index he
    obtain ⟨⟨heap₁, e⟩, herr, he⟩ := Option.map_eq_some_iff.1 he
    cases he
    obtain ⟨hframe, hbound⟩ := errAt_frame h hlen herr
    exact ⟨hframe, fun _ => hbound⟩
  unfold arrayLookup at hl
  dsimp only at hl
  split at hl
  · exact herror hl
  · split at hl
    · cases hl
    · split at hl
      · exact herror hl
      · split at hl
        · exact herror hl
        · split at hl
          · exact herror hl
          · split at hl
            · exact herror hl
            · next hchild =>
              cases hl
              exact ⟨.refl h, fun hc => h.children current _ hc (List.mem_of_getElem? hchild)⟩

section Operation
variable [BEq α] {std : StdLib α} {s s' : Store}

theorem compare_frame (h : s.Above bound) (hlen : bound ≤ s.heap.nodes.length)
    (hc : compare std s actual expected = some (s', result)) : s.Frame bound s' := by
  unfold compare at hc
  split at hc
  · cases hc
    exact .refl h
  · obtain ⟨same, -, hc⟩ := Option.bind_eq_some_iff.1 hc
    split at hc
    · cases hc
      exact .refl h
    · obtain ⟨_, -, hc⟩ := Option.bind_eq_some_iff.1 hc
      obtain ⟨_, -, hc⟩ := Option.bind_eq_some_iff.1 hc
      exact (h.err hlen hc).1

namespace Operation
variable {op : Operation}

theorem addMember_frame {object value : Node} (h : s.Above bound)
    (hlen : bound ≤ s.heap.nodes.length) (hobject : bound ≤ object)
    (ha : addMember s object key value = some s') : s.Frame bound s' := by
  obtain ⟨⟨s₁, copy⟩, hclone, ha⟩ := Option.bind_eq_some_iff.1 ha
  cases ha
  have h₁ := h.create hlen .jsonMember {}
  have hkey := h₁.length hlen
  have h₂ := h₁.trans (h₁.above.create hkey .jsonKey key)
  have h₃ := h₂.trans (h₂.above.pushBack hlen hkey)
  obtain ⟨h₄, hcopy⟩ := h₃.above.clone (h₃.length hlen) hclone
  have h₅ := h₄.trans (h₄.above.pushBack hlen hcopy)
  exact h₃.trans (h₅.trans (h₅.above.pushBack hobject hlen))

theorem assignCopy_frame {member value : Node} (h : s.Above bound)
    (hlen : bound ≤ s.heap.nodes.length) (hmember : bound ≤ member)
    (ha : assignCopy s member value = some s') : s.Frame bound s' := by
  obtain ⟨⟨s₁, copy⟩, hclone, ha⟩ := Option.bind_eq_some_iff.1 ha
  obtain ⟨h₁, hcopy⟩ := h.clone hlen hclone
  exact h₁.trans (h₁.above.assignValue hmember hcopy ha)

theorem objectAction_frame (h : s.Above bound) (hlen : bound ≤ s.heap.nodes.length)
    (hsafe : Safe op.action bound object)
    (ha : op.objectAction std s object key = some (s', result)) : s.Frame bound s' := by
  unfold objectAction at ha
  cases hlookdown : s.lookdown object key with
  | nil =>
    rw [hlookdown] at ha
    cases haction : op.action with
    | insert =>
      rw [haction] at ha hsafe
      obtain ⟨value, -, ha⟩ := Option.bind_eq_some_iff.1 ha
      obtain ⟨s₁, hadd, ha⟩ := Option.bind_eq_some_iff.1 ha
      cases ha
      exact addMember_frame h hlen (hsafe.of_edit (by decide) (by decide)) hadd
    | read | replace | remove | compare =>
      rw [haction] at ha
      exact (h.err hlen ha).1
  | cons member rest =>
    rw [hlookdown] at ha
    obtain ⟨existing, -, ha⟩ := Option.bind_eq_some_iff.1 ha
    have hmember : bound ≤ object → bound ≤ member := by
      intro hobject
      exact h.lookdown hobject (hlookdown ▸ List.mem_cons_self)
    cases haction : op.action with
    | compare =>
      rw [haction] at ha
      obtain ⟨value, -, ha⟩ := Option.bind_eq_some_iff.1 ha
      exact compare_frame h hlen ha
    | read =>
      rw [haction] at ha
      cases ha
      exact .refl h
    | insert | replace =>
      rw [haction] at ha hsafe
      obtain ⟨value, -, ha⟩ := Option.bind_eq_some_iff.1 ha
      obtain ⟨s₁, hassign, ha⟩ := Option.bind_eq_some_iff.1 ha
      cases ha
      exact assignCopy_frame h hlen (hmember (hsafe.of_edit (by decide) (by decide))) hassign
    | remove =>
      rw [haction] at ha hsafe
      have hobject := hsafe.of_edit (by decide) (by decide)
      obtain ⟨s₁, hreplace, ha⟩ := Option.bind_eq_some_iff.1 ha
      cases ha
      exact h.replace hobject (hmember hobject) (fun n hn => by cases hn) hreplace

theorem elementAction_frame (h : s.Above bound) (hlen : bound ≤ s.heap.nodes.length)
    (hsafe : Safe op.action bound array) (helement : bound ≤ array → bound ≤ element)
    (ha : op.elementAction std s array element index = some (s', result)) :
    s.Frame bound s' := by
  unfold elementAction at ha
  cases haction : op.action with
  | compare =>
    rw [haction] at ha
    obtain ⟨value, -, ha⟩ := Option.bind_eq_some_iff.1 ha
    obtain ⟨⟨s₁, copy⟩, hclone, ha⟩ := Option.bind_eq_some_iff.1 ha
    obtain ⟨h₁, -⟩ := h.clone hlen hclone
    exact h₁.trans (compare_frame h₁.above (h₁.length hlen) ha)
  | insert =>
    rw [haction] at ha hsafe
    obtain ⟨value, -, ha⟩ := Option.bind_eq_some_iff.1 ha
    obtain ⟨⟨s₁, copy⟩, hclone, ha⟩ := Option.bind_eq_some_iff.1 ha
    cases ha
    obtain ⟨h₁, hcopy⟩ := h.clone hlen hclone
    exact h₁.trans (h₁.above.insert (hsafe.of_edit (by decide) (by decide)) hcopy index)
  | read =>
    rw [haction] at ha
    cases ha
    exact .refl h
  | remove =>
    rw [haction] at ha hsafe
    have harray := hsafe.of_edit (by decide) (by decide)
    obtain ⟨s₁, hreplace, ha⟩ := Option.bind_eq_some_iff.1 ha
    cases ha
    exact h.replace harray (helement harray) (fun n hn => by cases hn) hreplace
  | replace =>
    rw [haction] at ha hsafe
    obtain ⟨value, -, ha⟩ := Option.bind_eq_some_iff.1 ha
    obtain ⟨⟨s₁, copy⟩, hclone, ha⟩ := Option.bind_eq_some_iff.1 ha
    obtain ⟨s₂, hreplace, ha⟩ := Option.bind_eq_some_iff.1 ha
    cases ha
    obtain ⟨h₁, hcopy⟩ := h.clone hlen hclone
    exact h₁.trans (h₁.above.replaceAt (hsafe.of_edit (by decide) (by decide)) hcopy hreplace)

theorem arrayAction_frame (h : s.Above bound) (hlen : bound ≤ s.heap.nodes.length)
    (hsafe : Safe op.action bound array)
    (ha : op.arrayAction std s array key = some (s', result)) : s.Frame bound s' := by
  obtain ⟨⟨heap, element, index⟩, hlookup, ha⟩ := Option.bind_eq_some_iff.1 ha
  obtain ⟨hnodes, helement⟩ := arrayLookup_frame h.nodes hlen hlookup
  have h₁ := h.frame hnodes
  have hlen₁ := h₁.length hlen
  dsimp only at ha
  split at ha
  · next haction =>
    rw [haction.1] at hsafe
    obtain ⟨value, -, ha⟩ := Option.bind_eq_some_iff.1 ha
    obtain ⟨⟨s₁, copy⟩, hclone, ha⟩ := Option.bind_eq_some_iff.1 ha
    cases ha
    obtain ⟨h₂, hcopy⟩ := h₁.above.clone hlen₁ hclone
    exact (h₁.trans h₂).trans
      (h₂.above.pushBack (hsafe.of_edit (by decide) (by decide)) hcopy)
  · split at ha
    · cases ha
      exact h₁
    · exact h₁.trans (elementAction_frame h₁.above hlen₁ hsafe helement ha)

theorem act_frame (h : s.Above bound) (hlen : bound ≤ s.heap.nodes.length)
    (hsafe : Safe op.action bound current)
    (ha : op.act std s current key = some (s', result)) : s.Frame bound s' := by
  unfold act at ha
  split at ha
  · exact objectAction_frame h hlen hsafe ha
  · split at ha
    · exact arrayAction_frame h hlen hsafe ha
    · exact (h.err hlen ha).1

theorem follow_frame (h : s.Above bound) (hlen : bound ≤ s.heap.nodes.length)
    (hf : follow s current key = some (s', result)) :
    s.Frame bound s' ∧ ∀ next, result = .ok next → bound ≤ current → bound ≤ next := by
  unfold follow at hf
  split at hf
  · cases hlookdown : s.lookdown current key with
    | nil =>
      rw [hlookdown] at hf
      obtain ⟨⟨s₁, e⟩, herr, hf⟩ := Option.bind_eq_some_iff.1 hf
      cases hf
      exact ⟨(h.err hlen herr).1, fun next hnext => nomatch hnext⟩
    | cons member rest =>
      rw [hlookdown] at hf
      obtain ⟨value, hvalue, hf⟩ := Option.bind_eq_some_iff.1 hf
      cases hf
      refine ⟨.refl h, fun next hnext hcurrent => ?_⟩
      cases hnext
      exact h.memberField (h.lookdown hcurrent (hlookdown ▸ List.mem_cons_self)) hvalue
  · split at hf
    · obtain ⟨⟨heap, element, index⟩, hlookup, hf⟩ := Option.bind_eq_some_iff.1 hf
      obtain ⟨hnodes, helement⟩ := arrayLookup_frame h.nodes hlen hlookup
      cases hf
      refine ⟨h.frame hnodes, fun next hnext hcurrent => ?_⟩
      split at hnext
      · cases hnext
      · cases hnext
        exact helement hcurrent
    · obtain ⟨⟨s₁, e⟩, herr, hf⟩ := Option.bind_eq_some_iff.1 hf
      cases hf
      exact ⟨(h.err hlen herr).1, fun next hnext => nomatch hnext⟩

theorem walk_frame (h : s.Above bound) (hlen : bound ≤ s.heap.nodes.length)
    (hsafe : Safe op.action bound current)
    (hw : op.walk std s current keys = some (s', result)) : s.Frame bound s' := by
  induction keys generalizing s current with
  | nil => cases hw
  | cons key keys ih =>
    cases keys with
    | nil => exact act_frame h hlen hsafe hw
    | cons key' keys =>
      obtain ⟨⟨s₁, next⟩, hfollow, hw⟩ := Option.bind_eq_some_iff.1 hw
      obtain ⟨h₁, hnext⟩ := follow_frame h hlen hfollow
      cases next with
      | error e =>
        cases hw
        exact h₁
      | ok next =>
        exact h₁.trans (ih h₁.above (h₁.length hlen) (hsafe.next (hnext next rfl)) hw)

theorem run_frame (h : s.Above bound) (hlen : bound ≤ s.heap.nodes.length)
    (hsafe : Safe op.action bound document)
    (hr : op.run std s document = some (s', result)) : s.Frame bound s' := by
  unfold run at hr
  split at hr
  · exact h.errAt hlen hr
  · unfold rootAction at hr
    cases haction : op.action with
    | read =>
      rw [haction] at hr
      cases hr
      exact .refl h
    | replace | insert =>
      rw [haction] at hr
      obtain ⟨value, -, hr⟩ := Option.map_eq_some_iff.1 hr
      cases hr
      exact .refl h
    | remove =>
      rw [haction] at hr
      exact h.errAt hlen hr
    | compare =>
      rw [haction] at hr
      obtain ⟨value, -, hr⟩ := Option.bind_eq_some_iff.1 hr
      exact compare_frame h hlen hr
  · exact walk_frame h hlen hsafe hr

end Operation

end Operation

namespace Patch
section Patch
variable [BEq α] {std : StdLib α} {s s' : Store} {op : Op}

theorem select_frame (h : s.Above bound) (hlen : bound ≤ s.heap.nodes.length)
    (hs : select std s document path = some (s', node)) : s.Frame bound s' :=
  Operation.run_frame h hlen (.inl rfl) hs

theorem selectString_frame (h : s.Above bound) (hlen : bound ≤ s.heap.nodes.length)
    (hs : selectString std s document path = some (s', found)) : s.Frame bound s' := by
  obtain ⟨⟨s₁, node⟩, hselect, hs⟩ := Option.bind_eq_some_iff.1 hs
  cases hs
  exact select_frame h hlen hselect

namespace Op

theorem ofType_frame {node : Node} {type : OpType} {path : Location} (h : s.Above bound)
    (hlen : bound ≤ s.heap.nodes.length)
    (ho : ofType std s node type path = some (s', op)) : s.Frame bound s' := by
  cases type with
  | remove | error =>
    cases ho
    exact .refl h
  | add | replace | test =>
    obtain ⟨⟨s₁, value⟩, hselect, ho⟩ := Option.bind_eq_some_iff.1 ho
    cases ho
    exact select_frame h hlen hselect
  | copy | move =>
    obtain ⟨⟨s₁, found⟩, hselect, ho⟩ := Option.bind_eq_some_iff.1 ho
    cases found with
    | none =>
      cases ho
      exact selectString_frame h hlen hselect
    | some found =>
      cases ho
      exact selectString_frame h hlen hselect

theorem fromNode_frame {node : Node} (h : s.Above bound) (hlen : bound ≤ s.heap.nodes.length)
    (hf : fromNode std s node = some (s', op)) : s.Frame bound s' := by
  obtain ⟨⟨s₁, name⟩, hname, hf⟩ := Option.bind_eq_some_iff.1 hf
  have h₁ := selectString_frame h hlen hname
  cases name with
  | none =>
    cases hf
    exact h₁
  | some name =>
    dsimp only at hf
    split at hf
    · cases hf
      exact h₁
    · obtain ⟨⟨s₂, path⟩, hpath, hf⟩ := Option.bind_eq_some_iff.1 hf
      have h₂ := h₁.trans (selectString_frame h₁.above (h₁.length hlen) hpath)
      cases path with
      | none =>
        cases hf
        exact h₂
      | some path => exact h₂.trans (ofType_frame h₂.above (h₂.length hlen) hf)

/-- The result of an operation, unless it is an error, is above the bound. -/
theorem runOn_frame {operation : Operation} (h : s.Above bound) (hlen : bound ≤ s.heap.nodes.length)
    (hsafe : Safe operation.action bound document)
    (hr : runOn std s document operation = some (s', result)) :
    s.Frame bound s' ∧ (s'.isError result = false → result = document) := by
  obtain ⟨⟨s₁, found⟩, hrun, hr⟩ := Option.bind_eq_some_iff.1 hr
  cases hr
  refine ⟨Operation.run_frame h hlen hsafe hrun, fun herror => ?_⟩
  split at herror
  · next hfound => exact absurd hfound (Bool.eq_false_iff.1 herror)
  · next hfound => exact if_neg hfound

theorem test_frame (h : s.Above bound) (hlen : bound ≤ s.heap.nodes.length)
    (ht : op.test std s document = some (s', result)) : s.Frame bound s' :=
  (runOn_frame h hlen (.inr (.inl rfl)) ht).1

theorem transfer_frame (h : s.Above bound) (hlen : bound ≤ s.heap.nodes.length)
    (hdoc : bound ≤ document) (ht : op.transfer std take s document = some (s', result)) :
    s.Frame bound s' ∧ (s'.isError result = false → result = document) := by
  unfold transfer at ht
  split at ht
  · cases ht
    exact ⟨.refl h, fun _ => rfl⟩
  · obtain ⟨⟨s₁, existing⟩, hrun, ht⟩ := Option.bind_eq_some_iff.1 ht
    have h₁ := Operation.run_frame h hlen (.inr (.inr hdoc)) hrun
    dsimp only at ht
    split at ht
    · next herror =>
      cases ht
      exact ⟨h₁, fun hno => absurd herror (Bool.eq_false_iff.1 hno)⟩
    · obtain ⟨h₂, hresult⟩ := runOn_frame h₁.above (h₁.length hlen) (.inr (.inr hdoc)) ht
      exact ⟨h₁.trans h₂, hresult⟩

theorem apply_frame (h : s.Above bound) (hlen : bound ≤ s.heap.nodes.length)
    (hdoc : bound ≤ document) (ha : op.apply std s document = some (s', result)) :
    s.Frame bound s' ∧ (s'.isError result = false → bound ≤ result) := by
  have hkeep : s.Frame bound s' ∧ (s'.isError result = false → result = document) →
      s.Frame bound s' ∧ (s'.isError result = false → bound ≤ result) := by
    intro hresult
    exact ⟨hresult.1, fun hno => hresult.2 hno ▸ hdoc⟩
  have hclone : op.value.bind s.clone = some (s', result) →
      s.Frame bound s' ∧ (s'.isError result = false → bound ≤ result) := by
    intro hc
    obtain ⟨value, -, hc⟩ := Option.bind_eq_some_iff.1 hc
    obtain ⟨h₁, hcopy⟩ := h.clone hlen hc
    exact ⟨h₁, fun _ => hcopy⟩
  unfold apply at ha
  split at ha
  · exact hkeep (runOn_frame h hlen (.inr (.inl rfl)) ha)
  · unfold add at ha
    split at ha
    · exact hclone ha
    · exact hkeep (runOn_frame h hlen (.inr (.inr hdoc)) ha)
  · exact hkeep (runOn_frame h hlen (.inr (.inr hdoc)) ha)
  · unfold replace at ha
    split at ha
    · exact hclone ha
    · exact hkeep (runOn_frame h hlen (.inr (.inr hdoc)) ha)
  · exact hkeep (transfer_frame h hlen hdoc ha)
  · exact hkeep (transfer_frame h hlen hdoc ha)
  · obtain ⟨h₁, herror⟩ := h.err hlen ha
    exact ⟨h₁, fun hno => absurd herror (Bool.eq_false_iff.1 hno)⟩

end Op

theorem readOps_frame (h : s.Above bound) (hlen : bound ≤ s.heap.nodes.length)
    (hr : readOps std s document nodes = some (s', result)) :
    s.Frame bound s' ∧ ∀ e, result = .error e → s'.isError e = true := by
  induction nodes generalizing s s' result with
  | nil =>
    cases hr
    exact ⟨.refl h, fun e he => nomatch he⟩
  | cons node rest ih =>
    obtain ⟨⟨s₁, op⟩, hop, hr⟩ := Option.bind_eq_some_iff.1 hr
    have h₁ := Op.fromNode_frame h hlen hop
    have hlen₁ := h₁.length hlen
    dsimp only at hr
    split at hr
    · obtain ⟨⟨s₂, e⟩, herr, hr⟩ := Option.bind_eq_some_iff.1 hr
      cases hr
      obtain ⟨h₂, herror⟩ := h₁.above.err hlen₁ herr
      refine ⟨h₁.trans h₂, fun e' he' => ?_⟩
      cases he'
      exact herror
    · split at hr
      · next htest =>
        obtain ⟨⟨s₂, found⟩, happly, hr⟩ := Option.bind_eq_some_iff.1 hr
        have happly : op.test std s₁ document = some (s₂, found) := by
          rw [Op.apply, htest] at happly
          exact happly
        have h₂ := h₁.trans (Op.test_frame h₁.above hlen₁ happly)
        dsimp only at hr
        split at hr
        · next herror =>
          cases hr
          refine ⟨h₂, fun e he => ?_⟩
          cases he
          exact herror
        · obtain ⟨h₃, herror⟩ := ih h₂.above (h₂.length hlen) hr
          exact ⟨h₂.trans h₃, herror⟩
      · obtain ⟨⟨s₂, ops⟩, hrest, hr⟩ := Option.bind_eq_some_iff.1 hr
        obtain ⟨h₂, herror⟩ := ih h₁.above hlen₁ hrest
        cases hr
        refine ⟨h₁.trans h₂, fun e he => ?_⟩
        cases ops with
        | error e' =>
          cases he
          exact herror _ rfl
        | ok ops => cases he

theorem applyOps_frame {ops : List Op} (h : s.Above bound) (hlen : bound ≤ s.heap.nodes.length)
    (hpatched : bound ≤ patched) (ha : applyOps std s patched ops = some (s', result)) :
    s.Frame bound s' ∧ (s'.isError result = false → bound ≤ result) := by
  induction ops generalizing s patched with
  | nil =>
    cases ha
    exact ⟨.refl h, fun _ => hpatched⟩
  | cons op rest ih =>
    obtain ⟨⟨s₁, patched₁⟩, happly, ha⟩ := Option.bind_eq_some_iff.1 ha
    obtain ⟨h₁, hresult⟩ := Op.apply_frame h hlen hpatched happly
    dsimp only at ha
    split at ha
    · next herror =>
      cases ha
      exact ⟨h₁, fun hno => absurd herror (Bool.eq_false_iff.1 hno)⟩
    · next herror =>
      obtain ⟨s₂, hbuild, ha⟩ := Option.bind_eq_some_iff.1 ha
      have hpatched₁ := hresult (Bool.eq_false_iff.2 herror)
      have h₂ := h₁.trans (h₁.above.buildSt hpatched₁ hbuild)
      obtain ⟨h₃, hresult₃⟩ := ih h₂.above (h₂.length hlen) hpatched₁ ha
      exact ⟨h₂.trans h₃, hresult₃⟩

end Patch
end Patch

/-- A whole patch changes nothing below the bound, and unless it is empty or fails its result is
above it. -/
theorem patch_above [BEq α] {std : StdLib α} {s s' : Store} (h : s.Above bound)
    (hlen : bound ≤ s.heap.nodes.length)
    (hp : patch std s document operations = some (s', result)) :
    s.Frame bound s' ∧ ((s.heap.get operations).children ≠ [] → s'.isError result = false →
      bound ≤ result) := by
  unfold patch at hp
  split at hp
  · obtain ⟨h₁, herror⟩ := h.err hlen hp
    exact ⟨h₁, fun _ hno => absurd herror (Bool.eq_false_iff.1 hno)⟩
  · split at hp
    · next hempty =>
      cases hp
      exact ⟨.refl h, fun hne => absurd hempty hne⟩
    · obtain ⟨⟨s₁, ops⟩, hread, hp⟩ := Option.bind_eq_some_iff.1 hp
      obtain ⟨h₁, herror⟩ := Patch.readOps_frame h hlen hread
      cases ops with
      | error e =>
        cases hp
        exact ⟨h₁, fun _ hno => absurd (herror _ rfl) (Bool.eq_false_iff.1 hno)⟩
      | ok ops =>
        obtain ⟨⟨s₂, patched⟩, hclone, hp⟩ := Option.bind_eq_some_iff.1 hp
        obtain ⟨s₃, hbuild, hp⟩ := Option.bind_eq_some_iff.1 hp
        obtain ⟨h₂, hpatched⟩ := h₁.above.clone (h₁.length hlen) hclone
        have h₃ := h₁.trans (h₂.trans (h₂.above.buildSt hpatched hbuild))
        obtain ⟨h₄, hresult⟩ := Patch.applyOps_frame h₃.above (h₃.length hlen) hpatched hp
        exact ⟨h₃.trans h₄, fun _ => hresult⟩

/-- The nodes have the symbol tables, so whatever is in the store is unchanged by a patch, and by
edits of the result of one that is not empty and does not fail. -/
theorem patch_isolated [BEq α] {std : StdLib α} {s s' : Store}
    (hsymbols : ∀ b ∈ s.symbols, b.scope < s.heap.nodes.length)
    (hp : patch std s document operations = some (s', result)) :
    (∀ n < s.heap.nodes.length, s'.heap.get n = s.heap.get n) ∧
    (∀ b, b.scope < s.heap.nodes.length → (b ∈ s'.symbols ↔ b ∈ s.symbols)) ∧
    ((s.heap.get operations).children ≠ [] → s'.isError result = false → ∀ heap,
      ReflTransGen (Edit result s'.heap.nodes.length) s'.heap heap →
      ∀ n < s.heap.nodes.length, heap.get n = s.heap.get n) := by
  have habove : s.Above s.heap.nodes.length := by
    apply Store.Above.mk (.length s.heap)
    intro b hb hscope
    exact absurd (hsymbols b hb) (Nat.not_lt.2 hscope)
  obtain ⟨hframe, hresult⟩ := patch_above habove (Nat.le_refl _) hp
  refine ⟨hframe.nodes.kept, hframe.symbols, fun hne hno heap hedits n hn => ?_⟩
  have hlen := hframe.nodes.length
  have hedited := edits_frame hframe.nodes.above (hresult hne hno) hlen hlen hedits
  exact (hedited.kept n hn).trans (hframe.nodes.kept n hn)

/-- The document `{"a": 1}` and the patch `[{"op": "remove", "path": "/a"}]`. -/
def removeMember : Store where
  heap := {
    nodes := [
      { type := .jsonObject, children := [1] },
      { type := .jsonMember, parent := some 0, children := [2, 3] },
      { type := .jsonKey, location := .ofString "a", parent := some 1 },
      { type := .jsonNumber, location := .ofString "1", parent := some 1 },
      { type := .jsonArray, children := [5] },
      { type := .jsonObject, parent := some 4, children := [6, 9] },
      { type := .jsonMember, parent := some 5, children := [7, 8] },
      { type := .jsonKey, location := .ofString "op", parent := some 6 },
      { type := .jsonString, location := .ofString "\"remove\"", parent := some 6 },
      { type := .jsonMember, parent := some 5, children := [10, 11] },
      { type := .jsonKey, location := .ofString "path", parent := some 9 },
      { type := .jsonString, location := .ofString "\"/a\"", parent := some 9 }] }
  symbols := [⟨0, "a", 1⟩, ⟨5, "op", 6⟩, ⟨5, "path", 9⟩]

theorem patch_isolated_remove : ∃ s' result,
    patch stdInt removeMember 0 4 = some (s', result) ∧ (s'.heap.get result).children = [] ∧
      ∀ heap, ReflTransGen (Edit result s'.heap.nodes.length) s'.heap heap →
        ∀ n < 12, heap.get n = removeMember.heap.get n := by
  have hrun : ((patch stdInt removeMember 0 4).map fun r =>
      (r.1.isError r.2, (r.1.heap.get r.2).children)) = some (false, []) := by decide +kernel
  obtain ⟨⟨s', result⟩, hp, hresult⟩ := Option.map_eq_some_iff.1 hrun
  obtain ⟨hno, hchildren⟩ := Prod.mk.inj hresult
  have hisolated := patch_isolated (by decide) hp
  exact ⟨s', result, hp, hchildren, hisolated.2.2 (by decide) hno⟩

end Trieste.Json
