import Trieste.Json.PatchFrame
import Trieste.Json.Tables

namespace Trieste.Json
set_option autoImplicit true
open Library Relation

/-- The nodes that keys lead to, as far as they lead. -/
def trail (s : Store) (current : Node) : List Location → List Node
  | [] => []
  | key :: keys =>
    match Operation.follow s current key with
    | some (_, .ok next) => next :: trail s next keys
    | _ => []

/-- The node that all of the keys lead to. -/
def target (s : Store) (current : Node) : List Location → Option Node
  | [] => some current
  | key :: keys =>
    match Operation.follow s current key with
    | some (_, .ok next) => target s next keys
    | _ => none

def Selects (s : Store) (document : Node) (path : Location) (n : Node) : Prop :=
  ∃ keys, pointer path = some keys ∧ target s document keys = some n

def elementIndex (text : List Char) : Option Nat :=
  if text = ['-'] then none
  else
    match text with
    | [] => none
    | front :: _ =>
      if front = '-' ∨ front = '0' ∧ 1 < text.length then none
      else if (indexLoop text 0).2 then some (indexLoop text 0).1
      else none

theorem arrayLookup_element {heap heap' : Heap}
    (h : arrayLookup heap current key index = some (heap', element, index'))
    (hno : (heap'.get element).type ≠ .error) :
    heap' = heap ∧ elementIndex key.view.toList = some index' ∧
      (heap.get current).children[index']? = some element := by
  have herror : ∀ {type msg i}, (errAt heap type key msg).map (fun r => (r.1, r.2, i)) =
      some (heap', element, index') → False := by
    intro type msg i he
    obtain ⟨heap₁, e, i', hmap, -, htype⟩ := map_errAt heap type key msg i
    rw [show (errAt heap type key msg).map (fun r => (r.1, r.2, i)) = _ from hmap] at he
    cases he
    exact hno htype
  unfold arrayLookup at h
  dsimp only at h
  split at h
  · exact absurd h herror
  next hminus =>
  split at h
  · cases h
  next front rest htext =>
  split at h
  · exact absurd h herror
  next hfront =>
  split at h
  · exact absurd h herror
  next hzero =>
  split at h
  · exact absurd h herror
  next i hloop =>
  split at h
  · exact absurd h herror
  next hchild =>
    cases h
    refine ⟨rfl, ?_, hchild⟩
    unfold elementIndex
    rw [if_neg hminus, htext]
    dsimp only
    rw [← htext, if_neg (not_or.2 (And.intro hfront hzero)), hloop, if_pos rfl]

theorem arrayLookup_of_index {heap : Heap} (hindex : elementIndex key.view.toList = some i)
    (hchild : (heap.get current).children[i]? = some element) (index : Nat) :
    arrayLookup heap current key index = some (heap, element, i) := by
  unfold elementIndex at hindex
  split at hindex
  · cases hindex
  next hminus =>
  split at hindex
  · cases hindex
  next front rest htext =>
  split at hindex
  · cases hindex
  next hfront =>
  split at hindex
  · next hdigits =>
    rw [not_or] at hfront
    have hloop : indexLoop key.view.toList 0 = (i, true) :=
      Prod.ext (Option.some.inj hindex) hdigits
    rw [arrayLookup]
    dsimp only
    rw [if_neg hminus, htext]
    dsimp only
    rw [← htext, if_neg hfront.1, if_neg hfront.2, hloop]
    dsimp only
    rw [hchild]
  · cases hindex

/-- How a key leads from one node to the next. -/
inductive Leads (s : Store) (current : Node) (key : Location) (next : Node) : Prop
  | member (m : Node) (rest : List Node) (type : (s.heap.get current).type = .jsonObject)
      (found : s.lookdown current key = m :: rest) (value : Store.memberValue s.heap m = some next)
  | element (i : Nat) (type : (s.heap.get current).type = .jsonArray)
      (index : elementIndex key.view.toList = some i)
      (child : (s.heap.get current).children[i]? = some next)
      (noError : (s.heap.get next).type ≠ .error)

/-- A key that leads on leaves the nodes and tables alone. -/
theorem follow_ok_iff :
    Operation.follow s current key = some (s', .ok next) ↔ s' = s ∧ Leads s current key next := by
  constructor
  · intro h
    unfold Operation.follow at h
    split at h
    · next htype =>
      cases hfound : s.lookdown current key with
      | nil =>
        rw [hfound] at h
        obtain ⟨⟨s₁, e⟩, -, h⟩ := Option.bind_eq_some_iff.1 h
        cases h
      | cons m rest =>
        rw [hfound] at h
        obtain ⟨value, hvalue, h⟩ := Option.bind_eq_some_iff.1 h
        cases h
        exact ⟨rfl, .member m rest htype hfound hvalue⟩
    · split at h
      · next htype =>
        obtain ⟨⟨heap, element, index⟩, hlookup, h⟩ := Option.bind_eq_some_iff.1 h
        dsimp only at h
        split at h
        · cases h
        · next herror =>
          cases h
          have hno : (heap.get next).type ≠ .error := fun he => herror (decide_eq_true he)
          obtain ⟨rfl, hindex, hchild⟩ := arrayLookup_element hlookup hno
          exact ⟨rfl, .element index htype hindex hchild hno⟩
      · obtain ⟨⟨s₁, e⟩, -, h⟩ := Option.bind_eq_some_iff.1 h
        cases h
  · intro h
    obtain ⟨rfl, h⟩ := h
    cases h with
    | member m rest htype hfound hvalue =>
      rw [Operation.follow, if_pos htype, hfound]
      exact Option.bind_eq_some_iff.2 ⟨next, hvalue, rfl⟩
    | element i htype hindex hchild hno =>
      have hobject : (s'.heap.get current).type ≠ .jsonObject := by
        rw [htype]
        decide
      rw [Operation.follow, if_neg hobject, if_pos htype, arrayLookup_of_index hindex hchild]
      have herror : s'.isError next = false := decide_eq_false hno
      simp only [Option.bind_eq_bind, Option.bind_some, herror]
      rfl

theorem Leads.unique (h : Leads s current key n) (h' : Leads s current key n') : n = n' := by
  have hn : Operation.follow s current key = some (s, .ok n) := follow_ok_iff.2 ⟨rfl, h⟩
  have hn' : Operation.follow s current key = some (s, .ok n') := follow_ok_iff.2 ⟨rfl, h'⟩
  rw [hn] at hn'
  cases hn'
  rfl

/-- Keys of one text lead to one node. -/
theorem Leads.view (h : Leads s current key next) (hview : key'.view = key.view) :
    Leads s current key' next := by
  have hlookdown : s.lookdown current key' = s.lookdown current key := by
    rw [Store.lookdown, hview]
    rfl
  cases h with
  | member m rest htype hfound hvalue => exact .member m rest htype (hlookdown ▸ hfound) hvalue
  | element i htype hindex hchild hno => exact .element i htype (hview ▸ hindex) hchild hno

theorem trail_leads (h : Leads s current key next) (keys : List Location) :
    trail s current (key :: keys) = next :: trail s next keys := by
  rw [trail, follow_ok_iff.2 ⟨rfl, h⟩]

theorem target_cons (h : target s current (key :: keys) = some n) :
    ∃ next, Leads s current key next ∧ target s next keys = some n := by
  rw [target] at h
  split at h
  · next s' next hfollow =>
    obtain ⟨-, hleads⟩ := follow_ok_iff.1 hfollow
    exact ⟨next, hleads, h⟩
  · cases h

theorem target_leads (h : Leads s current key next) (keys : List Location) :
    target s current (key :: keys) = target s next keys := by
  rw [target, follow_ok_iff.2 ⟨rfl, h⟩]

theorem target_append (h : target s current keys = some n) (rest : List Location) :
    target s current (keys ++ rest) = target s n rest := by
  induction keys generalizing current with
  | nil =>
    cases h
    rfl
  | cons key keys ih =>
    obtain ⟨next, hleads, h⟩ := target_cons h
    rw [List.cons_append, target_leads hleads, ih h]

theorem target_split (h : target s current (keys ++ rest) = some n) :
    ∃ m, target s current keys = some m ∧ target s m rest = some n := by
  induction keys generalizing current with
  | nil => exact ⟨current, rfl, h⟩
  | cons key keys ih =>
    obtain ⟨next, hleads, h⟩ := target_cons h
    rw [target_leads hleads]
    exact ih h

theorem target_mem_trail (h : target s current keys = some n) (hne : keys ≠ [])
    (hview : keys'.map Location.view = keys.map Location.view) (rest : List Location) :
    n ∈ trail s current (keys' ++ rest) := by
  induction keys generalizing current keys' with
  | nil => exact absurd rfl hne
  | cons key keys ih =>
    obtain ⟨key', keys', rfl, hkey, hkeys⟩ := List.map_eq_cons_iff.1 hview
    obtain ⟨next, hleads, htarget⟩ := target_cons h
    rw [List.cons_append, trail_leads (hleads.view hkey)]
    cases keys with
    | nil =>
      cases htarget
      exact .head _
    | cons key₂ keys => exact .tail _ (ih htarget (List.cons_ne_nil _ _) hkeys)

/-- A child has been taken out of a node, and keeps its parent. -/
structure Removed (h h' : Heap) (p m : Node) : Prop where
  child : h.HasChild p m
  length : h'.nodes.length = h.nodes.length
  type : ∀ n, (h'.get n).type = (h.get n).type
  location : ∀ n, (h'.get n).location = (h.get n).location
  parent : ∀ n, (h'.get n).parent = (h.get n).parent
  children : ∀ n, (h'.get n).children =
    if n = p then (h.get p).children.erase m else (h.get n).children

theorem removed_of_replace {heap : Heap} (h : heap.replace p m none = some heap') :
    Removed heap heap' p m := by
  unfold Heap.replace at h
  dsimp only at h
  split at h
  · cases h
  · next hidx =>
    cases h
    have hm : m ∈ (heap.get p).children := by
      apply List.idxOf_lt_length_iff.1
      exact Nat.lt_of_le_of_ne List.idxOf_le_length hidx
    refine ⟨hm, by simp, by simp, fun n => ?_, by simp, fun n => ?_⟩
    · exact Heap.proj_modify (π := NodeDef.location) heap p n _ fun _ => rfl
    · rw [Heap.children_setChildren, List.eraseIdx_idxOf_eq_erase]
      by_cases hn : n = p
      · rw [if_pos hn, if_pos ⟨hn.symm, Heap.lt_of_mem_children hm⟩]
      · rw [if_neg hn, if_neg fun hc => hn hc.1.symm]

theorem Removed.sublist (h : Removed heap heap' p m) (n : Node) :
    (heap'.get n).children.Sublist (heap.get n).children := by
  rw [h.children]
  split
  · next hn =>
    rw [hn]
    exact List.erase_sublist
  · exact .refl _

theorem Removed.inTree (h : Removed heap heap' p m) (hn : heap'.InTree document n) :
    heap.InTree document n :=
  ReflTransGen.mono (fun q _ hc => (h.sublist q).subset hc) _ _ hn

theorem IsDocument.removed (hdoc : IsDocument heap document) (h : Removed heap heap' p m)
    (hp : (heap.get p).type ≠ .jsonMember) : IsDocument heap' document := by
  have hchild : ∀ n c, heap'.HasChild n c → heap.HasChild n c := by
    intro n c hc
    exact (h.sublist n).subset hc
  constructor
  · obtain ⟨t, ht⟩ := hdoc.tree
    exact ht.sublist h.length h.sublist
  · intro n c hn hc
    rw [h.parent]
    exact hdoc.parent n c (h.inTree hn) (hchild n c hc)
  · intro n hn
    exact (h.sublist n).nodup (hdoc.nodup n (h.inTree hn))
  · intro n c hn hc
    rw [h.type, h.type]
    exact hdoc.member n c (h.inTree hn) (hchild n c hc)
  · intro n hn hmember
    rw [h.type] at hmember
    have hne : n ≠ p := by
      rintro rfl
      exact hp hmember
    rw [h.children, if_neg hne]
    exact hdoc.fields n (h.inTree hn) hmember
  · intro n hn
    rw [h.type]
    exact hdoc.noError n (h.inTree hn)
  · rw [h.type]
    exact hdoc.root

/-- The symbol tables of the objects of a document find the members with a key. -/
def Tabled (s : Store) (document : Node) : Prop :=
  ∀ n key, s.heap.InTree document n → (s.heap.get n).type = .jsonObject →
    s.lookdown n key =
      (s.heap.get n).children.filter fun m => Store.keyText s.heap m = key.view

theorem IsDocument.tabled {s₀ s : Store} (hdoc : IsDocument s.heap document)
    (hbuilt : s₀.buildSt document = some s) : Tabled s document :=
  fun _ key hn hobject => hdoc.lookdown hbuilt hn hobject key

theorem Tabled.found {s : Store} (h : Tabled s document) (hn : s.heap.InTree document n)
    (hobject : (s.heap.get n).type = .jsonObject) (hfound : s.lookdown n key = m :: rest) :
    s.heap.HasChild n m ∧ Store.keyText s.heap m = key.view := by
  have hm : m ∈ s.lookdown n key := hfound ▸ .head _
  rw [h n key hn hobject, List.mem_filter] at hm
  exact ⟨hm.1, of_decide_eq_true hm.2⟩

theorem mem_of_memberValue {h : Heap} (hv : Store.memberValue h m = some v) : h.HasChild m v := by
  unfold Store.memberValue Store.memberField at hv
  split at hv
  · exact List.mem_of_getElem? hv
  · cases hv

/-- A key leads to a child or below one. -/
theorem Tabled.leads_below {s : Store} (h : Tabled s document) (hn : s.heap.InTree document n)
    (hleads : Leads s n key next) : ∃ c, s.heap.HasChild n c ∧ s.heap.InTree c next := by
  cases hleads with
  | member m rest htype hfound hvalue =>
    exact ⟨m, (h.found hn htype hfound).1, .single (mem_of_memberValue hvalue)⟩
  | element i htype hindex hchild hno => exact ⟨next, List.mem_of_getElem? hchild, .refl⟩

theorem Tabled.leads {s : Store} (h : Tabled s document) (hn : s.heap.InTree document n)
    (hleads : Leads s n key next) : s.heap.InTree document next := by
  obtain ⟨c, hc, hnext⟩ := h.leads_below hn hleads
  exact (hn.tail hc).trans hnext

theorem Tabled.target_inTree {s : Store} (h : Tabled s document) (hn : s.heap.InTree document n)
    (htarget : target s n keys = some m) : s.heap.InTree n m := by
  induction keys generalizing n with
  | nil =>
    cases htarget
    exact .refl
  | cons key keys ih =>
    obtain ⟨next, hleads, htarget⟩ := target_cons htarget
    obtain ⟨c, hc, hnext⟩ := h.leads_below hn hleads
    exact (hnext.head hc).trans (ih (h.leads hn hleads) htarget)

/-- A value has been taken out of a document, with its member or as an element. -/
inductive Taken (s s' : Store) (document v : Node) : Prop
  | member (p m : Node) (key : Location) (rest : List Node) (inTree : s.heap.InTree document p)
      (type : (s.heap.get p).type = .jsonObject) (found : s.lookdown p key = m :: rest)
      (value : Store.memberValue s.heap m = some v) (replaced : s.replace p m none = some s')
  | element (p : Node) (inTree : s.heap.InTree document p)
      (type : (s.heap.get p).type = .jsonArray) (replaced : s.replace p v none = some s')

theorem err_isError {s s' : Store} (he : s.err node msg = some (s', e)) : s'.isError e = true := by
  have habove : s.Above 0 := ⟨.zero _, fun _ _ _ => Nat.zero_le _⟩
  exact (habove.err (Nat.zero_le _) he).2

theorem errAt_isError {s s' : Store} (he : s.errAt type location msg = some (s', e)) :
    s'.isError e = true := by
  obtain ⟨⟨heap, e'⟩, herr, he⟩ := Option.map_eq_some_iff.1 he
  cases he
  obtain ⟨heap₁, e₁, he₁, -, htype⟩ := errAt_fresh s.heap type location msg
  rw [herr] at he₁
  cases he₁
  exact decide_eq_true htype

section Operation
variable [BEq α] {std : StdLib α} {op : Operation} {s s' : Store}

theorem act_remove (haction : op.action = .remove) (hin : s.heap.InTree document current)
    (ha : op.act std s current key = some (s', result)) :
    s'.isError result = true ∨
      Taken s s' document result ∧ target s current [key] = some result := by
  unfold Operation.act at ha
  split at ha
  · next htype =>
    unfold Operation.objectAction at ha
    rw [haction] at ha
    cases hfound : s.lookdown current key with
    | nil =>
      rw [hfound] at ha
      exact .inl (err_isError ha)
    | cons m rest =>
      rw [hfound] at ha
      obtain ⟨existing, hvalue, ha⟩ := Option.bind_eq_some_iff.1 ha
      obtain ⟨s₁, hreplace, ha⟩ := Option.bind_eq_some_iff.1 ha
      cases ha
      exact .inr ⟨.member current m key rest hin htype hfound hvalue hreplace,
        target_leads (.member m rest htype hfound hvalue) []⟩
  · split at ha
    · next htype =>
      obtain ⟨⟨heap, element, index⟩, hlookup, ha⟩ := Option.bind_eq_some_iff.1 ha
      dsimp only at ha
      rw [haction, if_neg fun hc => absurd hc.1 (by decide)] at ha
      split at ha
      · next herror =>
        cases ha
        exact .inl herror
      · next herror =>
        unfold Operation.elementAction at ha
        rw [haction] at ha
        obtain ⟨s₁, hreplace, ha⟩ := Option.bind_eq_some_iff.1 ha
        cases ha
        have hno : (heap.get result).type ≠ .error := fun he => herror (decide_eq_true he)
        obtain ⟨rfl, hindex, hchild⟩ := arrayLookup_element hlookup hno
        exact .inr ⟨.element current hin htype hreplace,
          target_leads (.element index htype hindex hchild hno) []⟩
    · exact .inl (err_isError ha)

theorem follow_error (hf : Operation.follow s current key = some (s', .error e)) :
    s'.isError e = true := by
  unfold Operation.follow at hf
  split at hf
  · cases hfound : s.lookdown current key with
    | nil =>
      rw [hfound] at hf
      obtain ⟨⟨s₁, e₁⟩, herr, hf⟩ := Option.bind_eq_some_iff.1 hf
      cases hf
      exact err_isError herr
    | cons m rest =>
      rw [hfound] at hf
      obtain ⟨value, -, hf⟩ := Option.bind_eq_some_iff.1 hf
      cases hf
  · split at hf
    · obtain ⟨⟨heap, element, index⟩, -, hf⟩ := Option.bind_eq_some_iff.1 hf
      dsimp only at hf
      split at hf
      · next herror =>
        cases hf
        exact herror
      · cases hf
    · obtain ⟨⟨s₁, e₁⟩, herr, hf⟩ := Option.bind_eq_some_iff.1 hf
      cases hf
      exact err_isError herr

theorem walk_remove (haction : op.action = .remove) (htabled : Tabled s document)
    (hin : s.heap.InTree document current)
    (hw : op.walk std s current keys = some (s', result)) :
    s'.isError result = true ∨
      Taken s s' document result ∧ target s current keys = some result := by
  induction keys generalizing current with
  | nil => cases hw
  | cons key keys ih =>
    cases keys with
    | nil => exact act_remove haction hin hw
    | cons key' keys =>
      obtain ⟨⟨s₁, followed⟩, hfollow, hrest⟩ := Option.bind_eq_some_iff.1 hw
      cases followed with
      | error e =>
        cases hrest
        exact .inl (follow_error hfollow)
      | ok next =>
        obtain ⟨rfl, hleads⟩ := follow_ok_iff.1 hfollow
        rw [target_leads hleads]
        exact ih (htabled.leads hin hleads) hrest

/-- A removal is an error, or takes out what the keys lead to. -/
theorem run_remove (haction : op.action = .remove) (htabled : Tabled s document)
    (hr : op.run std s document = some (s', result)) :
    s'.isError result = true ∨ Taken s s' document result ∧
      ∃ keys, pointer op.path = some keys ∧ keys ≠ [] ∧ target s document keys = some result := by
  unfold Operation.run at hr
  split at hr
  · exact .inl (errAt_isError hr)
  · unfold Operation.rootAction at hr
    rw [haction] at hr
    exact .inl (errAt_isError hr)
  · next keys hne hkeys =>
    obtain herror | htaken := walk_remove haction htabled .refl hr
    · exact .inl herror
    · exact .inr ⟨htaken.1, keys, hkeys, hne, htaken.2⟩

end Operation

end Trieste.Json
