import Trieste.Json.Insertion
import Trieste.Json.Trails

namespace Trieste.Json
set_option autoImplicit true
open Library Relation

/-- The nodes and the result, without the symbol tables. -/
def edited (r : Option (Store × β)) : Option (Heap × β) := r.map fun r => (r.1.heap, r.2)

theorem edited_bind {r r' : Option (Store × β)} {f g : Store × β → Option (Store × γ)}
    (hr : edited r = edited r')
    (h : ∀ s s' b, r = some (s, b) → r' = some (s', b) → s.heap = s'.heap →
      edited (f (s, b)) = edited (g (s', b))) :
    edited (r.bind f) = edited (r'.bind g) := by
  cases r with
  | none =>
    cases r' with
    | none => rfl
    | some x => cases hr
  | some x =>
    cases r' with
    | none => cases hr
    | some x' =>
      obtain ⟨hheap, hb⟩ := Prod.mk.inj (Option.some.inj hr)
      have hx' : x' = (x'.1, x.2) := Prod.ext rfl hb.symm
      rw [hx']
      exact h x.1 x'.1 x.2 rfl (congrArg some hx') hheap

theorem edited_some (hheap : s.heap = s'.heap) (b : β) :
    edited (some (s, b)) = edited (some (s', b)) := by
  rw [edited, edited, Option.map_some, Option.map_some, hheap]

section Operation
variable [BEq α] {std : StdLib α} {op : Operation} {s s' : Store}

theorem err_edited (hheap : s.heap = s'.heap) (node : Node) (msg : String) :
    edited (s.err node msg) = edited (s'.err node msg) := by
  rw [Store.err, Store.err, hheap, edited, edited, Option.map_map, Option.map_map]
  rfl

theorem errAt_edited (hheap : s.heap = s'.heap) (type : Token) (location : Location)
    (msg : String) : edited (s.errAt type location msg) = edited (s'.errAt type location msg) := by
  rw [Store.errAt, Store.errAt, hheap, edited, edited, Option.map_map, Option.map_map]
  rfl

theorem clone_edited (hheap : s.heap = s'.heap) (n : Node) :
    edited (s.clone n) = edited (s'.clone n) := by
  rw [Store.clone, Store.clone, hheap, edited, edited, Option.map_map, Option.map_map]
  rfl

theorem returned_edited {r r' : Option Store} (h : r.map Store.heap = r'.map Store.heap) (n : β) :
    edited (r.bind fun s => some (s, n)) = edited (r'.bind fun s => some (s, n)) := by
  cases r with
  | none =>
    cases r' with
    | none => rfl
    | some s => cases h
  | some s =>
    cases r' with
    | none => cases h
    | some s' => exact edited_some (Option.some.inj h) n

theorem addMember_heap (hheap : s.heap = s'.heap) (object : Node) (key : Location) (value : Node) :
    (Operation.addMember s object key value).map Store.heap =
      (Operation.addMember s' object key value).map Store.heap := by
  unfold Operation.addMember
  simp only [Store.create, Store.pushBack, Store.clone, hheap]
  generalize Heap.clone _ _ _ = r
  cases r with
  | none => rfl
  | some x => rfl

theorem assignCopy_heap (hheap : s.heap = s'.heap) (member value : Node) :
    (Operation.assignCopy s member value).map Store.heap =
      (Operation.assignCopy s' member value).map Store.heap := by
  unfold Operation.assignCopy Store.assignValue Store.replaceAt Store.replace Store.clone
  rw [hheap]
  cases hclone : s'.heap.clone (s'.heap.nodes.length + 1) value with
  | none => rfl
  | some x =>
    dsimp only [Option.map_some, Option.bind_eq_bind, Option.bind_some]
    cases hvalue : Store.memberValue x.1 member with
    | none => rfl
    | some v =>
      dsimp only [Option.bind_some]
      cases hparent : (x.1.get v).parent with
      | none => rfl
      | some p =>
        dsimp only [Option.bind_some]
        cases hchild : (x.1.get p).children[1]? with
        | none => rfl
        | some c =>
          simp only [Option.bind_some, Option.map_map]
          rfl

theorem act_edited (haction : op.action = .insert) (hheap : s.heap = s'.heap)
    (hlookdown : (s.heap.get current).type = .jsonObject →
      s.lookdown current key = s'.lookdown current key) :
    edited (op.act std s current key) = edited (op.act std s' current key) := by
  unfold Operation.act
  rw [hheap] at hlookdown ⊢
  split
  · next htype =>
    unfold Operation.objectAction
    rw [← hlookdown htype, haction]
    cases s.lookdown current key with
    | nil =>
      cases hvalue : op.value with
      | none => rfl
      | some value => exact returned_edited (addMember_heap hheap current key value) value
    | cons m rest =>
      dsimp only
      rw [hheap]
      cases hexisting : Store.memberValue s'.heap m with
      | none => rfl
      | some existing =>
        cases hvalue : op.value with
        | none => rfl
        | some value => exact returned_edited (assignCopy_heap hheap m value) existing
  · split
    · unfold Operation.arrayAction
      rw [hheap]
      cases arrayLookup s'.heap current key 0 with
      | none => rfl
      | some found =>
        obtain ⟨heap, element, index⟩ := found
        have hsame : (Store.mk heap s.symbols).heap = (Store.mk heap s'.symbols).heap := rfl
        dsimp only [Option.bind_eq_bind, Option.bind_some]
        split
        · cases hvalue : op.value with
          | none => rfl
          | some value =>
            apply edited_bind (clone_edited hsame value)
            intro s₁ s₁' copy _ _ hheap₁
            exact edited_some (congrArg (·.pushBack current (some copy)) hheap₁) value
        · unfold Store.isError
          dsimp only
          split
          · rfl
          · unfold Operation.elementAction
            rw [haction]
            cases hvalue : op.value with
            | none => rfl
            | some value =>
              apply edited_bind (clone_edited hsame value)
              intro s₁ s₁' copy _ _ hheap₁
              exact edited_some (congrArg (·.insert current index (some copy)) hheap₁) value
    · exact err_edited hheap current _

theorem follow_edited (hheap : s.heap = s'.heap)
    (hlookdown : (s.heap.get current).type = .jsonObject →
      s.lookdown current key = s'.lookdown current key) :
    edited (Operation.follow s current key) = edited (Operation.follow s' current key) := by
  unfold Operation.follow
  rw [hheap] at hlookdown ⊢
  split
  · next htype =>
    rw [← hlookdown htype]
    cases s.lookdown current key with
    | nil =>
      apply edited_bind (err_edited hheap current _)
      intro s₁ s₁' e _ _ hheap₁
      exact edited_some hheap₁ _
    | cons m rest =>
      dsimp only
      cases hvalue : Store.memberValue s'.heap m with
      | none => rfl
      | some value => exact edited_some hheap _
  · split
    · cases arrayLookup s'.heap current key 0 with
      | none => rfl
      | some found => rfl
    · apply edited_bind (err_edited hheap current _)
      intro s₁ s₁' e _ _ hheap₁
      exact edited_some hheap₁ _

/-- Two stores with the same nodes agree in the tables of the document, except where a key leads to a
node that is to be avoided. -/
structure AgreesApart (s s' : Store) (document : Node) (avoid : Node → Prop) : Prop where
  heap : s.heap = s'.heap
  tabled : Tabled s' document
  lookdown : ∀ n key, s.heap.InTree document n → (s.heap.get n).type = .jsonObject →
    (∀ next, Leads s n key next → ¬ avoid next) → s.lookdown n key = s'.lookdown n key

theorem walk_edited {avoid : Node → Prop} (haction : op.action = .insert)
    (h : AgreesApart s s' document avoid)
    (hin : s.heap.InTree document current) (havoid : ∀ n ∈ trail s current keys, ¬ avoid n) :
    edited (op.walk std s current keys) = edited (op.walk std s' current keys) := by
  induction keys generalizing current with
  | nil => rfl
  | cons key keys ih =>
    have hlookdown : (s.heap.get current).type = .jsonObject →
        s.lookdown current key = s'.lookdown current key := by
      intro htype
      apply h.lookdown current key hin htype
      intro next hleads
      apply havoid
      rw [trail_leads hleads]
      exact .head _
    cases keys with
    | nil => exact act_edited haction h.heap hlookdown
    | cons key' keys =>
      apply edited_bind (follow_edited h.heap hlookdown)
      intro s₁ s₁' followed hfollow hfollow' hheap
      cases followed with
      | error e =>
        exact edited_some hheap e
      | ok next =>
        obtain ⟨rfl, hleads⟩ := follow_ok_iff.1 hfollow
        obtain ⟨rfl, hleads'⟩ := follow_ok_iff.1 hfollow'
        rw [trail_leads hleads] at havoid
        have hnext : s₁.heap.InTree document next := by
          rw [h.heap] at hin ⊢
          exact h.tabled.leads hin hleads'
        exact ih hnext fun n hn => havoid n (.tail _ hn)

theorem run_edited {avoid : Node → Prop} (haction : op.action = .insert)
    (h : AgreesApart s s' document avoid)
    (havoid : ∀ keys, pointer op.path = some keys → ∀ n ∈ trail s document keys, ¬ avoid n) :
    edited (op.run std s document) = edited (op.run std s' document) := by
  unfold Operation.run
  split
  · exact errAt_edited h.heap ..
  · unfold Operation.rootAction
    rw [haction]
    cases op.value with
    | none => rfl
    | some value => exact edited_some h.heap value
  · next keys _ hkeys => exact walk_edited haction h .refl (havoid keys hkeys)

theorem runOn_edited {avoid : Node → Prop} (haction : op.action = .insert)
    (h : AgreesApart s s' document avoid)
    (havoid : ∀ keys, pointer op.path = some keys → ∀ n ∈ trail s document keys, ¬ avoid n) :
    edited (Patch.Op.runOn std s document op) = edited (Patch.Op.runOn std s' document op) := by
  apply edited_bind (run_edited haction h havoid)
  intro s₁ s₁' result _ _ hheap
  have herror : s₁.isError result = s₁'.isError result := by
    rw [Store.isError, Store.isError, hheap]
  simp only [herror]
  exact edited_some hheap _

end Operation

theorem trail_stuck (h : ∀ next, ¬ Leads s current key next) (keys : List Location) :
    trail s current (key :: keys) = [] := by
  rw [trail]
  split
  · next s' next hfollow => exact absurd (follow_ok_iff.1 hfollow).2 (h next)
  · rfl

namespace Removed
variable {s : Store} {heap : Heap}

theorem keyText (h : Removed s.heap heap p m) (hne : n ≠ p) :
    Store.keyText heap n = Store.keyText s.heap n := by
  have hview : viewOf heap = viewOf s.heap := by
    funext key
    rw [viewOf, viewOf, h.location]
  rw [Store.keyText, Store.keyText, h.children, if_neg hne, hview]

theorem memberValue (h : Removed s.heap heap p m) (hne : n ≠ p) :
    Store.memberValue heap n = Store.memberValue s.heap n := by
  rw [Store.memberValue, Store.memberValue, Store.memberField, Store.memberField, h.type,
    h.children, if_neg hne]

theorem lookdown (h : Removed s.heap heap p m) (n : Node) (key : Location) :
    Store.lookdown { s with heap } n key = s.lookdown n key := by
  unfold Store.lookdown
  simp only [h.type]

theorem leads_iff (h : Removed s.heap heap p m) (hdoc : IsDocument s.heap document)
    (htabled : Tabled s document) (hp : (s.heap.get p).type ≠ .jsonMember)
    (hin : s.heap.InTree document n) (hoff : n = p → (s.heap.get p).type ≠ .jsonArray) :
    Leads { s with heap } n key next ↔ Leads s n key next := by
  have hvalue : ∀ m' rest, (s.heap.get n).type = .jsonObject → s.lookdown n key = m' :: rest →
      Store.memberValue heap m' = Store.memberValue s.heap m' := by
    intro m' rest htype hfound
    have hm' := (hdoc.member n m' hin (htabled.found hin htype hfound).1).2 htype
    exact h.memberValue fun heq => hp (heq ▸ hm')
  have hchildren : (s.heap.get n).type = .jsonArray →
      (heap.get n).children = (s.heap.get n).children := by
    intro htype
    rw [h.children, if_neg fun heq => hoff heq (heq ▸ htype)]
  constructor
  · intro hleads
    cases hleads with
    | member m' rest htype hfound hv =>
      rw [h.type] at htype
      rw [h.lookdown] at hfound
      exact .member m' rest htype hfound ((hvalue m' rest htype hfound).symm.trans hv)
    | element i htype hindex hchild hno =>
      rw [h.type] at htype hno
      rw [hchildren htype] at hchild
      exact .element i htype hindex hchild hno
  · intro hleads
    cases hleads with
    | member m' rest htype hfound hv =>
      refine .member m' rest ((h.type n).trans htype) ((h.lookdown n key).trans hfound) ?_
      exact (hvalue m' rest htype hfound).trans hv
    | element i htype hindex hchild hno =>
      refine .element i ((h.type n).trans htype) hindex ?_ ?_
      · rw [hchildren htype]
        exact hchild
      · rw [h.type]
        exact hno

theorem trail (h : Removed s.heap heap p m) (hdoc : IsDocument s.heap document)
    (htabled : Tabled s document) (hp : (s.heap.get p).type = .jsonObject)
    (hin : s.heap.InTree document n) (keys : List Location) :
    Json.trail { s with heap } n keys = Json.trail s n keys := by
  have hleads_iff {n key next} (hin : s.heap.InTree document n) :
      Leads { s with heap } n key next ↔ Leads s n key next :=
    h.leads_iff hdoc htabled (by rw [hp]; decide) hin fun _ => by rw [hp]; decide
  induction keys generalizing n with
  | nil => rfl
  | cons key keys ih =>
    by_cases hleads : ∃ next, Leads s n key next
    · obtain ⟨next, hnext⟩ := hleads
      rw [trail_leads hnext, trail_leads ((hleads_iff hin).2 hnext), ih (htabled.leads hin hnext)]
    · rw [not_exists] at hleads
      rw [trail_stuck hleads, trail_stuck]
      intro next hnext
      exact hleads next ((hleads_iff hin).1 hnext)

theorem target_apart (h : Removed s.heap heap p m) (hdoc : IsDocument s.heap document)
    (htabled : Tabled s document) (hp : (s.heap.get p).type ≠ .jsonMember)
    (hin : s.heap.InTree document n) (hoff : ¬ s.heap.InTree n p)
    (htarget : target { s with heap } n keys = some c) :
    target s n keys = some c ∧ s.heap.InTree n c := by
  induction keys generalizing n with
  | nil =>
    cases htarget
    exact ⟨rfl, .refl⟩
  | cons key keys ih =>
    obtain ⟨next, hleads, hrest⟩ := target_cons htarget
    have hleads' := (h.leads_iff hdoc htabled hp hin fun heq => absurd (heq ▸ .refl) hoff).1 hleads
    obtain ⟨child, hchild, hnext⟩ := htabled.leads_below hin hleads'
    have hbelow : s.heap.InTree n next := .head hchild hnext
    obtain ⟨htarget', hc⟩ := ih (hin.trans hbelow) (fun hin' => hoff (hbelow.trans hin')) hrest
    exact ⟨(target_leads hleads' keys).trans htarget', hbelow.trans hc⟩

theorem target_parent (h : Removed s.heap heap p m) (hdoc : IsDocument s.heap document)
    (htabled : Tabled s document) (hp : (s.heap.get p).type ≠ .jsonMember)
    (hin : s.heap.InTree document n) (htarget : target s n keys = some p)
    (hview : keys'.map Location.view = keys.map Location.view) :
    target { s with heap } n keys' = some p := by
  induction keys generalizing n keys' with
  | nil =>
    rw [List.map_eq_nil_iff.1 hview]
    exact htarget
  | cons key keys ih =>
    obtain ⟨key', keys', rfl, hkey, hkeys⟩ := List.map_eq_cons_iff.1 hview
    obtain ⟨next, hleads, hrest⟩ := target_cons htarget
    have hleads := hleads.view hkey
    obtain ⟨child, hchild, hnext⟩ := htabled.leads_below hin hleads
    have hnext' := htabled.leads hin hleads
    have hoff : n ≠ p := by
      rintro rfl
      exact hdoc.not_self hin hchild (hnext.trans (htabled.target_inTree hnext' hrest))
    rw [target_leads ((h.leads_iff hdoc htabled hp hin fun heq => absurd heq hoff).2 hleads)]
    exact ih hnext' hrest hkeys

theorem leads_behind (h : Removed s.heap heap p m) (hnodup : (s.heap.get p).children.Nodup)
    (hp : (s.heap.get p).type = .jsonArray) (hleads : Leads s p key m)
    (hleads' : Leads { s with heap } p key next) :
    ∃ i, (s.heap.get p).children[i]? = some m ∧ (s.heap.get p).children[i + 1]? = some next := by
  cases hleads with
  | member _ _ htype => exact absurd (hp.symm.trans htype) (by decide)
  | element i _ hindex hchild _ =>
    cases hleads' with
    | member _ _ htype =>
      rw [h.type] at htype
      exact absurd (hp.symm.trans htype) (by decide)
    | element j _ hindex' hchild' _ =>
      obtain rfl : i = j := Option.some.inj (hindex.symm.trans hindex')
      refine ⟨i, hchild, ?_⟩
      obtain ⟨hlt, rfl⟩ := List.getElem?_eq_some_iff.1 hchild
      rwa [h.children, if_pos rfl, ← List.eraseIdx_idxOf_eq_erase, hnodup.idxOf_getElem,
        List.getElem?_eraseIdx_of_ge (Nat.le_refl _)] at hchild'

theorem lookdown_apart (h : Removed s.heap heap p m) (hdoc : IsDocument s.heap document)
    (htabled : Tabled s document) (hp : (s.heap.get p).type ≠ .jsonMember)
    (hin : s.heap.InTree document n) (hobject : (s.heap.get n).type = .jsonObject)
    (hkey : n = p → Store.keyText s.heap m ≠ key.view) :
    s.lookdown n key =
      (heap.get n).children.filter fun c => Store.keyText heap c = key.view := by
  have hkeys : ((heap.get n).children.filter fun c => Store.keyText heap c = key.view) =
      (heap.get n).children.filter fun c => Store.keyText s.heap c = key.view := by
    apply List.filter_congr
    intro c hc
    have hmember := (hdoc.member n c hin ((h.sublist n).subset hc)).2 hobject
    have hne : c ≠ p := by
      rintro rfl
      exact hp hmember
    rw [h.keyText hne]
  rw [htabled n key hin hobject, hkeys, h.children]
  split
  · next hn =>
    rw [(hdoc.nodup p (hn ▸ hin)).erase_eq_filter, List.filter_filter, hn]
    apply List.filter_congr
    intro c _
    by_cases hc : c = m
    · simp [hc, hkey hn]
    · simp [hc]
  · rfl

end Removed

def InArray (h : Heap) (v : Node) : Prop :=
  ∃ p, (h.get v).parent = some p ∧ (h.get p).type = .jsonArray

theorem not_inArray (hdoc : IsDocument heap document) (hin : heap.InTree document m)
    (hm : (heap.get m).type = .jsonMember) (hc : heap.HasChild m v) : ¬ InArray heap v := by
  rintro ⟨p, hp, harray⟩
  rw [Option.some.inj (hp.symm.trans (hdoc.parent m v hin hc)), hm] at harray
  exact absurd harray (by decide)

/-- After a value has been taken out, the tables are as if they had been built anew, but for keys that
lead to the value of a member. -/
theorem Taken.agrees {s s' : Store} (h : Taken s s' document v)
    (hdoc : IsDocument s.heap document) (htabled : Tabled s document) :
    ∃ s'' avoid, s'.buildSt document = some s'' ∧ AgreesApart s' s'' document avoid ∧
      ∀ keys, (¬ InArray s.heap v → v ∉ trail s document keys) →
        ∀ n ∈ trail s' document keys, ¬ avoid n := by
  have hbuild : ∀ p m heap, Removed s.heap heap p m → (s.heap.get p).type ≠ .jsonMember →
      ∃ s'', Store.buildSt { s with heap } document = some s'' ∧ heap = s''.heap ∧
        Tabled s'' document ∧ ∀ n key, heap.InTree document n →
          (heap.get n).type = .jsonObject → (n = p → Store.keyText s.heap m ≠ key.view) →
            s.lookdown n key = s''.lookdown n key := by
    intro p m heap hr hp
    have hdoc' := hdoc.removed hr hp
    have hstore : IsDocument (Store.mk heap s.symbols).heap document := hdoc'
    obtain ⟨s'', hs'', htables⟩ := hstore.buildSt
    have hheap : s''.heap = heap := htables.heap
    have hdoc'' : IsDocument s''.heap document := by rwa [hheap]
    have htabled'' := hdoc''.tabled hs''
    refine ⟨s'', hs'', hheap.symm, htabled'', ?_⟩
    intro n key hn hobject hkey
    have hobject' := (hr.type n).symm.trans hobject
    rw [hr.lookdown_apart hdoc htabled hp (hr.inTree hn) hobject' hkey]
    rw [← hheap] at hn hobject ⊢
    exact (htabled'' n key hn hobject).symm
  cases h with
  | member p m key rest hin htype hfound hvalue hreplaced =>
    obtain ⟨heap, hreplace, rfl⟩ := Option.map_eq_some_iff.1 hreplaced
    have hr := removed_of_replace hreplace
    have hp : (s.heap.get p).type ≠ .jsonMember := by
      rw [htype]
      decide
    obtain ⟨s'', hs'', hheap, htabled'', hlookdown⟩ := hbuild p m heap hr hp
    refine ⟨s'', (· = v), hs'', ⟨hheap, htabled'', ?_⟩, ?_⟩
    · intro n key' hn hobject havoid
      rw [hr.lookdown]
      apply hlookdown n key' hn hobject
      -- a key that still finds the member leads to the value
      rintro rfl hkey
      have hm := (htabled.found hin htype hfound).2
      have hsame : s.lookdown n key' = m :: rest := by
        rw [← hfound, Store.lookdown, ← hkey, hm]
        rfl
      have hleads : Leads s n key' v := .member m rest htype hsame hvalue
      exact havoid v ((hr.leads_iff hdoc htabled hp hin fun _ => by rw [htype]; decide).2 hleads) rfl
    · intro keys hv n hn hnv
      rw [hr.trail hdoc htabled htype .refl] at hn
      obtain ⟨hm, -⟩ := htabled.found hin htype hfound
      have hmember := (hdoc.member p m hin hm).2 htype
      exact hv (not_inArray hdoc (hin.tail hm) hmember (mem_of_memberValue hvalue)) (hnv ▸ hn)
  | element p hin htype hreplaced =>
    obtain ⟨heap, hreplace, rfl⟩ := Option.map_eq_some_iff.1 hreplaced
    have hr := removed_of_replace hreplace
    have hp : (s.heap.get p).type ≠ .jsonMember := by
      rw [htype]
      decide
    obtain ⟨s'', hs'', hheap, htabled'', hlookdown⟩ := hbuild p v heap hr hp
    refine ⟨s'', fun _ => False, hs'', ⟨hheap, htabled'', ?_⟩, fun _ _ _ _ hno => hno⟩
    intro n key' hn hobject _
    rw [hr.lookdown]
    apply hlookdown n key' hn hobject
    rintro rfl
    exact absurd (htype.symm.trans ((hr.type n).symm.trans hobject)) (by decide)

def TokenFits (text : List Char) (size : Nat) : Prop :=
  text = ['-'] ∨ (∃ v, text = Nat.toDigits 10 v ∧ v % 2 ^ 64 ≤ size) ∨
    text ≠ [] ∧ ¬ IsNumeral text ∧ leftoverIndex text = size

def Takes (h : Heap) (current : Node) (key : Location) : Prop :=
  (h.get current).type = .jsonObject ∨
    (h.get current).type = .jsonArray ∧ TokenFits key.view.toList (h.get current).children.length

def Receives (s : Store) (current : Node) (keys : List Location) : Prop :=
  ∃ keys' key c, keys = keys' ++ [key] ∧ target s current keys' = some c ∧ Takes s.heap c key

/-- One element comes right behind another one. -/
def Behind (h : Heap) (v w : Node) : Prop :=
  ∃ p i, (h.get p).type = .jsonArray ∧ (h.get p).children[i]? = some v ∧
    (h.get p).children[i + 1]? = some w

section Adding
variable [BEq α] {std : StdLib α} {op : Operation} {s s' : Store}

theorem arrayAction_fits {array : Node} (hlt : array < s.heap.nodes.length)
    (ha : op.arrayAction std s array key = some (s', result)) :
    s'.isError result = true ∨ TokenFits key.view.toList (s.heap.get array).children.length := by
  have hne : key.view.toList ≠ [] := by
    intro hnil
    rw [Operation.arrayAction] at ha
    simp [arrayLookup, hnil] at ha
  by_cases hminus : key.view.toList = ['-']
  · exact .inr (.inl hminus)
  have hrefused {heap : Heap} {e index} (hlookup : arrayLookup s.heap array key 0 =
      some (heap, e, index)) (hrefused : Refused s.heap heap e)
      (hindex : index ≠ (s.heap.get array).children.length) : s'.isError result = true := by
    cases (arrayAction_refused hlookup hrefused hlt hindex).symm.trans ha
    exact decide_eq_true hrefused.fresh.2
  by_cases hnumeral : IsNumeral key.view.toList
  · have hkey := hnumeral.toDigits.symm
    by_cases hle : Nat.ofDigitChars 10 key.view.toList 0 % 2 ^ 64 ≤
        (s.heap.get array).children.length
    · exact .inr (.inr (.inl ⟨_, hkey, hle⟩))
    · have hlookup := arrayLookup_numeral hkey s.heap array 0
      rw [List.getElem?_eq_none (Nat.le_of_not_le hle)] at hlookup
      obtain ⟨heap, e, he, hfresh⟩ := map_errAt_refused s.heap .jsonNumber key
        "index is greater than number of items in array"
        (Nat.ofDigitChars 10 key.view.toList 0 % 2 ^ 64)
      exact .inl (hrefused (hlookup.trans he) hfresh fun heq => hle heq.le)
  · obtain ⟨heap, e, hlookup, hfresh⟩ := arrayLookup_leftover hne hminus hnumeral s.heap array
    by_cases hsize : leftoverIndex key.view.toList = (s.heap.get array).children.length
    · exact .inr (.inr (.inr ⟨hne, hnumeral, hsize⟩))
    · exact .inl (hrefused hlookup hfresh hsize)

theorem act_takes (ha : op.act std s current key = some (s', result)) :
    s'.isError result = true ∨ Takes s.heap current key := by
  unfold Operation.act at ha
  split at ha
  · next htype => exact .inr (.inl htype)
  · split at ha
    · next htype =>
      have hlt : current < s.heap.nodes.length := by
        apply Nat.lt_of_not_le
        intro hle
        rw [s.heap.get_of_le hle] at htype
        exact absurd htype (by decide)
      exact (arrayAction_fits hlt ha).imp_right fun hfits => .inr ⟨htype, hfits⟩
    · exact .inl (err_isError ha)

theorem walk_append (hkeys : keys ≠ []) (first : List Location)
    (hw : op.walk std s current (first ++ keys) = some (s', result)) :
    s'.isError result = true ∨
      ∃ n, target s current first = some n ∧ op.walk std s n keys = some (s', result) := by
  induction first generalizing current with
  | nil => exact .inr ⟨current, rfl, hw⟩
  | cons key first ih =>
    obtain ⟨key', rest, hcons⟩ := List.exists_cons_of_ne_nil
      (show first ++ keys ≠ [] from List.append_ne_nil_of_right_ne_nil first hkeys)
    rw [List.cons_append, hcons] at hw
    obtain ⟨⟨s₁, followed⟩, hfollow, hrest⟩ := Option.bind_eq_some_iff.1 hw
    cases followed with
    | error e =>
      cases hrest
      exact .inl (follow_error hfollow)
    | ok next =>
      obtain ⟨rfl, hleads⟩ := follow_ok_iff.1 hfollow
      rw [target_leads hleads]
      exact ih (hcons ▸ hrest)

theorem Operation.run_keys (hkeys : pointer op.path = some keys) (hne : keys ≠ []) :
    op.run std s document = op.walk std s document keys := by
  obtain ⟨key, keys, rfl⟩ := List.exists_cons_of_ne_nil hne
  rw [run, hkeys]

theorem walk_receives (hkeys : keys ≠ [])
    (hw : op.walk std s current keys = some (s', result)) :
    s'.isError result = true ∨ Receives s current keys := by
  obtain ⟨first, key, rfl⟩ := List.eq_nil_or_concat'  keys |>.resolve_left hkeys
  rcases walk_append (List.cons_ne_nil _ _) first hw with herror | ⟨c, htarget, hact⟩
  · exact .inl herror
  · exact (act_takes hact).imp_right fun htakes => ⟨first, key, c, rfl, htarget, htakes⟩

end Adding

theorem Removed.receives {s : Store} {heap : Heap} (h : Removed s.heap heap p m)
    (hdoc : IsDocument s.heap document) (htabled : Tabled s document)
    (hp : (s.heap.get p).type ≠ .jsonMember) (hin : s.heap.InTree document n)
    (hoff : ¬ s.heap.InTree n p) (hreceives : Receives { s with heap } n keys) :
    Receives s n keys := by
  obtain ⟨first, key, c, rfl, htarget, htakes⟩ := hreceives
  obtain ⟨htarget, hc⟩ := h.target_apart hdoc htabled hp hin hoff htarget
  refine ⟨first, key, c, rfl, htarget, ?_⟩
  have hne : c ≠ p := fun heq => hoff (heq ▸ hc)
  rw [Takes, h.type, h.children, if_neg hne] at htakes
  exact htakes

namespace Patch.Op

section Transfer
variable [BEq α] (std : StdLib α)

/-- What RFC 6902 makes of a copy: the value at `from` is added at `path`. -/
def copyRfc (op : Op) (s : Store) (document : Node) : Option (Store × Node) := do
  let (s, value) ← { path := op.from, action := .read : Operation }.run std s document
  if s.isError value then return (s, value)
  else add std { op with value := some value } s document

/-- What RFC 6902 makes of a move: the value is removed, and then added at `path` in what is left. -/
def moveRfc (op : Op) (s : Store) (document : Node) : Option (Store × Node) := do
  let (s, value) ← { path := op.from, action := .remove : Operation }.run std s document
  if s.isError value then return (s, value)
  else
    let s ← s.buildSt document
    add std { op with value := some value } s document

end Transfer

/-- The pointers are not one text, and the path is not empty unless `from` selects nothing. -/
structure Apart (op : Op) (s : Store) (document : Node) : Prop where
  view : op.path.view ≠ op.from.view
  ne_root : op.path.len = 0 → ∀ v, ¬ Selects s document op.from v

/-- Moreover the path does not lead to what is moved, where that is the value of a member. -/
structure Clear (op : Op) (s : Store) (document : Node) : Prop extends op.Apart s document where
  avoids : ∀ v, Selects s document op.from v → ¬ InArray s.heap v →
    ∀ keys, pointer op.path = some keys → v ∉ trail s document keys

/-- The keys of a pointer begin those of another one, which goes on. -/
def GoesOn («from» path : Location) (rest : List Location) : Prop :=
  rest ≠ [] ∧ ∃ keys keys', pointer «from» = some keys ∧ pointer path = some (keys' ++ rest) ∧
    keys'.map Location.view = keys.map Location.view

def ProperPrefix («from» path : Location) : Prop := ∃ rest, GoesOn «from» path rest

/-- Where an element is moved, nothing can be added at the rest of the path in the one behind it. -/
def Blocked (op : Op) (s : Store) (document : Node) : Prop :=
  ∀ rest v w, GoesOn op.from op.path rest → Selects s document op.from v → Behind s.heap v w →
    ¬ Receives s w rest

section Transfer
variable [BEq α] {std : StdLib α} {op : Op} {s : Store}

theorem act_read {operation : Operation} {s s' : Store} (haction : operation.action = .read)
    (ha : operation.act std s current key = some (s', result)) :
    s'.isError result = true ∨ target s current [key] = some result := by
  unfold Operation.act at ha
  split at ha
  · next htype =>
    unfold Operation.objectAction at ha
    rw [haction] at ha
    cases hfound : s.lookdown current key with
    | nil =>
      rw [hfound] at ha
      exact .inl (err_isError ha)
    | cons m rest =>
      rw [hfound] at ha
      obtain ⟨existing, hvalue, ha⟩ := Option.bind_eq_some_iff.1 ha
      cases ha
      exact .inr (target_leads (.member m rest htype hfound hvalue) [])
  · split at ha
    · next htype =>
      obtain ⟨⟨heap, element, index⟩, hlookup, ha⟩ := Option.bind_eq_some_iff.1 ha
      dsimp only at ha
      rw [haction, if_neg fun hc => absurd hc.1 (by decide)] at ha
      split at ha
      · next herror =>
        cases ha
        exact .inl herror
      · next herror =>
        unfold Operation.elementAction at ha
        rw [haction] at ha
        cases ha
        have hno : (heap.get result).type ≠ .error := fun he => herror (decide_eq_true he)
        obtain ⟨rfl, hindex, hchild⟩ := arrayLookup_element hlookup hno
        exact .inr (target_leads (.element index htype hindex hchild hno) [])
    · exact .inl (err_isError ha)

theorem walk_read {operation : Operation} {s s' : Store} (haction : operation.action = .read)
    (hw : operation.walk std s current keys = some (s', result)) :
    s'.isError result = true ∨ target s current keys = some result := by
  induction keys generalizing current with
  | nil => cases hw
  | cons key keys ih =>
    cases keys with
    | nil => exact act_read haction hw
    | cons key' keys =>
      obtain ⟨⟨s₁, followed⟩, hfollow, hrest⟩ := Option.bind_eq_some_iff.1 hw
      cases followed with
      | error e =>
        cases hrest
        exact .inl (follow_error hfollow)
      | ok next =>
        obtain ⟨rfl, hleads⟩ := follow_ok_iff.1 hfollow
        rw [target_leads hleads]
        exact ih hrest

/-- A read is an error, or returns what the pointer selects. -/
theorem run_read {operation : Operation} {s s' : Store} (haction : operation.action = .read)
    (hr : operation.run std s document = some (s', result)) :
    s'.isError result = true ∨ Selects s document operation.path result := by
  unfold Operation.run at hr
  split at hr
  · exact .inl (errAt_isError hr)
  · next hkeys =>
    unfold Operation.rootAction at hr
    rw [haction] at hr
    cases hr
    exact .inr ⟨[], hkeys, rfl⟩
  · next keys _ hkeys =>
    exact (walk_read haction hr).imp_right fun htarget => ⟨keys, hkeys, htarget⟩

theorem copy_apart (h : op.Apart s document) :
    op.copy std s document = op.copyRfc std s document := by
  unfold copy transfer copyRfc
  rw [if_neg h.view]
  apply Option.bind_congr
  intro x hx
  obtain ⟨s', value⟩ := x
  dsimp only
  split
  · rfl
  · next herror =>
    have hselects := (run_read (by rfl) hx).resolve_left herror
    unfold add
    rw [if_neg fun hlen => h.ne_root hlen value hselects]

theorem move_clear (hdoc : IsDocument s.heap document) (htabled : Tabled s document)
    (h : op.Clear s document) :
    edited (op.move std s document) = edited (op.moveRfc std s document) := by
  unfold move transfer moveRfc
  rw [if_neg h.view]
  apply edited_bind rfl
  intro s₁ s₁' value hr hr' _
  rw [hr] at hr'
  cases hr'
  dsimp only
  split
  · rfl
  · next herror =>
    obtain ⟨htaken, keys, hkeys, -, htarget⟩ :=
      (run_remove (by rfl) htabled hr).resolve_left herror
    have hselects : Selects s document op.from value := ⟨keys, hkeys, htarget⟩
    obtain ⟨s₂, avoid, hbuild, hagrees, havoid⟩ := htaken.agrees hdoc htabled
    rw [hbuild, Option.bind_eq_bind, Option.bind_some]
    unfold add
    rw [if_neg fun hlen => h.ne_root hlen value hselects]
    apply runOn_edited (by rfl) hagrees
    intro keys' hkeys'
    exact havoid keys' fun hmember => h.avoids value hselects hmember keys' hkeys'

theorem taken_into {operation : Operation} {s₁ s' : Store} (hdoc : IsDocument s.heap document)
    (htabled : Tabled s document) (hp : (s.heap.get p).type = .jsonArray)
    (hin : s.heap.InTree document p) (hreplaced : s.replace p v none = some s₁)
    (htarget : target s document keys = some v) (hne : keys ≠ [])
    (hview : keys'.map Location.view = keys.map Location.view) (hrest : rest ≠ [])
    (hw : operation.walk std s₁ document (keys' ++ rest) = some (s', result)) :
    s'.isError result = true ∨ ∃ w, Behind s.heap v w ∧ Receives s w rest := by
  obtain ⟨heap, hreplace, rfl⟩ := Option.map_eq_some_iff.1 hreplaced
  have hr := removed_of_replace hreplace
  have hp' : (s.heap.get p).type ≠ .jsonMember := by
    rw [hp]
    decide
  obtain ⟨first, key, rfl⟩ := (List.eq_nil_or_concat' keys).resolve_left hne
  obtain ⟨p', hfirst, hlast⟩ := target_split htarget
  obtain ⟨v', hleads, hv⟩ := target_cons hlast
  cases hv
  have hp'in := htabled.target_inTree .refl hfirst
  -- the element has one parent
  obtain rfl : p' = p := by
    have hparent := hdoc.parent p v hin hr.child
    cases hleads with
    | member m _ htype hfound hvalue =>
      have hm := (htabled.found hp'in htype hfound).1
      exact absurd ⟨p, hparent, hp⟩ (not_inArray hdoc (hp'in.tail hm)
        ((hdoc.member p' m hp'in hm).2 htype) (mem_of_memberValue hvalue))
    | element i htype hindex hchild hno =>
      have hv := hdoc.parent p' v hp'in (List.mem_of_getElem? hchild)
      exact Option.some.inj (hv.symm.trans hparent)
  obtain ⟨first', last', rfl, hfirst', hlast'⟩ := List.map_eq_append_iff.1 (hview.trans List.map_append)
  obtain ⟨key', _, rfl, hkey', hnil⟩ := List.map_eq_cons_iff.1 hlast'
  rw [List.map_eq_nil_iff.1 hnil] at hw
  rcases walk_append hrest _ hw with herror | ⟨w, hw₁, hwalk⟩
  · exact .inl herror
  · rw [target_append (hr.target_parent hdoc htabled hp' .refl hfirst hfirst')] at hw₁
    obtain ⟨w', hleads', hw'⟩ := target_cons hw₁
    cases hw'
    obtain ⟨i, hv, hbehind⟩ := hr.leads_behind (hdoc.nodup p' hin) hp (hleads.view hkey') hleads'
    have hchild : s.heap.HasChild p' w := List.mem_of_getElem? hbehind
    refine (walk_receives hrest hwalk).imp_right fun hreceives =>
      ⟨w, ⟨p', i, hp, hv, hbehind⟩, hr.receives hdoc htabled hp' (hin.tail hchild) ?_ hreceives⟩
    exact hdoc.not_self hin hchild

theorem move_into {s' : Store} (hdoc : IsDocument s.heap document) (htabled : Tabled s document)
    (h : op.Clear s document) (hblocked : op.Blocked s document)
    (hbegins : ProperPrefix op.from op.path)
    (hm : op.move std s document = some (s', result)) : s'.isError result = true := by
  unfold move transfer at hm
  rw [if_neg h.view] at hm
  obtain ⟨⟨s₁, value⟩, hr, hm⟩ := Option.bind_eq_some_iff.1 hm
  dsimp only at hm
  split at hm
  · next herror =>
    cases hm
    exact herror
  · next herror =>
    obtain ⟨htaken, keys, hkeys, hne, htarget⟩ :=
      (run_remove (by rfl) htabled hr).resolve_left herror
    have hselects : Selects s document op.from value := ⟨keys, hkeys, htarget⟩
    obtain ⟨rest, hgoes⟩ := hbegins
    obtain ⟨hrest, keys₁, keys', hkeys₁, hpath, hview⟩ := id hgoes
    obtain rfl : keys = keys₁ := Option.some.inj (hkeys.symm.trans hkeys₁)
    cases htaken with
    | member p m key others hin htype hfound hvalue hreplaced =>
      have hm := (htabled.found hin htype hfound).1
      have hnot := not_inArray hdoc (hin.tail hm) ((hdoc.member p m hin hm).2 htype)
        (mem_of_memberValue hvalue)
      exact absurd (target_mem_trail htarget hne hview rest) (h.avoids value hselects hnot _ hpath)
    | element p hin htype hreplaced =>
      obtain ⟨⟨s₂, added⟩, hadd, hm⟩ := Option.bind_eq_some_iff.1 hm
      dsimp only at hm
      split at hm
      · next herror =>
        cases hm
        exact herror
      · next hnot =>
        have hlong : keys' ++ rest ≠ [] := List.append_ne_nil_of_right_ne_nil keys' hrest
        rw [Operation.run_keys hpath hlong] at hadd
        rcases taken_into hdoc htabled htype hin hreplaced htarget hne hview hrest hadd with
          herror | ⟨w, hbehind, hreceives⟩
        · exact absurd herror hnot
        · exact absurd hreceives (hblocked rest value w hgoes hselects hbehind)

/-- A copy is what RFC 6902 says where the pointers stand apart, and a move where the path stays clear
of what is moved. -/
theorem transfer_rfc {s₀ : Store} (hdoc : IsDocument s.heap document)
    (hbuilt : s₀.buildSt document = some s) :
    (op.Apart s document → op.copy std s document = op.copyRfc std s document) ∧
    (op.Clear s document →
      edited (op.move std s document) = edited (op.moveRfc std s document) ∧
      (op.Blocked s document → ProperPrefix op.from op.path → ∀ s' result,
        op.move std s document = some (s', result) → s'.isError result = true)) := by
  have htabled := hdoc.tabled hbuilt
  refine ⟨copy_apart, fun h => ⟨move_clear hdoc htabled h, ?_⟩⟩
  intro hblocked hbegins s' result hm
  exact move_into hdoc htabled h hblocked hbegins hm

end Transfer

/-- The document `{"a": {}}`. -/
def nested : Heap where
  nodes := [
    { type := .jsonObject, children := [1] },
    { type := .jsonMember, parent := some 0, children := [2, 3] },
    { type := .jsonKey, location := .ofString "a", parent := some 1 },
    { type := .jsonObject, parent := some 1 }]

def nestedBuilt : Store := ⟨nested, [⟨0, "a", 1⟩]⟩

theorem nested_isDocument : IsDocument nested 0 := by
  have hlt : ∀ n, nested.InTree 0 n → n < 4 := by
    intro n hn
    induction hn with
    | refl => decide
    | @tail p c _ hc ih =>
      have hchildren : ∀ p < 4, ∀ c ∈ (nested.get p).children, c < 4 := by decide
      exact hchildren p ih c hc
  have hparent : ∀ n < 4, ∀ c ∈ (nested.get n).children, (nested.get c).parent = some n := by decide
  have hnodup : ∀ n < 4, (nested.get n).children.Nodup := by decide
  have hmember : ∀ n < 4, ∀ c ∈ (nested.get n).children,
      ((nested.get c).type = .jsonMember ↔ (nested.get n).type = .jsonObject) := by decide
  have hfields : ∀ n < 4, (nested.get n).type = .jsonMember → n = 1 := by decide
  have hno : ∀ n < 4, (nested.get n).type ≠ .error := by decide
  refine ⟨?_, fun n c hn => hparent n (hlt n hn) c, fun n hn => hnodup n (hlt n hn),
    fun n c hn => hmember n (hlt n hn) c, fun n hn hm => ?_, fun n hn => hno n (hlt n hn), by decide⟩
  · refine ⟨.node .jsonObject {} [.node .jsonMember {} [.node .jsonKey (.ofString "a") [],
      .node .jsonObject {} []]], ?_⟩
    simp [Heap.Represents, Heap.RepresentsAll, nested, Heap.get]
  · rw [hfields n (hlt n hn) hm]
    exact ⟨2, 3, rfl⟩

/-- The operation that takes `/a` to a path. -/
def takeA (path : String) : Op :=
  { node := 0, type := .move, path := .ofString path, «from» := .ofString "/a" }

/-- The document `[[null]]`. -/
def nestedArray : Heap where
  nodes := [
    { type := .jsonArray, children := [1] },
    { type := .jsonArray, parent := some 0, children := [2] },
    { type := .jsonNull, parent := some 1 }]

theorem nestedArray_isDocument : IsDocument nestedArray 0 := by
  have hlt : ∀ n, nestedArray.InTree 0 n → n < 3 := by
    intro n hn
    induction hn with
    | refl => decide
    | @tail p c _ hc ih =>
      have hchildren : ∀ p < 3, ∀ c ∈ (nestedArray.get p).children, c < 3 := by decide
      exact hchildren p ih c hc
  have hparent : ∀ n < 3, ∀ c ∈ (nestedArray.get n).children,
      (nestedArray.get c).parent = some n := by decide
  have hnodup : ∀ n < 3, (nestedArray.get n).children.Nodup := by decide
  have hmember : ∀ n < 3, ∀ c ∈ (nestedArray.get n).children,
      ((nestedArray.get c).type = .jsonMember ↔ (nestedArray.get n).type = .jsonObject) := by decide
  have hfields : ∀ n < 3, (nestedArray.get n).type ≠ .jsonMember := by decide
  have hno : ∀ n < 3, (nestedArray.get n).type ≠ .error := by decide
  refine ⟨?_, fun n c hn => hparent n (hlt n hn) c, fun n hn => hnodup n (hlt n hn),
    fun n c hn => hmember n (hlt n hn) c, fun n hn hm => absurd hm (hfields n (hlt n hn)),
    fun n hn => hno n (hlt n hn), by decide⟩
  refine ⟨.node .jsonArray {} [.node .jsonArray {} [.node .jsonNull {} []]], ?_⟩
  simp [Heap.Represents, Heap.RepresentsAll, nestedArray, Heap.get]

def takeFirst (path : String) : Op :=
  { node := 0, type := .move, path := .ofString path, «from» := .ofString "/0" }

theorem takeFirst_below : ProperPrefix (takeFirst "/0/0").from (takeFirst "/0/0").path :=
  let path := Location.ofString "/0/0"
  ⟨[{ path with pos := 3, len := 1 }], List.cons_ne_nil _ _, _, [{ path with pos := 1, len := 1 }],
    rfl, rfl, rfl⟩

theorem transfer_rfc_sibling :
    (takeA "/b").copy stdInt nestedBuilt 0 = (takeA "/b").copyRfc stdInt nestedBuilt 0 ∧
    edited ((takeA "/b").move stdInt nestedBuilt 0) =
      edited ((takeA "/b").moveRfc stdInt nestedBuilt 0) ∧
    ∀ s' result, (takeFirst "/0/0").move stdInt ⟨nestedArray, []⟩ 0 = some (s', result) →
      s'.isError result = true := by
  have hclear : (takeA "/b").Clear nestedBuilt 0 := by
    refine ⟨⟨by decide, fun hlen => absurd hlen (by decide)⟩, fun v _ _ keys hkeys hv => ?_⟩
    have htrail : (pointer (takeA "/b").path).map (trail nestedBuilt 0) = some [] := by decide
    rw [hkeys] at htrail
    rw [Option.some.inj htrail] at hv
    cases hv
  have hfirst : ∀ v, Selects ⟨nestedArray, []⟩ 0 (takeFirst "/0/0").from v → v = 1 := by
    rintro v ⟨keys, hkeys, htarget⟩
    have hone : (pointer (takeFirst "/0/0").from).bind (target ⟨nestedArray, []⟩ 0) = some 1 := by
      decide
    rw [hkeys, Option.bind_some, htarget] at hone
    exact Option.some.inj hone
  have hclear' : (takeFirst "/0/0").Clear ⟨nestedArray, []⟩ 0 := by
    refine ⟨⟨by decide, fun hlen => absurd hlen (by decide)⟩, fun v hselects hnot => ?_⟩
    rw [hfirst v hselects] at hnot
    exact absurd ⟨0, rfl, rfl⟩ hnot
  -- no element is behind the first one
  have hblocked : (takeFirst "/0/0").Blocked ⟨nestedArray, []⟩ 0 := by
    rintro rest v w - hselects ⟨p, i, hp, hv, hw⟩
    rw [hfirst v hselects] at hv
    have hlt : p < 3 := Nat.lt_of_not_le fun hle => by
      rw [nestedArray.get_of_le hle] at hp
      exact absurd hp (by decide)
    have hnone : ∀ p < 3, 1 ∈ (nestedArray.get p).children →
        (nestedArray.get p).children.length = 1 := by decide
    have hlen := hnone p hlt (List.mem_of_getElem? hv)
    have hbeyond := (List.getElem?_eq_some_iff.1 hw).1
    rw [hlen] at hbeyond
    omega
  have hbuilt : Store.buildSt ⟨nested, []⟩ 0 = some nestedBuilt := rfl
  have hbuilt' : Store.buildSt ⟨nestedArray, []⟩ 0 = some ⟨nestedArray, []⟩ := rfl
  exact ⟨(transfer_rfc nested_isDocument hbuilt).1 hclear.toApart,
    ((transfer_rfc nested_isDocument hbuilt).2 hclear).1,
    ((transfer_rfc nestedArray_isDocument hbuilt').2 hclear').2 hblocked takeFirst_below⟩

def copyMissing : Op :=
  { node := 0, type := .copy, path := .ofString "/c", «from» := .ofString "/c" }

/-- The document `[[], [null]]`. -/
def twoArrays : Heap where
  nodes := [
    { type := .jsonArray, children := [1, 2] },
    { type := .jsonArray, parent := some 0 },
    { type := .jsonArray, parent := some 0, children := [3] },
    { type := .jsonNull, parent := some 2 }]

/-- A copy to the root leaves the document, a move into what is moved loses it or lets it into the
next element, and a copy of nothing to itself is no error. -/
theorem transfer_not_rfc :
    (((takeA "").copy stdInt nestedBuilt 0).map (·.2) = some 0 ∧
      ((takeA "").copyRfc stdInt nestedBuilt 0).map (fun r => (r.1.heap.get r.2).children) =
        some []) ∧
    (ProperPrefix (takeA "/a/b").from (takeA "/a/b").path ∧
      ((takeA "/a/b").move stdInt nestedBuilt 0).map
        (fun r => (r.1.isError r.2, (r.1.heap.get r.2).children)) = some (false, [])) ∧
    (ProperPrefix (takeFirst "/0/0").from (takeFirst "/0/0").path ∧
      ((takeFirst "/0/0").move stdInt ⟨twoArrays, []⟩ 0).map
        (fun r => (r.1.isError r.2, (r.1.heap.get r.2).children)) = some (false, [2])) ∧
    ((copyMissing.copy stdInt nestedBuilt 0).map (fun r => r.1.isError r.2) = some false ∧
      (copyMissing.copyRfc stdInt nestedBuilt 0).map (fun r => r.1.isError r.2) = some true) :=
  by
  refine ⟨by decide +kernel, ⟨?_, by decide +kernel⟩, ⟨takeFirst_below, by decide +kernel⟩,
    by decide +kernel⟩
  let path := Location.ofString "/a/b"
  exact ⟨[{ path with pos := 3, len := 1 }], List.cons_ne_nil _ _, _,
    [{ path with pos := 1, len := 1 }], rfl, rfl, rfl⟩

end Patch.Op

end Trieste.Json
