import Trieste.Json.Acting

namespace Trieste.Json
set_option autoImplicit true
open Library Relation Heap

section Running
variable [BEq α] (std : StdLib α)

/-- No empty key of the path comes to an array, and the numbers that are compared at its end are in
range. -/
def Operation.Defined (op : Operation) (s : Store) (document : Node) : Prop :=
  ∀ keys, pointer op.path = some keys → ¬ EmptyAt s document keys ∧
    ∀ n, target s document keys = some n → op.Accepts std s n

variable {std} {op : Operation} {s : Store} {R : Node → Prop} {types : List Token}

theorem walk_total (h : Ready op s R) (hn : R n) (hkeys : keys ≠ []) :
    Returns (¬ EmptyAt s n keys ∧ ∀ m, target s n keys = some m → op.Accepts std s m) valueTokens s
      (op.walk std s n keys) := by
  induction keys generalizing n with
  | nil => exact absurd rfl hkeys
  | cons key keys ih =>
    have hempty : ∀ keys, EmptyAt s n (key :: keys) ↔
        ((s.heap.get n).type = .jsonArray ∧ key.view.toList = []) ∨
          ∃ next, Leads s n key next ∧ EmptyAt s next keys := by
      intro keys
      constructor
      · intro hempty
        cases hempty with
        | here ht hkey => exact .inl ⟨ht, hkey⟩
        | later hleads hempty => exact .inr ⟨_, hleads, hempty⟩
      · rintro (⟨ht, hkey⟩ | ⟨next, hleads, hempty⟩)
        · exact .here ht hkey
        · exact .later hleads hempty
    cases keys with
    | nil =>
      apply (act_total h hn).congr
      rw [hempty]
      refine and_congr (not_congr (or_iff_left ?_)) ⟨fun h next hleads => ?_, fun h m hm => ?_⟩
      · rintro ⟨next, -, hnone⟩
        cases hnone
      · exact h next (target_leads hleads [])
      · obtain ⟨next, hleads, htarget⟩ := target_cons hm
        cases htarget
        exact h m hleads
    | cons key' keys =>
      by_cases hkey : (s.heap.get n).type = .jsonArray ∧ key.view.toList = []
      · apply Returns.throws (fun hok => hok.1 ((hempty _).2 (.inl hkey)))
        rw [Operation.walk, follow_empty hkey.1 hkey.2]
        · rfl
        · exact List.cons_ne_nil _ _
      rcases follow_total h.walkable hn hkey with
        ⟨next, hfollow, hleads⟩ | ⟨heap, e, hfollow, herror⟩
      · have hok : (¬ EmptyAt s n (key :: key' :: keys) ∧
            ∀ m, target s n (key :: key' :: keys) = some m → op.Accepts std s m) ↔
            (¬ EmptyAt s next (key' :: keys) ∧
              ∀ m, target s next (key' :: keys) = some m → op.Accepts std s m) := by
          rw [hempty, target_leads hleads]
          apply and_congr_left'
          apply not_congr
          constructor
          · rintro (hc | ⟨next', hleads', hempty⟩)
            · exact absurd hc hkey
            · exact hleads'.unique hleads ▸ hempty
          · exact fun hempty => .inr ⟨next, hleads, hempty⟩
        apply Returns.congr _ hok
        rw [Operation.walk, hfollow]
        · exact ih (h.walkable.leads hn hleads) (List.cons_ne_nil _ _)
        · exact List.cons_ne_nil _ _
      · have hstuck : ∀ next, ¬ Leads s n key next := by
          intro next hleads
          rw [follow_ok_iff.2 ⟨rfl, hleads⟩, Option.some.injEq, Prod.mk.injEq] at hfollow
          cases hfollow.2
        have hwalk : op.walk std s n (key :: key' :: keys) = some ({ s with heap }, e) := by
          rw [Operation.walk, hfollow]
          · rfl
          · exact List.cons_ne_nil _ _
        rw [hwalk]
        apply Outcome.returns ⟨heap, e, rfl, .inl herror⟩
        refine ⟨fun hc => ?_, fun m hm => ?_⟩
        · rcases (hempty _).1 hc with hc | ⟨next, hleads, -⟩
          · exact hkey hc
          · exact hstuck next hleads
        · obtain ⟨next, hleads, -⟩ := target_cons hm
          exact absurd hleads (hstuck next)

theorem rootAction_total (hd : IsValue s.heap document) (htype : (s.heap.get document).type ∈ types)
    (hgiven : op.action ∈ [.read, .remove] ∨
      ∃ v, op.value = some v ∧ IsValue s.heap v ∧ (s.heap.get v).type ∈ types)
    (hlooks : op.action = .compare → Looks s document ∧ ∀ v, op.value = some v → Looks s v) :
    Returns (op.Accepts std s document) types s (op.rootAction std s document) := by
  have hvalue : op.action ∉ [.read, .remove] →
      ∃ v, op.value = some v ∧ IsValue s.heap v ∧ (s.heap.get v).type ∈ types :=
    hgiven.resolve_left
  rw [Operation.rootAction]
  cases haction : op.action with
  | read =>
    exact (Outcome.value hd htype).returns (accepts_of_ne (by rw [haction]; decide) document)
  | remove =>
    exact (Outcome.errAt types s ..).returns (accepts_of_ne (by rw [haction]; decide) document)
  | insert | replace =>
    obtain ⟨v, hv, hisvalue, hvtype⟩ := hvalue (by rw [haction]; decide)
    rw [hv]
    exact (Outcome.value hisvalue hvtype).returns
      (accepts_of_ne (by rw [haction]; decide) document)
  | compare =>
    obtain ⟨v, hv, hisvalue, -⟩ := hvalue (by rw [haction]; decide)
    obtain ⟨hdlooks, hvlooks⟩ := hlooks haction
    obtain ⟨t, ht⟩ := hd.tree
    obtain ⟨t', ht'⟩ := hisvalue.tree
    simp only [hv, Option.bind_eq_bind, Option.bind_some]
    exact (compare_total hd hisvalue hdlooks (hvlooks v hv) ht ht' htype).congr
      (accepts_iff haction hv ht ht')

/-- An operation on a value throws only where it is not defined. -/
theorem run_total (h : Ready op s R) (hd : R document) :
    Returns (op.Defined std s document) valueTokens s (op.run std s document) := by
  obtain ⟨hvalue, htype⟩ := h.walkable.value document hd
  rw [Operation.run, Operation.Defined]
  cases hkeys : pointer op.path with
  | none =>
    apply Outcome.returns (.errAt ..)
    intro keys hc
    cases hc
  | some keys =>
    simp only [Option.some.injEq, forall_eq']
    cases keys with
    | nil =>
      have hgiven : op.action ∈ [.read, .remove] ∨ ∃ v, op.value = some v ∧ IsValue s.heap v ∧
          (s.heap.get v).type ∈ valueTokens := by
        apply h.given.imp_right
        intro hgiven
        obtain ⟨v, hv⟩ := hgiven
        exact ⟨v, hv, h.value v hv⟩
      apply (rootAction_total hvalue htype hgiven ?_).congr
      · constructor
        · exact fun hok => hok.2 document rfl
        · intro hok
          refine ⟨fun hc => (by cases hc), fun n hn => ?_⟩
          cases hn
          exact hok
      · intro haction
        exact ⟨h.looks (by rw [haction]; decide) document hd, (h.compared haction).2⟩
    | cons key keys => exact walk_total h hd (List.cons_ne_nil _ _)

theorem run_top (hd : IsValue s.heap document) (htop : (s.heap.get document).type = .top)
    (hgiven : op.action ∈ [.read, .remove] ∨
      ∃ v, op.value = some v ∧ IsValue s.heap v)
    (hlooks : op.action = .compare → Looks s document ∧ ∀ v, op.value = some v → Looks s v) :
    Returns (op.Defined std s document) (.top :: valueTokens) s (op.run std s document) := by
  have hobject : (s.heap.get document).type ≠ .jsonObject := by
    rw [htop]
    decide
  have harray : (s.heap.get document).type ≠ .jsonArray := by
    rw [htop]
    decide
  have hstuck : ∀ key next, ¬ Leads s document key next := by
    intro key next hleads
    cases hleads with
    | member m rest htype => exact hobject htype
    | element i htype => exact harray htype
  rw [Operation.run, Operation.Defined]
  cases hkeys : pointer op.path with
  | none =>
    apply Outcome.returns (.errAt ..)
    intro keys hc
    cases hc
  | some keys =>
    simp only [Option.some.injEq, forall_eq']
    cases keys with
    | nil =>
      have hgiven : op.action ∈ [.read, .remove] ∨ ∃ v, op.value = some v ∧ IsValue s.heap v ∧
          (s.heap.get v).type ∈ .top :: valueTokens := by
        apply hgiven.imp_right
        intro hgiven
        obtain ⟨v, hv, hisvalue⟩ := hgiven
        exact ⟨v, hv, hisvalue, hisvalue.type⟩
      apply (rootAction_total hd hd.type hgiven hlooks).congr
      constructor
      · exact fun hok => hok.2 document rfl
      · intro hok
        refine ⟨fun hc => (by cases hc), fun n hn => ?_⟩
        cases hn
        exact hok
    | cons key keys =>
      have hok : ¬ EmptyAt s document (key :: keys) ∧
          ∀ n, target s document (key :: keys) = some n → op.Accepts std s n := by
        refine ⟨fun hc => ?_, fun n hn => ?_⟩
        · cases hc with
          | here ht => exact harray ht
          | later hleads => exact hstuck _ _ hleads
        · obtain ⟨next, hleads, -⟩ := target_cons hn
          exact absurd hleads (hstuck key next)
      apply Outcome.returns _ hok
      change Outcome _ s (op.walk std s document (key :: keys))
      cases keys with
      | nil =>
        rw [Operation.walk, Operation.act, if_neg hobject, if_neg harray]
        exact .err _ hd.tree _
      | cons key' keys =>
        obtain ⟨t, ht⟩ := hd.tree
        obtain ⟨heap, e, he, -, herror⟩ := err_total ht "Cannot index into value"
        refine ⟨heap, e, ?_, .inl herror⟩
        rw [Operation.walk, Operation.follow, if_neg hobject, if_neg harray, Store.err, he]
        · rfl
        · exact List.cons_ne_nil _ _

end Running

section Documents
variable {s : Store} {document : Node}

def ValueIn (h : Heap) (document n : Node) : Prop :=
  h.InTree document n ∧ (h.get n).type ∈ valueTokens

theorem Tabled.looks (h : Tabled s document) : Looks s document := by
  intro n key m hn hobject hm
  rw [h n key hn hobject] at hm
  exact (List.mem_filter.1 hm).1

theorem Looks.sub (h : Looks s v) (hn : s.heap.InTree v n) : Looks s n :=
  fun m key c hm => h m key c (hn.trans hm)

theorem IsValue.found (h : IsValue s.heap document) (hm : s.heap.InTree document m)
    (hmember : (s.heap.get m).type = .jsonMember) :
    Found s.heap (ValueIn s.heap document) m := by
  have hproper := h.proper m hm
  constructor
  · exact hproper
  · exact hmember
  · exact fun c hc => h.lt (hm.tail hc)
  · intro v hv
    obtain ⟨key, value, hc, -, hvalue, -, hmvalue⟩ := hproper.memberKey hmember
    rw [hmvalue] at hv
    cases hv
    exact ⟨hm.tail (mem_of_memberValue hmvalue), hvalue⟩

theorem IsValue.walkable (h : IsValue s.heap document) (htabled : Tabled s document) :
    Walkable s (ValueIn s.heap document) := by
  constructor
  · intro n hn
    exact ⟨h.sub hn.1 (List.mem_cons_of_mem _ hn.2), hn.2⟩
  · intro n c hn harray hc
    exact ⟨hn.1.tail hc, (h.proper n hn.1).values (by rw [harray]; decide) c hc⟩
  · intro n key m hn hobject hm
    have hc := htabled.looks n key m hn.1 hobject hm
    exact h.found (hn.1.tail hc) (((h.proper n hn.1).member m hc).2 hobject)

/-- Pointers lead where they led after a node has been taken out, also by way of that node. -/
theorem Walkable.removed {heap : Heap} (hw : Walkable s R) (h : Removed s.heap heap p m)
    (hp : Proper s.heap p) (htype : (s.heap.get p).type ∈ [.jsonArray, .jsonObject]) :
    Walkable { s with heap } R := by
  have hg := h.grafted hp htype
  constructor
  · intro n hn
    obtain ⟨hvalue, hntype⟩ := hw.value n hn
    exact ⟨hvalue.grafted hg hp, by rw [h.type]; exact hntype⟩
  · intro n c hn harray hc
    rw [h.type] at harray
    exact hw.element n c hn harray ((h.sublist n).subset hc)
  · intro n key m' hn hobject hm
    rw [h.type] at hobject
    rw [h.lookdown] at hm
    obtain ⟨hproper, hmember, hbelow, hvalue⟩ := hw.member n key m' hn hobject hm
    have hne : m' ≠ p := by
      rintro rfl
      rw [hmember] at htype
      exact absurd htype (by decide)
    obtain ⟨kn, vn, hc, -⟩ := hproper.memberKey hmember
    have hlt : m' < s.heap.nodes.length := by
      apply lt_of_mem_children
      rw [hc]
      exact .head _
    constructor
    · exact hg.proper_of hp hproper hlt hbelow
    · rw [h.type]
      exact hmember
    · intro c hcm
      rw [h.length]
      exact hbelow c ((h.sublist m').subset hcm)
    · intro v hv
      rw [h.memberValue hne] at hv
      exact hvalue v hv

end Documents

end Trieste.Json
