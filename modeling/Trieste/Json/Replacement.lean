import Trieste.Json.Exchange
import Trieste.Json.Transfer

namespace Trieste.Json
set_option autoImplicit true
open Library Relation Heap

section Target
variable {s : Store} {document : Node}

theorem target_stuck (h : ∀ next, ¬ Leads s current key next) (keys : List Location) :
    target s current (key :: keys) = none := by
  cases htarget : target s current (key :: keys) with
  | none => rfl
  | some n =>
    obtain ⟨next, hleads, -⟩ := target_cons htarget
    exact absurd hleads (h next)

theorem Tabled.leads_not_above (h : Tabled s document) (hdoc : IsDocument s.heap document)
    (hn : s.heap.InTree document n) (hleads : Leads s n key next) : ¬ s.heap.InTree next n := by
  intro habove
  obtain ⟨c, hc, hnext⟩ := h.leads_below hn hleads
  exact hdoc.not_self hn hc (hnext.trans habove)

theorem Tabled.target_below (h : Tabled s document) (hn : s.heap.InTree document n)
    (htarget : target s n keys = some m) (hne : keys ≠ []) :
    ∃ c, s.heap.HasChild n c ∧ s.heap.InTree c m := by
  cases keys with
  | nil => exact absurd rfl hne
  | cons key keys =>
    obtain ⟨next, hleads, htarget⟩ := target_cons htarget
    obtain ⟨c, hc, hnext⟩ := h.leads_below hn hleads
    exact ⟨c, hc, hnext.trans (h.target_inTree (h.leads hn hleads) htarget)⟩

theorem Tabled.target_self (h : Tabled s document) (hdoc : IsDocument s.heap document)
    (hn : s.heap.InTree document n) (htarget : target s n keys = some n) : keys = [] := by
  apply Classical.byContradiction
  intro hne
  obtain ⟨c, hc, hback⟩ := h.target_below hn htarget hne
  exact hdoc.not_self hn hc hback

theorem Tabled.leads_type (h : Tabled s document) (hdoc : IsDocument s.heap document)
    (hn : s.heap.InTree document n) (hleads : Leads s n key next) :
    (s.heap.get next).type ≠ .jsonMember := by
  have hparent : ∀ p, s.heap.InTree document p → s.heap.HasChild p next →
      (s.heap.get p).type ≠ .jsonObject → (s.heap.get next).type ≠ .jsonMember := by
    intro p hp hc htype hmember
    exact htype ((hdoc.member p next hp hc).1 hmember)
  cases hleads with
  | member m rest htype hfound hvalue =>
    obtain ⟨hm, -⟩ := h.found hn htype hfound
    apply hparent m (hn.tail hm) (mem_of_memberValue hvalue)
    rw [(hdoc.member n m hn hm).2 htype]
    decide
  | element i htype hindex hchild hno =>
    apply hparent n hn (List.mem_of_getElem? hchild)
    rw [htype]
    decide

theorem Tabled.target_type (h : Tabled s document) (hdoc : IsDocument s.heap document)
    (htarget : target s document keys = some m) : (s.heap.get m).type ≠ .jsonMember := by
  have hinner : ∀ keys n, s.heap.InTree document n → (s.heap.get n).type ≠ .jsonMember →
      target s n keys = some m → (s.heap.get m).type ≠ .jsonMember := by
    intro keys
    induction keys with
    | nil =>
      intro n _ htype htarget
      cases htarget
      exact htype
    | cons key keys ih =>
      intro n hn _ htarget
      obtain ⟨next, hleads, htarget⟩ := target_cons htarget
      exact ih next (h.leads hn hleads) (h.leads_type hdoc hn hleads) htarget
  exact hinner keys document .refl hdoc.root htarget

theorem Tabled.leads_beside (h : Tabled s document) (hdoc : IsDocument s.heap document)
    (hn : s.heap.InTree document n) (hleads : Leads s n key next)
    (hleads' : Leads s n key' next') (hne : next ≠ next') : ¬ s.heap.InTree next' next := by
  intro hbelow
  have hnext' := h.leads hn hleads'
  have habove := h.leads_not_above hdoc hn hleads'
  cases hleads with
  | member m rest htype hfound hvalue =>
    obtain ⟨hm, -⟩ := h.found hn htype hfound
    rcases hdoc.below_parent (hn.tail hm) (mem_of_memberValue hvalue) hnext' hbelow with heq | hbelow
    · exact hne heq.symm
    · rcases hdoc.below_parent hn hm hnext' hbelow with rfl | hbelow
      · exact h.leads_type hdoc hn hleads' ((hdoc.member n next' hn hm).2 htype)
      · exact habove hbelow
  | element i htype hindex hchild hno =>
    rcases hdoc.below_parent hn (List.mem_of_getElem? hchild) hnext' hbelow with heq | hbelow
    · exact hne heq.symm
    · exact habove hbelow

end Target

/-- Stores of one document before and after a value in it has been exchanged for a copy, and the
tables have been built anew. -/
structure Swapped (s s' : Store) (document p : Node) (i : Nat) (old copy : Node) : Prop
    extends Exchanged s.heap s'.heap p i old copy where
  source : IsDocument s.heap document
  tables : Tabled s document
  inside : s.heap.InTree document p
  holder : (s.heap.get p).type = .jsonMember ∧ i = 1 ∨ (s.heap.get p).type = .jsonArray
  tables' : Tabled s' document

namespace Swapped
variable {s s' : Store} {document p old copy : Node} {i : Nat}

theorem old_inTree (h : Swapped s s' document p i old copy) : s.heap.InTree document old :=
  h.inside.tail (List.mem_of_getElem? h.slot)

theorem root (h : Swapped s s' document p i old copy) : ¬ s.heap.InTree old document := fun hin =>
  h.source.not_self h.inside (List.mem_of_getElem? h.slot) (hin.trans h.inside)

theorem result (h : Swapped s s' document p i old copy) : IsDocument s'.heap document := by
  apply h.isDocument h.source h.inside
  rcases h.holder with hmember | harray
  · rw [hmember.1]
    decide
  · rw [harray]
    decide

/-- The copy is where the value was, and other children are where they were. -/
theorem getElem {j : Nat} {c : Node} (h : Swapped s s' document p i old copy)
    (hn : s.heap.InTree document n) (hc : (s.heap.get n).children[j]? = some c) :
    (s'.heap.get n).children[j]? = some (if c = old then copy else c) := by
  rw [h.children n (h.source.lt hn)]
  split
  · next hnp =>
    subst hnp
    by_cases hj : j = i
    · subst hj
      rw [h.slot] at hc
      rw [List.getElem?_set_self (List.getElem?_eq_some_iff.1 h.slot).1, if_pos (Option.some.inj hc).symm]
    · rw [List.getElem?_set_ne fun hij => hj hij.symm, hc, if_neg]
      rintro rfl
      exact hj (h.slot_unique h.source h.inside hn hc).2
  · next hnp =>
    rw [hc, if_neg]
    rintro rfl
    exact hnp (h.slot_unique h.source h.inside hn hc).1

theorem inTree_kept (h : Swapped s s' document p i old copy) (hn : s.heap.InTree document n)
    (hnot : ¬ s.heap.InTree old n) : s'.heap.InTree document n := by
  induction hn with
  | refl => exact .refl
  | @tail q c hq hc ih =>
    obtain ⟨j, hj⟩ := List.getElem?_of_mem hc
    have hj' := h.getElem hq hj
    have hne : c ≠ old := by
      rintro rfl
      exact hnot .refl
    rw [if_neg hne] at hj'
    exact (ih fun hqold => hnot (hqold.tail hc)).tail (List.mem_of_getElem? hj')

theorem keyText (h : Swapped s s' document p i old copy) (hm : s.heap.InTree document m)
    (htype : (s.heap.get m).type = .jsonMember) :
    Store.keyText s'.heap m = Store.keyText s.heap m := by
  obtain ⟨key, value, hc⟩ := h.source.fields m hm htype
  have hkey : (s.heap.get m).children[0]? = some key := by rw [hc]; rfl
  have hne : key ≠ old := by
    rintro rfl
    -- the value of a member is no key
    obtain ⟨rfl, hi⟩ := h.slot_unique h.source h.inside hm hkey
    rcases h.holder with hmember | harray
    · exact absurd (hi.trans hmember.2) Nat.zero_ne_one
    · exact absurd (htype.symm.trans harray) (by decide)
  have hkey' := h.getElem hm hkey
  rw [if_neg hne] at hkey'
  have hlt := h.source.lt (hm.tail (List.mem_of_getElem? hkey))
  rw [Store.keyText, Store.keyText, List.head?_eq_getElem?, List.head?_eq_getElem?, hkey, hkey',
    Option.map_some, Option.map_some, viewOf, viewOf, h.location key hlt]

theorem lookdown (h : Swapped s s' document p i old copy) (hn : s.heap.InTree document n)
    (hnot : ¬ s.heap.InTree old n) (htype : (s.heap.get n).type = .jsonObject) (key : Location) :
    s'.lookdown n key = s.lookdown n key := by
  have hlt := h.source.lt hn
  have hne : n ≠ p := by
    rintro rfl
    rcases h.holder with hmember | harray
    · exact absurd (htype.symm.trans hmember.1) (by decide)
    · exact absurd (htype.symm.trans harray) (by decide)
  rw [h.tables n key hn htype,
    h.tables' n key (h.inTree_kept hn hnot) ((h.type n hlt).trans htype), h.children n hlt, if_neg hne]
  apply List.filter_congr
  intro m hm
  rw [h.keyText (hn.tail hm) ((h.source.member n m hn hm).2 htype)]

/-- A key that led to the value leads to the copy, and other keys lead to where they led. -/
theorem leads (h : Swapped s s' document p i old copy) (hn : s.heap.InTree document n)
    (hnot : ¬ s.heap.InTree old n) (hleads : Leads s n key next) :
    Leads s' n key (if next = old then copy else next) := by
  have hlt := h.source.lt hn
  cases hleads with
  | member m rest htype hfound hvalue =>
    obtain ⟨hm, -⟩ := h.tables.found hn htype hfound
    have hmember := (h.source.member n m hn hm).2 htype
    rw [Store.memberValue, Store.memberField, if_pos hmember] at hvalue
    refine .member m rest ((h.type n hlt).trans htype) ((h.lookdown hn hnot htype key).trans hfound) ?_
    rw [Store.memberValue, Store.memberField,
      if_pos ((h.type m (h.source.lt (hn.tail hm))).trans hmember)]
    exact h.getElem (hn.tail hm) hvalue
  | element j htype hindex hchild hno =>
    refine .element j ((h.type n hlt).trans htype) hindex (h.getElem hn hchild) ?_
    split
    · exact h.made.noError copy .refl
    · rw [h.type next (h.source.lt (hn.tail (List.mem_of_getElem? hchild)))]
      exact hno

theorem leads_back (h : Swapped s s' document p i old copy) (hn : s.heap.InTree document n)
    (hnot : ¬ s.heap.InTree old n) (hleads : Leads s' n key next) :
    ∃ next', Leads s n key next' := by
  have hlt := h.source.lt hn
  cases hleads with
  | member m rest htype hfound hvalue =>
    rw [h.type n hlt] at htype
    rw [h.lookdown hn hnot htype key] at hfound
    obtain ⟨hm, -⟩ := h.tables.found hn htype hfound
    have hmember := (h.source.member n m hn hm).2 htype
    obtain ⟨key', value, hc⟩ := h.source.fields m (hn.tail hm) hmember
    refine ⟨value, .member m rest htype hfound ?_⟩
    rw [Store.memberValue, Store.memberField, if_pos hmember, hc]
    rfl
  | element j htype hindex hchild hno =>
    rw [h.type n hlt] at htype
    rcases h.getElem_children h.source hn hchild with hkept | ⟨rfl, rfl, -⟩
    · exact ⟨next, .element j htype hindex hkept.1
        (h.source.noError next (hn.tail (List.mem_of_getElem? hkept.1)))⟩
    · exact ⟨old, .element j htype hindex h.slot (h.source.noError old h.old_inTree)⟩

theorem old_above (h : Swapped s s' document p i old copy) (hn : s.heap.InTree document n)
    (hin : s.heap.InTree n old) (hne : n ≠ old) : ¬ s.heap.InTree old n := by
  intro hbelow
  rcases hin.cases_head with rfl | ⟨c, hc, hold⟩
  · exact hne rfl
  · exact h.source.not_self hn hc (hold.trans hbelow)

theorem target_old (h : Swapped s s' document p i old copy) (hn : s.heap.InTree document n)
    (hnot : ¬ s.heap.InTree old n) (htarget : target s n keys = some old) :
    target s' n keys = some copy := by
  induction keys generalizing n with
  | nil =>
    cases htarget
    exact absurd .refl hnot
  | cons key keys ih =>
    obtain ⟨next, hleads, htarget⟩ := target_cons htarget
    have hnext := h.tables.leads hn hleads
    rw [target_leads (h.leads hn hnot hleads)]
    split
    · next heq =>
      subst heq
      rw [h.tables.target_self h.source hnext htarget]
      rfl
    · next hne =>
      exact ih hnext (h.old_above hnext (h.tables.target_inTree hnext htarget) hne) htarget

theorem target_kept (h : Swapped s s' document p i old copy) (hn : s.heap.InTree document n)
    (hnot : ¬ s.heap.InTree old m) (htarget : target s n keys = some m) :
    target s' n keys = some m := by
  induction keys generalizing n with
  | nil =>
    cases htarget
    rfl
  | cons key keys ih =>
    have hin := h.tables.target_inTree hn htarget
    obtain ⟨next, hleads, htarget⟩ := target_cons htarget
    have hnext := h.tables.leads hn hleads
    have hne : next ≠ old := by
      rintro rfl
      exact hnot (h.tables.target_inTree hnext htarget)
    have hleads' := h.leads hn (fun hold => hnot (hold.trans hin)) hleads
    rw [if_neg hne] at hleads'
    rw [target_leads hleads']
    exact ih hnext htarget

theorem target_beside (h : Swapped s s' document p i old copy) (hn : s.heap.InTree document n)
    (hbelow : ¬ s.heap.InTree n old) (habove : ¬ s.heap.InTree old n) (keys : List Location) :
    target s' n keys = target s n keys := by
  induction keys generalizing n with
  | nil => rfl
  | cons key keys ih =>
    by_cases hleads : ∃ next, Leads s n key next
    · obtain ⟨next, hleads⟩ := hleads
      have hin := h.tables.target_inTree hn (target_leads hleads [])
      have hbelow' : ¬ s.heap.InTree next old := fun hold => hbelow (hin.trans hold)
      have hne : next ≠ old := by
        rintro rfl
        exact hbelow' .refl
      have hleads' := h.leads hn habove hleads
      rw [if_neg hne] at hleads'
      rw [target_leads hleads, target_leads hleads']
      apply ih (h.tables.leads hn hleads) hbelow'
      intro hold
      exact (h.source.above_total hn h.old_inTree hin hold).elim hbelow habove
    · rw [not_exists] at hleads
      rw [target_stuck hleads, target_stuck]
      intro next hleads'
      obtain ⟨next', hleads'⟩ := h.leads_back hn habove hleads'
      exact hleads next' hleads'

theorem represents_beside (h : Swapped s s' document p i old copy) (hn : s.heap.InTree document n)
    (hbelow : ¬ s.heap.InTree n old) : s'.heap.Represents n t ↔ s.heap.Represents n t := by
  have hkept : ∀ t, s.heap.Represents n t → s'.heap.Represents n t := by
    intro t ht
    apply ht.alike (I := s.heap.InTree n) h.length .refl (fun _ _ hp hc => hp.tail hc)
    intro m hlt hm
    have hne : m ≠ p := by
      rintro rfl
      exact hbelow (hm.tail (List.mem_of_getElem? h.slot))
    refine ⟨h.type m hlt, h.location m hlt, ?_⟩
    rw [h.children m hlt, if_neg hne]
  constructor
  · intro ht'
    obtain ⟨u, hu⟩ := h.source.tree
    obtain ⟨t', ht, -⟩ := hu.inTree hn
    rw [ht'.unique (hkept t' ht)]
    exact ht
  · exact hkept t

end Swapped

/-- The keys are one at a node: one text, or what is read as one index of an array. -/
def SameKey (s : Store) (n : Node) (key key' : Location) : Prop :=
  key.view = key'.view ∨ (s.heap.get n).type = .jsonArray ∧
    elementIndex key.view.toList = elementIndex key'.view.toList

/-- At some node on the way of the first keys the next keys are not one. -/
def Parts (s : Store) (n : Node) : List Location → List Location → Prop
  | key :: keys, key' :: keys' =>
    SameKey s n key key' → ∀ next, Leads s n key next → Parts s next keys keys'
  | _, _ => False

theorem Leads.same (h : Leads s n key next) (hsame : SameKey s n key key') : Leads s n key' next := by
  rcases hsame with hview | ⟨harray, hindex⟩
  · exact h.view hview.symm
  · cases h with
    | member m rest htype hfound hvalue =>
      exact absurd (harray.symm.trans htype) (by decide)
    | element j htype hindex' hchild hno =>
      exact .element j htype (hindex.symm.trans hindex') hchild hno

theorem Tabled.leads_ne {s : Store} (h : Tabled s document) (hdoc : IsDocument s.heap document)
    (hn : s.heap.InTree document n) (hsame : ¬ SameKey s n key key') (hleads : Leads s n key next)
    (hleads' : Leads s n key' next') : next ≠ next' := by
  rintro rfl
  apply hsame
  cases hleads with
  | member m rest htype hfound hvalue =>
    cases hleads' with
    | member m' rest' _ hfound' hvalue' =>
      obtain ⟨hm, hkey⟩ := h.found hn htype hfound
      obtain ⟨hm', hkey'⟩ := h.found hn htype hfound'
      have hparent := hdoc.parent m next (hn.tail hm) (mem_of_memberValue hvalue)
      rw [hdoc.parent m' next (hn.tail hm') (mem_of_memberValue hvalue')] at hparent
      rw [Option.some.inj hparent] at hkey'
      exact .inl (hkey.symm.trans hkey')
    | element j htype' hindex hchild hno => exact absurd (htype.symm.trans htype') (by decide)
  | element j htype hindex hchild hno =>
    cases hleads' with
    | member m' rest' htype' hfound' hvalue' => exact absurd (htype.symm.trans htype') (by decide)
    | element j' _ hindex' hchild' _ =>
      obtain ⟨hj, hget⟩ := List.getElem?_eq_some_iff.1 hchild
      obtain ⟨hj', hget'⟩ := List.getElem?_eq_some_iff.1 hchild'
      have heq := (hdoc.nodup n hn).getElem_inj_iff.1 (hget.trans hget'.symm)
      exact .inr ⟨htype, hindex.trans (heq ▸ hindex'.symm)⟩

/-- Keys that do not lead apart run through what the first keys lead to, or end above it. -/
theorem not_parts {s : Store} (hold : target s n keys = some old) (hm : target s n keys' = some m)
    (hparts : ¬ Parts s n keys keys') :
    (∃ before rest, keys' = before ++ rest ∧ target s n before = some old ∧
      target s old rest = some m) ∨ ∃ rest, rest ≠ [] ∧ target s m rest = some old := by
  induction keys generalizing n keys' with
  | nil =>
    cases hold
    exact .inl ⟨[], keys', rfl, rfl, hm⟩
  | cons key keys ih =>
    cases keys' with
    | nil =>
      cases hm
      exact .inr ⟨key :: keys, List.cons_ne_nil _ _, hold⟩
    | cons key' keys' =>
      rw [Parts, Classical.not_imp, not_forall] at hparts
      obtain ⟨hsame, next, hparts⟩ := hparts
      rw [Classical.not_imp] at hparts
      obtain ⟨hleads, hparts⟩ := hparts
      have hleads' := hleads.same hsame
      rw [target_leads hleads] at hold
      rw [target_leads hleads'] at hm
      rcases ih hold hm hparts with ⟨before, rest, rfl, hbefore, hrest⟩ | habove
      · exact .inl ⟨key' :: before, rest, rfl, (target_leads hleads' before).trans hbefore, hrest⟩
      · exact .inr habove

theorem elementIndex_numeral (h : elementIndex text = some i) :
    ∃ v, text = Nat.toDigits 10 v ∧ i = v % 2 ^ 64 := by
  unfold elementIndex at h
  split at h
  · cases h
  split at h
  · cases h
  next front rest _ =>
  split at h
  · cases h
  next hfront =>
  rw [not_or] at hfront
  split at h
  · next hloop =>
    have hdigits : ∀ c ∈ front :: rest, c.isDigit = true := by
      apply Classical.byContradiction
      intro hno
      obtain ⟨index, hfalse⟩ := indexLoop_not_digit hno 0
      rw [hfalse] at hloop
      cases hloop
    have hnumeral : IsNumeral (front :: rest) := by
      refine ⟨List.cons_ne_nil _ _, hdigits, fun hzero => ?_⟩
      apply Nat.le_of_not_lt
      intro hlen
      exact hfront.2 ⟨Option.some.inj hzero, hlen⟩
    have hvalue := indexLoop_digits hdigits 0
    rw [Nat.zero_mod] at hvalue
    rw [hvalue] at h
    exact ⟨_, hnumeral.toDigits.symm, (Option.some.inj h).symm⟩
  · cases h

/-- Keys none of which is the numeral of a number that 64 bits do not hold. -/
def Small (keys : List Location) : Prop :=
  ∀ key ∈ keys, ∀ v, key.view.toList = Nat.toDigits 10 v → v < 2 ^ 64

theorem parts_of_small {s : Store} (hold : target s n keys = some old) (hsmall : Small keys)
    (hsmall' : Small keys')
    (hbegins : ¬ keys.map Location.view <+: keys'.map Location.view)
    (hbegins' : ¬ keys'.map Location.view <+: keys.map Location.view) : Parts s n keys keys' := by
  induction keys generalizing n keys' with
  | nil => exact hbegins List.nil_prefix
  | cons key keys ih =>
    cases keys' with
    | nil => exact hbegins' List.nil_prefix
    | cons key' keys' =>
      obtain ⟨next, hleads, hold⟩ := target_cons hold
      intro hsame next' hleads'
      obtain rfl := hleads.unique hleads'
      have hview : key.view = key'.view := by
        rcases hsame with hview | ⟨harray, hindex⟩
        · exact hview
        · cases hleads with
          | member m rest htype hfound hvalue =>
            exact absurd (harray.symm.trans htype) (by decide)
          | element i htype hi hchild hno =>
            obtain ⟨v, hv, hmod⟩ := elementIndex_numeral hi
            obtain ⟨v', hv', hmod'⟩ := elementIndex_numeral (hindex.symm.trans hi)
            rw [Nat.mod_eq_of_lt (hsmall key (.head _) v hv)] at hmod
            rw [Nat.mod_eq_of_lt (hsmall' key' (.head _) v' hv')] at hmod'
            apply String.toList_inj.1
            rw [hv, hv', ← hmod, ← hmod']
      apply ih hold (fun k hk => hsmall k (.tail _ hk)) (fun k hk => hsmall' k (.tail _ hk))
      · intro hpre
        apply hbegins
        rw [List.map_cons, List.map_cons, hview]
        exact (List.prefix_cons_inj _).2 hpre
      · intro hpre
        apply hbegins'
        rw [List.map_cons, List.map_cons, hview]
        exact (List.prefix_cons_inj _).2 hpre

namespace Swapped
variable {s s' : Store} {document p old copy : Node} {i : Nat}

/-- Keys that lead apart from those to the value lead to the same value as before. -/
theorem parts_kept (h : Swapped s s' document p i old copy) (hn : s.heap.InTree document n)
    (hnot : ¬ s.heap.InTree old n) (hold : target s n keys = some old)
    (hparts : Parts s n keys keys') : target s' n keys' = target s n keys' ∧
      ∀ m, target s n keys' = some m → ¬ s.heap.InTree m old := by
  induction keys generalizing n keys' with
  | nil => exact hparts.elim
  | cons key keys ih =>
    cases keys' with
    | nil => exact hparts.elim
    | cons key' keys' =>
      obtain ⟨next, hleads, hold⟩ := target_cons hold
      have hnext := h.tables.leads hn hleads
      have hin := h.tables.target_inTree hnext hold
      by_cases hsame : SameKey s n key key'
      · have hparts := hparts hsame next hleads
        have hne : next ≠ old := by
          rintro rfl
          rw [h.tables.target_self h.source hnext hold] at hparts
          exact hparts
        have hleads' := h.leads hn hnot (hleads.same hsame)
        rw [if_neg hne] at hleads'
        rw [target_leads hleads', target_leads (hleads.same hsame)]
        exact ih hnext (h.old_above hnext hin hne) hold hparts
      · by_cases hother : ∃ next', Leads s n key' next'
        · obtain ⟨next', hother⟩ := hother
          have hnext' := h.tables.leads hn hother
          have hne := h.tables.leads_ne h.source hn hsame hleads hother
          have hbeside := h.tables.leads_beside h.source hn hleads hother hne
          have hbeside' := h.tables.leads_beside h.source hn hother hleads hne.symm
          have hbelow : ¬ s.heap.InTree next' old := fun hold' =>
            (h.source.above_total hnext hnext' hin hold').elim hbeside' hbeside
          have habove : ¬ s.heap.InTree old next' := fun hold' => hbeside' (hin.trans hold')
          have hne' : next' ≠ old := by
            rintro rfl
            exact hbelow .refl
          have hleads' := h.leads hn hnot hother
          rw [if_neg hne'] at hleads'
          rw [target_leads hleads', target_leads hother]
          refine ⟨h.target_beside hnext' hbelow habove keys', fun m hm hmold => ?_⟩
          exact hbelow ((h.tables.target_inTree hnext' hm).trans hmold)
        · rw [not_exists] at hother
          rw [target_stuck hother, target_stuck]
          · exact ⟨rfl, fun m hm => by cases hm⟩
          · intro next' hleads'
            obtain ⟨next', hleads'⟩ := h.leads_back hn hnot hleads'
            exact hother next' hleads'

end Swapped

end Trieste.Json
