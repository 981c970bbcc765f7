import Trieste.Json.Replacement

namespace Trieste.Json
set_option autoImplicit true
open Library Relation Heap

section Operation
variable [BEq α] {std : StdLib α} {op : Operation} {s : Store} {document old v : Node}

theorem walk_target (htarget : target s current keys = some n) (key : Location) :
    op.walk std s current (keys ++ [key]) = op.act std s n key := by
  induction keys generalizing current with
  | nil =>
    cases htarget
    rfl
  | cons key' keys ih =>
    obtain ⟨next, hleads, htarget⟩ := target_cons htarget
    have hne : keys ++ [key] ≠ [] := List.append_ne_nil_of_right_ne_nil _ (List.cons_ne_nil _ _)
    obtain ⟨key₂, keys₂, hkeys⟩ := List.exists_cons_of_ne_nil hne
    rw [← ih htarget, List.cons_append, hkeys, Operation.walk, follow_ok_iff.2 ⟨rfl, hleads⟩]
    · rfl
    · exact List.cons_ne_nil _ _

theorem act_read_leads (haction : op.action = .read) (hleads : Leads s n key m) :
    op.act std s n key = some (s, m) := by
  unfold Operation.act
  cases hleads with
  | member member rest htype hfound hvalue =>
    rw [if_pos htype, Operation.objectAction, hfound, haction]
    exact Option.bind_eq_some_iff.2 ⟨m, hvalue, rfl⟩
  | element i htype hindex hchild hno =>
    have hobject : (s.heap.get n).type ≠ .jsonObject := by
      rw [htype]
      decide
    have herror : s.isError m = false := decide_eq_false hno
    rw [if_neg hobject, if_pos htype, Operation.arrayAction, arrayLookup_of_index hindex hchild]
    simp only [Option.bind_eq_bind, Option.bind_some, haction, herror]
    rw [if_neg fun hc => absurd hc.1 (by decide), if_neg Bool.false_ne_true, Operation.elementAction,
      haction]
    rfl

/-- A read of what the pointer selects returns it, and leaves the nodes and tables alone. -/
theorem run_read_selects (haction : op.action = .read) (h : Selects s document op.path n) :
    op.run std s document = some (s, n) := by
  obtain ⟨keys, hkeys, htarget⟩ := h
  unfold Operation.run
  rw [hkeys]
  rcases List.eq_nil_or_concat keys with rfl | ⟨keys, key, rfl⟩
  · cases htarget
    rw [Operation.rootAction, haction]
  · rw [List.concat_eq_append] at htarget ⊢
    obtain ⟨m, hm, htarget⟩ := target_split htarget
    obtain ⟨next, hleads, htarget⟩ := target_cons htarget
    cases htarget
    split
    · next hnone => cases hnone
    · next hnil => exact absurd (Option.some.inj hnil) (by simp)
    · next heq =>
      rw [← Option.some.inj heq, walk_target hm]
      exact act_read_leads haction hleads

theorem act_replace_leads (haction : op.action = .replace) (hopvalue : op.value = some v)
    (hdoc : IsDocument s.heap document) (htabled : Tabled s document)
    (hn : s.heap.InTree document n) (hleads : Leads s n key old) (hv : IsDocument s.heap v)
    (hrep : s.heap.Represents v t) :
    ∃ heap p i copy, op.act std s n key = some ({ s with heap }, old) ∧
      Exchanged s.heap heap p i old copy ∧ heap.Represents copy t ∧ s.heap.InTree document p ∧
      ((s.heap.get p).type = .jsonMember ∧ i = 1 ∨ (s.heap.get p).type = .jsonArray) := by
  unfold Operation.act
  cases hleads with
  | member m rest htype hfound hvalue =>
    obtain ⟨hm, -⟩ := htabled.found hn htype hfound
    have hm := hn.tail hm
    have hmember : (s.heap.get m).type = .jsonMember :=
      (hdoc.member n m hn (htabled.found hn htype hfound).1).2 htype
    have hslot : (s.heap.get m).children[1]? = some old := by
      rwa [Store.memberValue, Store.memberField, if_pos hmember] at hvalue
    obtain ⟨heap₁, heap₂, hclone, hframe, hreplace, hexchanged, hcopy⟩ :=
      exchanged_of_clone hdoc hm hslot hv hrep
    refine ⟨heap₂, m, 1, _, ?_, hexchanged, hcopy, hm, .inl ⟨hmember, rfl⟩⟩
    have hold := hdoc.lt (hm.tail (List.mem_of_getElem? hslot))
    have hvalue₁ : Store.memberValue heap₁ m = some old := by
      rw [Store.memberValue, Store.memberField, hframe.kept m (hdoc.lt hm), if_pos hmember, hslot]
    have hparent : (heap₁.get old).parent = some m := by
      rw [hframe.kept old hold]
      exact hdoc.parent m old hm (List.mem_of_getElem? hslot)
    have hslot₁ : (heap₁.get m).children[1]? = some old := by
      rw [hframe.kept m (hdoc.lt hm), hslot]
    rw [if_pos htype, Operation.objectAction, hfound]
    simp only [Option.bind_eq_bind, hvalue, Option.bind_some, haction, hopvalue, Operation.assignCopy,
      Store.clone, hclone, Option.map_some, Store.assignValue, hvalue₁, hparent, Store.replaceAt,
      hslot₁, Store.replace, hreplace]
    rfl
  | element i htype hindex hchild hno =>
    have hobject : (s.heap.get n).type ≠ .jsonObject := by
      rw [htype]
      decide
    have herror : s.isError old = false := decide_eq_false hno
    obtain ⟨heap₁, heap₂, hclone, hframe, hreplace, hexchanged, hcopy⟩ :=
      exchanged_of_clone hdoc hn hchild hv hrep
    refine ⟨heap₂, n, i, _, ?_, hexchanged, hcopy, hn, .inr htype⟩
    have hslot₁ : (heap₁.get n).children[i]? = some old := by
      rw [hframe.kept n (hdoc.lt hn), hchild]
    rw [if_neg hobject, if_pos htype, Operation.arrayAction, arrayLookup_of_index hindex hchild]
    simp only [Option.bind_eq_bind, Option.bind_some, haction, herror]
    rw [if_neg fun hc => absurd hc.1 (by decide), if_neg Bool.false_ne_true, Operation.elementAction,
      haction]
    simp only [Option.bind_eq_bind, hopvalue, Option.bind_some, Store.clone, hclone, Option.map_some,
      Store.replaceAt, hslot₁, Store.replace, hreplace]
    rfl

end Operation

namespace Patch

def Op.replacing (node : Node) (path : Location) (value : Node) : Op :=
  { node, type := .replace, path, value := some value }

def Aside (path path' : Location) : Prop :=
  ∃ keys keys', pointer path = some keys ∧ pointer path' = some keys' ∧
    ¬ keys.map Location.view <+: keys'.map Location.view ∧
    ¬ keys'.map Location.view <+: keys.map Location.view

def LeadApart (s : Store) (document : Node) (path path' : Location) : Prop :=
  ∃ keys keys', pointer path = some keys ∧ pointer path' = some keys' ∧ Parts s document keys keys'

section Laws
variable [BEq α] (std : StdLib α)

/-- Selecting the path yields a node that stands for the tree. -/
def Yields (s : Store) (document : Node) (path : Location) (t : Tree) : Prop :=
  ∃ s' n, { path, action := .read : Operation }.run std s document = some (s', n) ∧
    s'.isError n = false ∧ s'.heap.Represents n t

/-- After the path has been replaced by any value, it yields that value. -/
def PutGet (node : Node) (s : Store) (document : Node) (path : Location) : Prop :=
  ∀ v t, IsDocument s.heap v → s.heap.Represents v t → ∃ s' document',
    applyOps std s document [.replacing node path v] = some (s', document') ∧
      Yields std s' document' path t

/-- After the path has been replaced by any value, another path yields what it did. -/
def Kept (node : Node) (s : Store) (document : Node) (path path' : Location) : Prop :=
  ∀ v s' document', IsDocument s.heap v →
    applyOps std s document [.replacing node path v] = some (s', document') →
      ∀ t, Yields std s document path' t ↔ Yields std s' document' path' t

end Laws

section Laws
variable [BEq α] {std : StdLib α} {s : Store} {document old : Node}

theorem yields_iff (hdoc : IsDocument s.heap document) (htabled : Tabled s document) :
    Yields std s document path t ↔ ∃ n, Selects s document path n ∧ s.heap.Represents n t := by
  constructor
  · intro h
    obtain ⟨s', n, hrun, herror, ht⟩ := h
    have hselects := (Op.run_read (by rfl) hrun).resolve_left (by rw [herror]; decide)
    have hrun' : { path, action := .read : Operation }.run std s document = some (s, n) :=
      run_read_selects (by rfl) hselects
    rw [hrun] at hrun'
    rw [(Prod.mk.inj (Option.some.inj hrun')).1] at ht
    exact ⟨n, hselects, ht⟩
  · intro h
    obtain ⟨n, hselects, ht⟩ := h
    refine ⟨s, n, run_read_selects (by rfl) hselects, ?_, ht⟩
    obtain ⟨keys, hkeys, htarget⟩ := hselects
    exact decide_eq_false (hdoc.noError n (htabled.target_inTree .refl htarget))

theorem selects_iff (hkeys : pointer path = some keys) :
    Selects s document path n ↔ target s document keys = some n := by
  constructor
  · intro h
    obtain ⟨keys', hkeys', htarget⟩ := h
    rw [hkeys] at hkeys'
    rwa [Option.some.inj hkeys']
  · intro htarget
    exact ⟨keys, hkeys, htarget⟩

theorem pointer_length (hkeys : pointer path = some keys) : path.len = 0 ↔ keys = [] := by
  unfold pointer at hkeys
  cases hlen : path.len with
  | zero =>
    rw [hlen, pointerKeys] at hkeys
    simp [(Option.some.inj hkeys).symm]
  | succ len =>
    rw [hlen, pointerKeys, if_pos (by rw [hlen]; exact Nat.succ_pos len)] at hkeys
    obtain ⟨x, -, hkeys⟩ := Option.bind_eq_some_iff.1 hkeys
    obtain ⟨rest, -, rfl⟩ := Option.map_eq_some_iff.1 hkeys
    simp

theorem applyOps_replacing {heap : Heap}
    (happly : (Op.replacing node path v).replace std s document = some ({ s with heap }, patched))
    (hdoc : IsDocument heap patched) :
    ∃ s', applyOps std s document [.replacing node path v] = some (s', patched) ∧
      s'.heap = heap ∧ Tabled s' patched := by
  have hstore : IsDocument (Store.mk heap s.symbols).heap patched := hdoc
  obtain ⟨s', hbuild, htables⟩ := hstore.buildSt
  have herror : Store.isError { s with heap } patched = false :=
    decide_eq_false (hdoc.noError patched .refl)
  have hdoc' : IsDocument s'.heap patched := by
    rw [htables.heap]
    exact hdoc
  refine ⟨s', ?_, htables.heap, hdoc'.tabled hbuild⟩
  have happly' : (Op.replacing node path v).apply std s document = some ({ s with heap }, patched) :=
    happly
  rw [applyOps, happly']
  simp only [Option.bind_eq_bind, Option.bind_some, herror, hbuild, Bool.false_eq_true, if_false,
    applyOps]

theorem replaced_root (hkeys : pointer path = some []) (hv : IsDocument s.heap v)
    (hrep : s.heap.Represents v t) (std : StdLib α) (node document : Node) :
    ∃ s' document', applyOps std s document [.replacing node path v] = some (s', document') ∧
      IsDocument s'.heap document' ∧ Tabled s' document' ∧ s'.heap.Represents document' t := by
  obtain ⟨heap, hclone, -, -, hdoc, hcopy⟩ := hv.clone hrep
  have happly : (Op.replacing node path v).replace std s document =
      some ({ s with heap }, s.heap.nodes.length) := by
    have hlen : (Op.replacing node path v).path.len = 0 := (pointer_length hkeys).2 rfl
    rw [Op.replace, if_pos hlen, Op.replacing]
    simp only [Option.bind_some, Store.clone, hclone, Option.map_some]
  obtain ⟨s', hrun, hheap, htabled⟩ := applyOps_replacing happly hdoc
  rw [← hheap] at hdoc hcopy
  exact ⟨s', _, hrun, hdoc, htabled, hcopy⟩

theorem replaced_inner (hdoc : IsDocument s.heap document) (htabled : Tabled s document)
    (hkeys : pointer path = some keys) (hne : keys ≠ []) (hold : target s document keys = some old)
    (hv : IsDocument s.heap v) (hrep : s.heap.Represents v t) (std : StdLib α)
    (node : Node) :
    ∃ s' p i copy, applyOps std s document [.replacing node path v] = some (s', document) ∧
      Swapped s s' document p i old copy ∧ s'.heap.Represents copy t := by
  let operation : Operation := { path, action := .replace, value := some v }
  obtain ⟨heap, p, i, copy, hrun, hexchanged, hcopy, hp, hholder⟩ :
      ∃ heap p i copy, operation.run std s document = some ({ s with heap }, old) ∧
        Exchanged s.heap heap p i old copy ∧ heap.Represents copy t ∧ s.heap.InTree document p ∧
        ((s.heap.get p).type = .jsonMember ∧ i = 1 ∨ (s.heap.get p).type = .jsonArray) := by
    unfold Operation.run
    rw [hkeys]
    rcases List.eq_nil_or_concat keys with rfl | ⟨keys, key, rfl⟩
    · exact absurd rfl hne
    rw [List.concat_eq_append] at hold ⊢
    obtain ⟨n, hn, hold⟩ := target_split hold
    obtain ⟨next, hleads, hold⟩ := target_cons hold
    cases hold
    split
    · next hnone => cases hnone
    · next hnil => exact absurd (Option.some.inj hnil) (by simp)
    · next heq =>
      rw [← Option.some.inj heq, walk_target hn]
      exact act_replace_leads rfl rfl hdoc htabled (htabled.target_inTree .refl hn) hleads hv hrep
  have htype : (s.heap.get p).type ≠ .jsonObject := by
    rcases hholder with hmember | harray
    · rw [hmember.1]
      decide
    · rw [harray]
      decide
  have holdin := hp.tail (List.mem_of_getElem? hexchanged.slot)
  have herror : Store.isError { s with heap } old = false := by
    apply decide_eq_false
    rw [hexchanged.type old (hdoc.lt holdin)]
    exact hdoc.noError old holdin
  have happly : (Op.replacing node path v).replace std s document =
      some ({ s with heap }, document) := by
    have hlen : (Op.replacing node path v).path.len ≠ 0 := fun hlen =>
      hne ((pointer_length hkeys).1 hlen)
    have hrunOn : Op.runOn std s document operation = some ({ s with heap }, document) := by
      rw [Op.runOn, hrun]
      simp only [Option.bind_eq_bind, Option.bind_some, herror]
      rfl
    rw [Op.replace, if_neg hlen]
    exact hrunOn
  obtain ⟨s', happlied, hheap, htabled'⟩ :=
    applyOps_replacing happly (hexchanged.isDocument hdoc hp htype)
  refine ⟨s', p, i, copy, happlied, ?_, by rwa [hheap]⟩
  rw [← hheap] at hexchanged
  exact ⟨hexchanged, hdoc, htabled, hp, hholder, htabled'⟩

theorem putGet (hdoc : IsDocument s.heap document) (htabled : Tabled s document)
    (hp : Selects s document path old) (std : StdLib α) (node : Node) :
    PutGet std node s document path := by
  intro v t hv hrep
  obtain ⟨keys, hkeys, hold⟩ := hp
  by_cases hne : keys = []
  · subst hne
    obtain ⟨s', document', hrun, hdoc', htabled', ht⟩ := replaced_root hkeys hv hrep std node document
    have hselects : Selects s' document' path document' := ⟨[], hkeys, rfl⟩
    exact ⟨s', document', hrun, (yields_iff hdoc' htabled').2 ⟨document', hselects, ht⟩⟩
  · obtain ⟨s', p, i, copy, hrun, hswapped, ht⟩ :=
      replaced_inner hdoc htabled hkeys hne hold hv hrep std node
    have hselects : Selects s' document path copy :=
      ⟨keys, hkeys, hswapped.target_old .refl hswapped.root hold⟩
    exact ⟨s', document, hrun, (yields_iff hswapped.result hswapped.tables').2 ⟨copy, hselects, ht⟩⟩

theorem kept_of_leadApart (hdoc : IsDocument s.heap document) (htabled : Tabled s document)
    (hp : Selects s document path old) (hapart : LeadApart s document path path')
    (std : StdLib α) (node : Node) : Kept std node s document path path' := by
  intro v s' document' hv hrun t
  obtain ⟨keys, keys', hkeys, hkeys', hparts⟩ := hapart
  obtain ⟨keys₁, hkeys₁, hold⟩ := hp
  rw [hkeys] at hkeys₁
  obtain rfl := Option.some.inj hkeys₁
  have hne : keys ≠ [] := by
    rintro rfl
    exact hparts
  obtain ⟨tv, hrep⟩ := hv.tree
  obtain ⟨s'', p, i, copy, hrun', hswapped, -⟩ :=
    replaced_inner hdoc htabled hkeys hne hold hv hrep std node
  rw [hrun] at hrun'
  cases hrun'
  obtain ⟨htarget, hbeside⟩ := hswapped.parts_kept .refl hswapped.root hold hparts
  rw [yields_iff hdoc htabled, yields_iff hswapped.result hswapped.tables']
  have hselects : ∀ n, Selects s' document path' n ↔ Selects s document path' n := by
    intro n
    rw [selects_iff hkeys', selects_iff hkeys', htarget]
  have hvalue : ∀ n, Selects s document path' n →
      (s'.heap.Represents n t ↔ s.heap.Represents n t) := by
    intro n hn
    have hn := (selects_iff hkeys').1 hn
    exact hswapped.represents_beside (htabled.target_inTree .refl hn) (hbeside n hn)
  constructor
  · intro h
    obtain ⟨n, hn, ht⟩ := h
    exact ⟨n, (hselects n).2 hn, (hvalue n hn).2 ht⟩
  · intro h
    obtain ⟨n, hn, ht⟩ := h
    have hn := (hselects n).1 hn
    exact ⟨n, hn, (hvalue n hn).1 ht⟩

theorem leadApart_of_kept (hdoc : IsDocument s.heap document) (htabled : Tabled s document)
    (hp : Selects s document path old) (haside : Aside path path')
    (hm : Selects s document path' m) (hkept : Kept std node s document path path') :
    LeadApart s document path path' := by
  obtain ⟨keys, keys', hkeys, hkeys', hbegins, -⟩ := haside
  have hold := (selects_iff hkeys).1 hp
  have hne : keys ≠ [] := by
    rintro rfl
    exact hbegins List.nil_prefix
  have hm' := (selects_iff hkeys').1 hm
  have hin := htabled.target_inTree .refl hm'
  obtain ⟨td, htd⟩ := hdoc.tree
  obtain ⟨tm, htm, hle⟩ := htd.inTree hin
  -- what is yielded after a replacement by some value
  have hafter : ∀ v t, IsDocument s.heap v → s.heap.Represents v t → ∃ s' p i copy m',
      Swapped s s' document p i old copy ∧ s'.heap.Represents copy t ∧
        target s' document keys' = some m' ∧ s'.heap.Represents m' tm := by
    intro v t hv hrep
    obtain ⟨s', p, i, copy, hrun, hswapped, hcopy⟩ :=
      replaced_inner hdoc htabled hkeys hne hold hv hrep std node
    have hyields : Yields std s document path' tm := (yields_iff hdoc htabled).2 ⟨m, hm, htm⟩
    obtain ⟨m', hselects, htm'⟩ := (yields_iff hswapped.result hswapped.tables').1
      ((hkept v s' document hv hrun tm).1 hyields)
    exact ⟨s', p, i, copy, m', hswapped, hcopy, (selects_iff hkeys').1 hselects, htm'⟩
  refine ⟨keys, keys', hkeys, hkeys', ?_⟩
  by_contra hparts
  rcases not_parts hold hm' hparts with ⟨before, rest, rfl, hbefore, hrest⟩ | ⟨rest, hrest, habove⟩
  · by_cases hnil : rest = []
    · -- both lead to the value, which is less deep than the document
      subst hnil
      cases hrest
      obtain ⟨s', p, i, copy, m', hswapped, hcopy, htarget, htm'⟩ := hafter document td hdoc htd
      rw [List.append_nil, hswapped.target_old .refl hswapped.root hbefore] at htarget
      cases htarget
      obtain ⟨c, hc, hbelow⟩ := htabled.target_below .refl hold hne
      have hlt := htd.depth_lt hc hbelow htm
      rw [hcopy.unique htm'] at hlt
      exact absurd hlt (Nat.lt_irrefl _)
    · -- the other one leads into the value, of which the copy would have to be a part
      have hvalue := hdoc.sub hin (htabled.target_type hdoc hm')
      obtain ⟨s', p, i, copy, m', hswapped, hcopy, htarget, htm'⟩ := hafter m tm hvalue htm
      have hcopyTarget := hswapped.target_old .refl hswapped.root hbefore
      rw [target_append hcopyTarget] at htarget
      obtain ⟨c, hc, hbelow⟩ := hswapped.tables'.target_below
        (hswapped.tables'.target_inTree .refl hcopyTarget) htarget hnil
      exact absurd (hcopy.depth_lt hc hbelow htm') (Nat.lt_irrefl _)
  · -- the other one stops above the value, and the whole document would have to be a part of it
    obtain ⟨s', p, i, copy, m', hswapped, hcopy, htarget, htm'⟩ := hafter document td hdoc htd
    obtain ⟨c, hc, hbelow⟩ := htabled.target_below hin habove hrest
    have hnot : ¬ s.heap.InTree old m := fun hback => hdoc.not_self hin hc (hbelow.trans hback)
    rw [hswapped.target_kept .refl hnot hm'] at htarget
    cases htarget
    obtain ⟨c', hc', hbelow'⟩ := hswapped.tables'.target_below
      (hswapped.tables'.target_inTree .refl (hswapped.target_kept .refl hnot hm'))
      (hswapped.target_old hin hnot habove) hrest
    exact absurd (htm'.depth_lt hc' hbelow' hcopy) (Nat.not_lt.2 hle)

/-- After `replace` the path selects the new value. Another path selects what it did where the two lead
apart, and they do unless a key is the numeral of a number that 64 bits do not hold. -/
theorem replace_laws {s₀ : Store} (hdoc : IsDocument s.heap document)
    (hbuilt : s₀.buildSt document = some s) (hp : Selects s document path old)
    (std : StdLib α) (node : Node) :
    PutGet std node s document path ∧ ∀ path', Aside path path' →
      ((∃ m, Selects s document path' m) →
        (Kept std node s document path path' ↔ LeadApart s document path path')) ∧
      (LeadApart s document path path' → Kept std node s document path path') ∧
      ((∀ keys, pointer path = some keys → Small keys) →
        (∀ keys, pointer path' = some keys → Small keys) → LeadApart s document path path') := by
  have htabled := hdoc.tabled hbuilt
  refine ⟨putGet hdoc htabled hp std node, fun path' haside => ⟨fun hm => ?_, fun hapart => ?_, ?_⟩⟩
  · obtain ⟨m, hm⟩ := hm
    constructor
    · intro hkept
      exact leadApart_of_kept hdoc htabled hp haside hm hkept
    · intro hapart
      exact kept_of_leadApart hdoc htabled hp hapart std node
  · exact kept_of_leadApart hdoc htabled hp hapart std node
  · intro hsmall hsmall'
    obtain ⟨keys, keys', hkeys, hkeys', hbegins, hbegins'⟩ := haside
    refine ⟨keys, keys', hkeys, hkeys', ?_⟩
    exact parts_of_small ((selects_iff hkeys).1 hp) (hsmall keys hkeys) (hsmall' keys' hkeys') hbegins
      hbegins'

end Laws

/-- The document `[null, true]`. -/
def couple : Heap where
  nodes := [
    { type := .jsonArray, children := [1, 2] },
    { type := .jsonNull, location := .ofString "null", parent := some 0 },
    { type := .jsonTrue, location := .ofString "true", parent := some 0 }]

def coupleBuilt : Store := ⟨couple, []⟩

theorem couple_isDocument : IsDocument couple 0 := by
  have hlt : ∀ n, couple.InTree 0 n → n < 3 := by
    intro n hn
    induction hn with
    | refl => decide
    | @tail p c _ hc ih =>
      have hchildren : ∀ p < 3, ∀ c ∈ (couple.get p).children, c < 3 := by decide
      exact hchildren p ih c hc
  have hparent : ∀ n < 3, ∀ c ∈ (couple.get n).children, (couple.get c).parent = some n := by decide
  have hnodup : ∀ n < 3, (couple.get n).children.Nodup := by decide
  have hmember : ∀ n < 3, ∀ c ∈ (couple.get n).children,
      ((couple.get c).type = .jsonMember ↔ (couple.get n).type = .jsonObject) := by decide
  have hfields : ∀ n < 3, (couple.get n).type ≠ .jsonMember := by decide
  have hno : ∀ n < 3, (couple.get n).type ≠ .error := by decide
  refine ⟨?_, fun n c hn => hparent n (hlt n hn) c, fun n hn => hnodup n (hlt n hn),
    fun n c hn => hmember n (hlt n hn) c, fun n hn hm => absurd hm (hfields n (hlt n hn)),
    fun n hn => hno n (hlt n hn), by decide⟩
  refine ⟨.node .jsonArray {} [.node .jsonNull (.ofString "null") [],
    .node .jsonTrue (.ofString "true") []], ?_⟩
  simp [Heap.Represents, Heap.RepresentsAll, couple, Heap.get]

theorem replace_laws_couple :
    PutGet stdInt 0 coupleBuilt 0 (.ofString "/0") ∧
      Kept stdInt 0 coupleBuilt 0 (.ofString "/0") (.ofString "/1") := by
  have hbuilt : Store.buildSt ⟨couple, []⟩ 0 = some coupleBuilt := rfl
  let key : Location := { Location.ofString "/0" with pos := 1, len := 1 }
  let key' : Location := { Location.ofString "/1" with pos := 1, len := 1 }
  have hp : Selects coupleBuilt 0 (.ofString "/0") 1 := ⟨[key], rfl, by decide +kernel⟩
  have haside : Aside (.ofString "/0") (.ofString "/1") :=
    ⟨[key], [key'], rfl, rfl, by decide, by decide⟩
  have hsame : ¬ SameKey coupleBuilt 0 key key' := by
    unfold SameKey
    decide
  have hapart : LeadApart coupleBuilt 0 (.ofString "/0") (.ofString "/1") :=
    ⟨[key], [key'], rfl, rfl, fun h => absurd h hsame⟩
  have hlaws := replace_laws couple_isDocument hbuilt hp stdInt 0
  exact ⟨hlaws.1, (hlaws.2 _ haside).2.1 hapart⟩

/-- A numeral that wraps around selects the element that another one replaces. -/
theorem replace_wrapped :
    Aside (.ofString "/0") (.ofString "/18446744073709551616") ∧
    (select stdInt coupleBuilt 0 "/18446744073709551616").map
      (fun r => (r.1.heap.get r.2).type) = some .jsonNull ∧
    ((applyOps stdInt coupleBuilt 0 [.replacing 0 (.ofString "/0") 2]).bind fun r =>
      (select stdInt r.1 r.2 "/18446744073709551616").map
        fun r => (r.1.heap.get r.2).type) = some .jsonTrue := by
  let key : Location := { Location.ofString "/0" with pos := 1, len := 1 }
  let key' : Location := { Location.ofString "/18446744073709551616" with pos := 1, len := 20 }
  refine ⟨⟨[key], [key'], rfl, by decide +kernel, by decide, by decide⟩, ?_, ?_⟩
  · decide +kernel
  · decide +kernel

end Patch

end Trieste.Json
