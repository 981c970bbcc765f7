import Mathlib.Data.List.Sort
import Trieste.Json.Same
import Trieste.Json.SortedWriting

namespace Trieste.Json
set_option autoImplicit true
open Relation

section Lists
variable {α : Type} {std : StdLib α} {equal : Node → Node → Option Bool}

theorem elementsEqual_spec {pairs : List (Node × Node)}
    (h : ∀ p ∈ pairs, (equal p.1 p.2).isSome) :
    ∃ r, elementsEqual equal pairs = some r ∧
      (r = true ↔ ∀ p ∈ pairs, equal p.1 p.2 = some true) := by
  induction pairs with
  | nil => exact ⟨true, rfl, iff_of_true rfl nofun⟩
  | cons p pairs ih =>
    rw [List.forall_mem_cons] at h
    obtain ⟨r, hr, hiff⟩ := ih h.2
    obtain ⟨b, hb⟩ := Option.isSome_iff_exists.1 h.1
    cases b with
    | true =>
      refine ⟨r, ?_, hiff.trans ?_⟩
      · rw [elementsEqual, hb]
        exact hr
      · rw [List.forall_mem_cons, and_iff_right hb]
    | false =>
      refine ⟨false, ?_, iff_of_false Bool.false_ne_true fun hall => ?_⟩
      · rw [elementsEqual, hb]
        rfl
      · rw [hall p List.mem_cons_self] at hb
        cases hb

theorem membersEqual_spec {pairs : List ((String × Node) × (String × Node))}
    (h : ∀ p ∈ pairs, (equal p.1.2 p.2.2).isSome) :
    ∃ r, membersEqual equal pairs = some r ∧
      (r = true ↔ ∀ p ∈ pairs, p.1.1 = p.2.1 ∧ equal p.1.2 p.2.2 = some true) := by
  induction pairs with
  | nil => exact ⟨true, rfl, iff_of_true rfl nofun⟩
  | cons p pairs ih =>
    rw [List.forall_mem_cons] at h
    obtain ⟨r, hr, hiff⟩ := ih h.2
    obtain ⟨b, hb⟩ := Option.isSome_iff_exists.1 h.1
    by_cases hkey : p.1.1 = p.2.1
    · cases b with
      | true =>
        refine ⟨r, ?_, hiff.trans ?_⟩
        · rw [membersEqual, if_neg (not_not.2 hkey), hb]
          exact hr
        · rw [List.forall_mem_cons, and_iff_right ⟨hkey, hb⟩]
      | false =>
        refine ⟨false, ?_, iff_of_false Bool.false_ne_true fun hall => ?_⟩
        · rw [membersEqual, if_neg (not_not.2 hkey), hb]
          rfl
        · rw [(hall p List.mem_cons_self).2] at hb
          cases hb
    · refine ⟨false, ?_, iff_of_false Bool.false_ne_true fun hall => ?_⟩
      · rw [membersEqual, if_pos hkey]
        rfl
      · exact hkey (hall p List.mem_cons_self).1

theorem exists_under {members : List (String × Node)} :
    (∃ n, (key, n) ∈ members) ↔ key ∈ members.map Prod.fst := by
  rw [List.mem_map]
  constructor
  · intro h
    obtain ⟨n, hn⟩ := h
    exact ⟨(key, n), hn, rfl⟩
  · intro h
    obtain ⟨p, hp, rfl⟩ := h
    exact ⟨p.2, hp⟩

theorem sorted_zip_iff {xs ys : List (String × Node)} (hx : (xs.map Prod.fst).Nodup)
    (hy : (ys.map Prod.fst).Nodup) (hlen : xs.length = ys.length) :
    (∀ p ∈ (sortByKey std xs).zip (sortByKey std ys), p.1.1 = p.2.1 ∧ equal p.1.2 p.2.2 = some true) ↔
      (∀ key, (∃ n, (key, n) ∈ xs) ↔ ∃ n, (key, n) ∈ ys) ∧
      ∀ key n n', (key, n) ∈ xs → (key, n') ∈ ys → equal n n' = some true := by
  have hxs : (sortByKey std xs).Perm xs := std.sort.sortBy_perm _ _
  have hys : (sortByKey std ys).Perm ys := std.sort.sortBy_perm _ _
  have hlength : (sortByKey std xs).length = (sortByKey std ys).length := by
    rw [hxs.length_eq, hys.length_eq, hlen]
  have hnodup : ((sortByKey std xs).map Prod.fst).Nodup := (hxs.map _).nodup_iff.2 hx
  constructor
  · intro h
    have hpair : ∀ (i : Nat) p p', (sortByKey std xs)[i]? = some p → (sortByKey std ys)[i]? = some p' →
        p.1 = p'.1 ∧ equal p.2 p'.2 = some true := by
      intro i p p' hp hp'
      exact h (p, p') (List.mem_of_getElem? (List.getElem?_zip_eq_some.2 ⟨hp, hp'⟩))
    have hkeys : (sortByKey std xs).map Prod.fst = (sortByKey std ys).map Prod.fst := by
      apply List.ext_getElem (by rw [List.length_map, List.length_map, hlength])
      intro i hi hi'
      rw [List.length_map] at hi hi'
      rw [List.getElem_map, List.getElem_map]
      exact (hpair i _ _ (List.getElem?_eq_getElem hi) (List.getElem?_eq_getElem hi')).1
    constructor
    · intro key
      rw [exists_under, exists_under, ← (hxs.map Prod.fst).mem_iff, ← (hys.map Prod.fst).mem_iff,
        hkeys]
    · intro key n n' hn hn'
      obtain ⟨i, hi⟩ := List.getElem?_of_mem (hxs.mem_iff.2 hn)
      obtain ⟨j, hj⟩ := List.getElem?_of_mem (hys.mem_iff.2 hn')
      have hkey : ((sortByKey std xs).map Prod.fst)[i]? = some key := by rw [List.getElem?_map, hi]; rfl
      have hkey' : ((sortByKey std xs).map Prod.fst)[j]? = some key := by
        rw [hkeys, List.getElem?_map, hj]
        rfl
      have hij : i = j := (List.getElem?_inj (List.getElem?_eq_some_iff.1 hkey).1 hnodup).1
        (hkey.trans hkey'.symm)
      subst hij
      exact (hpair i _ _ hi hj).2
  · intro h
    have hperm : ((sortByKey std xs).map Prod.fst).Perm ((sortByKey std ys).map Prod.fst) := by
      apply ((hxs.map _).trans _).trans (hys.map _).symm
      apply (List.perm_ext_iff_of_nodup hx hy).2
      intro key
      rw [← exists_under, ← exists_under]
      exact h.1 key
    have hkeys : (sortByKey std xs).map Prod.fst = (sortByKey std ys).map Prod.fst :=
      hperm.eq_of_pairwise' (std.sort.sortBy_sorted Prod.fst xs) (std.sort.sortBy_sorted Prod.fst ys)
    intro p hp
    obtain ⟨i, hi⟩ := List.getElem?_of_mem hp
    obtain ⟨hi, hi'⟩ := List.getElem?_zip_eq_some.1 hi
    have hkey : p.1.1 = p.2.1 := by
      have hfst := congrArg (fun keys => keys[i]?) hkeys
      simp only [List.getElem?_map, hi, hi', Option.map_some, Option.some.injEq] at hfst
      exact hfst
    refine ⟨hkey, h.2 p.1.1 _ _ (hxs.mem_iff.1 (List.mem_of_getElem? hi)) ?_⟩
    rw [hkey]
    exact hys.mem_iff.1 (List.mem_of_getElem? hi')

end Lists

section Values
variable {α : Type} {std : StdLib α} {heap : Heap}

theorem keysAndValues_spec (h : heap.RepresentsAll ns members)
    (hm : ∀ m ∈ members, ∃ l key value, m = .member l key value) :
    ∃ xs, keysAndValues heap ns = some xs ∧ xs.map Prod.fst = members.map Tree.keyText ∧
      (∀ key n, (key, n) ∈ xs → ∃ v, Entry members key v ∧ heap.Represents n v) ∧
      ∀ key v, Entry members key v → ∃ n, (key, n) ∈ xs ∧ heap.Represents n v := by
  induction members generalizing ns with
  | nil =>
    rw [h.nil]
    refine ⟨[], rfl, rfl, nofun, fun key v hentry => ?_⟩
    obtain ⟨l, k, hmem, -⟩ := hentry
    cases hmem
  | cons m members ih =>
    rw [List.forall_mem_cons] at hm
    obtain ⟨l, k, value, rfl⟩ := hm.1
    obtain ⟨n, ns, rfl, hn, hns⟩ := h.split
    obtain ⟨xs, hxs, hkeys, hin, hout⟩ := ih hns hm.2
    rw [Tree.member, Heap.Represents] at hn
    obtain ⟨-, -, -, hfields⟩ := hn
    obtain ⟨kn, rest, hc, hkn, hrest⟩ := hfields.split
    obtain ⟨vn, rest, rfl, hvn, hnil⟩ := hrest.split
    cases hnil.nil
    rw [Heap.Represents] at hkn
    refine ⟨(k.view, vn) :: xs, ?_, ?_, ?_, ?_⟩
    · rw [keysAndValues] at hxs ⊢
      rw [List.mapM_cons, hxs, hc]
      exact congrArg (fun location : Location => some ((location.view, vn) :: xs)) hkn.2.2.1
    · rw [List.map_cons, List.map_cons, hkeys]
      rfl
    · intro key node hmem
      rcases List.mem_cons.1 hmem with heq | hmem
      · cases heq
        exact ⟨value, ⟨l, k, List.mem_cons_self, rfl⟩, hvn⟩
      · obtain ⟨v, hentry, hv⟩ := hin key node hmem
        obtain ⟨l', k', hmem', hkey⟩ := hentry
        exact ⟨v, ⟨l', k', List.mem_cons_of_mem _ hmem', hkey⟩, hv⟩
    · intro key v hentry
      obtain ⟨l', k', hmem, hkey⟩ := hentry
      rcases List.mem_cons.1 hmem with heq | hmem
      · cases heq
        exact ⟨vn, by rw [← hkey]; exact List.mem_cons_self, hvn⟩
      · obtain ⟨node, hnode, hv⟩ := hout key v ⟨l', k', hmem, hkey⟩
        exact ⟨node, List.mem_cons_of_mem _ hnode, hv⟩

theorem atom_other : ∀ type ∈ [Token.jsonString, .jsonTrue, .jsonFalse, .jsonNull],
    type ≠ .jsonObject ∧ ¬ (type = .jsonArray ∨ type = .top) ∧ type ≠ .jsonNumber := by
  decide

theorem under_iff {xs : List (String × Node)}
    (hin : ∀ key n, (key, n) ∈ xs → ∃ v, Entry members key v ∧ heap.Represents n v)
    (hout : ∀ key v, Entry members key v → ∃ n, (key, n) ∈ xs ∧ heap.Represents n v)
    (key : String) : (∃ v, Entry members key v) ↔ ∃ n, (key, n) ∈ xs := by
  constructor
  · intro h
    obtain ⟨v, hv⟩ := h
    obtain ⟨n, hn, -⟩ := hout key v hv
    exact ⟨n, hn⟩
  · intro h
    obtain ⟨n, hn⟩ := h
    obtain ⟨v, hv, -⟩ := hin key n hn
    exact ⟨v, hv⟩

theorem list_type : ∀ type ∈ [Token.jsonArray, .top],
    type ≠ .jsonObject ∧ (type = .jsonArray ∨ type = .top) := by
  decide

/-- The node stands for a value with distinct keys and numbers in range. -/
def Compared (stod : String → Option α) (h : Heap) (n : Node) : Prop :=
  ∃ t, h.Represents n t ∧ Comparable stod t

theorem keyText_represents (h : heap.Represents n t) : t.keyText = Store.keyText heap n := by
  cases t with
  | node type l ts =>
    rw [Heap.Represents] at h
    obtain ⟨-, -, -, hall⟩ := h
    rw [Store.keyText]
    cases ts with
    | nil =>
      rw [hall.nil]
      rfl
    | cons key ts =>
      obtain ⟨k, ns, hc, hk, -⟩ := hall.split
      rw [hc]
      cases key with
      | node type' l' ts' =>
        rw [Heap.Represents] at hk
        exact congrArg Location.view hk.2.2.1.symm

theorem map_keyText (h : heap.RepresentsAll ns ts) :
    ts.map Tree.keyText = ns.map (Store.keyText heap) := by
  induction ts generalizing ns with
  | nil =>
    rw [h.nil]
    rfl
  | cons t ts ih =>
    obtain ⟨n, ns, rfl, hn, hns⟩ := h.split
    rw [List.map_cons, List.map_cons, keyText_represents hn, ih hns]

theorem member_represents (hm : (heap.get m).type = .jsonMember)
    (hc : (heap.get m).children = [key, value]) (hkey : (heap.get key).type = .jsonKey)
    (hempty : (heap.get key).children = []) (h : heap.Represents m t) :
    ∃ l k v, t = .member l k v ∧ heap.Represents value v := by
  cases t with
  | node type l ts =>
    rw [Heap.Represents, hm, hc] at h
    obtain ⟨-, rfl, rfl, hall⟩ := h
    cases ts with
    | nil => cases hall.nil
    | cons t ts =>
      rw [Heap.RepresentsAll] at hall
      cases ts with
      | nil => cases hall.2.nil
      | cons v ts =>
        rw [Heap.RepresentsAll] at hall
        obtain ⟨hk, hv, hrest⟩ := hall
        cases ts with
        | cons t ts => simp [Heap.RepresentsAll] at hrest
        | nil =>
          cases t with
          | node type' l' ts' =>
            rw [Heap.Represents, hkey, hempty] at hk
            obtain ⟨-, rfl, rfl, hnone⟩ := hk
            cases ts' with
            | cons t ts => simp [Heap.RepresentsAll] at hnone
            | nil => exact ⟨_, _, v, rfl, hv⟩

theorem IsJson.member_tree (hjson : IsJson heap document) (hin : heap.InTree document m)
    (hm : (heap.get m).type = .jsonMember) (h : heap.Represents m t) :
    ∃ l key v value, t = .member l key v ∧ heap.HasChild m value ∧ heap.Represents value v ∧
      (heap.get value).type ∈ valueTokens := by
  obtain ⟨key, value, hc⟩ := hjson.fields m hin hm
  obtain ⟨hkey, hvalue⟩ := hjson.pairs m key value hin hm hc
  have hchild : heap.HasChild m key := by simp [Heap.HasChild, hc]
  have hempty := hjson.leaves key (hin.tail hchild) (by rw [hkey]; decide)
  obtain ⟨l, k, v, rfl, hv⟩ := member_represents hm hc hkey hempty h
  exact ⟨l, k, v, value, rfl, by simp [Heap.HasChild, hc], hv, hvalue⟩

theorem IsJson.comparable (hjson : IsJson heap document) (hdistinct : DistinctKeys heap document)
    (hnumbers : ∀ n, heap.InTree document n → (heap.get n).type = .jsonNumber →
      (std.stod (viewOf heap n)).isSome)
    (hin : heap.InTree document n) (hn : (heap.get n).type ∈ .top :: valueTokens)
    (htop : (heap.get n).type = .top → n = document) (h : heap.Represents n t)
    (hdepth : t.depth ≤ depth) : Comparable std.stod t := by
  induction depth generalizing n t with
  | zero =>
    cases t with
    | node type location trees =>
      rw [Tree.depth] at hdepth
      exact absurd hdepth (Nat.not_succ_le_zero _)
  | succ depth ih =>
    have hvalue : ∀ c v, heap.InTree document c → (heap.get c).type ∈ valueTokens →
        heap.Represents c v → v.depth ≤ depth → Comparable std.stod v := by
      intro c v hc htype hv hle
      apply ih hc (List.mem_cons_of_mem _ htype) _ hv hle
      intro heq
      rw [heq] at htype
      exact absurd htype (by decide)
    cases t with
    | node type l ts =>
      have hbelow : ∀ t ∈ ts, t.depth ≤ depth := fun t => Heap.depth_child_le hdepth
      rw [Heap.Represents] at h
      obtain ⟨-, htype, hlocation, hall⟩ := h
      rw [htype] at hn htop
      by_cases hobject : type = .jsonObject
      · have hmembers : ∀ m ∈ ts, ∃ l key v value, m = .member l key v ∧
            heap.InTree document value ∧ heap.Represents value v ∧
            (heap.get value).type ∈ valueTokens := by
          intro m hm
          obtain ⟨c, hc, hrep⟩ := hall.exists_mem hm
          have hmember := (hjson.member n c hin hc).2 (htype.trans hobject)
          obtain ⟨l, key, v, value, rfl, hchild, hv, hvtype⟩ :=
            hjson.member_tree (hin.tail hc) hmember hrep
          exact ⟨l, key, v, value, rfl, (hin.tail hc).tail hchild, hv, hvtype⟩
        apply Comparable.object hobject
        · intro m hm
          obtain ⟨l, key, v, -, rfl, -⟩ := hmembers m hm
          exact ⟨l, key, v, rfl⟩
        · intro key v hentry
          obtain ⟨l, k, hm, -⟩ := hentry
          obtain ⟨l', key', v', value, heq, hvalue_in, hrep, hvtype⟩ := hmembers _ hm
          cases heq
          have hle := hbelow _ hm
          rw [Tree.member, Tree.depth, Tree.depthAll, Tree.depthAll] at hle
          exact hvalue value v hvalue_in hvtype hrep (by omega)
        · rw [map_keyText hall]
          exact hdistinct n hin (htype.trans hobject)
      have hlist : type ∈ [.jsonArray, .top] → Comparable std.stod (.node type l ts) := by
        intro hlist
        apply Comparable.list hlist
        intro v hv
        obtain ⟨c, hc, hrep⟩ := hall.exists_mem hv
        have hctype : (heap.get c).type ∈ valueTokens := by
          rcases (list_type _ hlist).2 with harray | hroot
          · exact hjson.elements n c hin (htype.trans harray) hc
          · rw [htop hroot] at hc
            exact hjson.values c hc
        exact hvalue c v (hin.tail hc) hctype hrep (hbelow v hv)
      simp only [valueTokens, List.mem_cons, List.not_mem_nil, or_false] at hn
      rcases hn with hroot | hobject' | harray | hstring | hnumber | htrue | hfalse | hnull
      · exact hlist (by simp [hroot])
      · exact absurd hobject' hobject
      · exact hlist (by simp [harray])
      · exact .atom (by simp [hstring])
      · apply Comparable.number hnumber
        rw [← hlocation]
        exact hnumbers n hin (htype.trans hnumber)
      · exact .atom (by simp [htrue])
      · exact .atom (by simp [hfalse])
      · exact .atom (by simp [hnull])

/-- A document of the reader, with distinct keys and numbers in range. -/
theorem IsJson.compared (hjson : IsJson heap document) (hdistinct : DistinctKeys heap document)
    (hnumbers : ∀ n, heap.InTree document n → (heap.get n).type = .jsonNumber →
      (std.stod (viewOf heap n)).isSome) : Compared std.stod heap document := by
  obtain ⟨t, ht⟩ := hjson.tree
  have htop := hjson.top
  exact ⟨t, ht, hjson.comparable hdistinct hnumbers .refl (by simp [htop]) (fun _ => rfl) ht
    (le_refl _)⟩

variable [BEq α]

theorem Same.type_eq (h : Same std.stod (.node type l ts) (.node type' l' ts')) : type = type' := by
  cases h <;> rfl

theorem object_spec {equal : Node → Node → Option Bool} (hns : heap.RepresentsAll ns members)
    (hns' : heap.RepresentsAll ns' members') (ht : Comparable std.stod (.node .jsonObject l members))
    (ht' : Comparable std.stod (.node .jsonObject l' members'))
    (ih : ∀ key key' v v' m m', Entry members key v → Entry members' key' v' →
      heap.Represents m v → heap.Represents m' v' →
        ∃ r, equal m m' = some r ∧ (r = true ↔ Same std.stod v v')) :
    ∃ r, (if ns.length ≠ ns'.length then some false else do
      let xs ← keysAndValues heap ns
      let ys ← keysAndValues heap ns'
      membersEqual equal ((sortByKey std xs).zip (sortByKey std ys))) = some r ∧
      (r = true ↔ Same std.stod (.node .jsonObject l members) (.node .jsonObject l' members')) := by
  cases ht with
  | list h | number h | atom h => exact absurd h (by decide)
  | object _ hm hv hkeys =>
    cases ht' with
    | list h | number h | atom h => exact absurd h (by decide)
    | object _ hm' hv' hkeys' =>
      obtain ⟨xs, hxs, hxkeys, hxin, hxout⟩ := keysAndValues_spec hns hm
      obtain ⟨ys, hys, hykeys, hyin, hyout⟩ := keysAndValues_spec hns' hm'
      have hxnodup : (xs.map Prod.fst).Nodup := by rwa [hxkeys]
      have hynodup : (ys.map Prod.fst).Nodup := by rwa [hykeys]
      have hunder : (∀ key, (∃ v, Entry members key v) ↔ ∃ v, Entry members' key v) ↔
          ∀ key, (∃ n, (key, n) ∈ xs) ↔ ∃ n, (key, n) ∈ ys := by
        simp only [under_iff hxin hxout, under_iff hyin hyout]
      have hxlen : xs.length = ns.length := by
        rw [hns.length_eq, ← List.length_map Prod.fst, hxkeys, List.length_map]
      have hylen : ys.length = ns'.length := by
        rw [hns'.length_eq, ← List.length_map Prod.fst, hykeys, List.length_map]
      by_cases hlen : ns.length = ns'.length
      · rw [if_neg (not_not.2 hlen), hxs, hys]
        have hsome : ∀ p ∈ (sortByKey std xs).zip (sortByKey std ys), (equal p.1.2 p.2.2).isSome := by
          intro p hp
          obtain ⟨hx, hy⟩ := List.of_mem_zip (a := p.1) (b := p.2) hp
          obtain ⟨v, hentry, hn⟩ := hxin _ _ ((std.sort.sortBy_perm _ _).mem_iff.1 hx)
          obtain ⟨v', hentry', hn'⟩ := hyin _ _ ((std.sort.sortBy_perm _ _).mem_iff.1 hy)
          obtain ⟨r, hr, -⟩ := ih _ _ v v' _ _ hentry hentry' hn hn'
          rw [hr]
          rfl
        obtain ⟨r, hr, hiff⟩ := membersEqual_spec hsome
        refine ⟨r, hr, ?_⟩
        rw [hiff, sorted_zip_iff hxnodup hynodup (by rw [hxlen, hylen, hlen]), ← hunder]
        constructor
        · intro h
          apply Same.object rfl h.1
          intro key v v' hentry hentry'
          obtain ⟨n, hn, hv₁⟩ := hxout key v hentry
          obtain ⟨n', hn', hv₂⟩ := hyout key v' hentry'
          obtain ⟨r, hr, hiff⟩ := ih key key v v' n n' hentry hentry' hv₁ hv₂
          have htrue := h.2 key n n' hn hn'
          rw [hr] at htrue
          exact hiff.1 (Option.some.inj htrue)
        · intro h
          cases h with
          | list h | number h | atom h => exact absurd h (by decide)
          | object _ hkeys hsame =>
            refine ⟨hkeys, fun key n n' hn hn' => ?_⟩
            obtain ⟨v, hentry, hv₁⟩ := hxin key n hn
            obtain ⟨v', hentry', hv₂⟩ := hyin key n' hn'
            obtain ⟨r, hr, hiff⟩ := ih key key v v' n n' hentry hentry' hv₁ hv₂
            rw [hr, hiff.2 (hsame key v v' hentry hentry')]
      · refine ⟨false, if_pos hlen, iff_of_false Bool.false_ne_true fun h => hlen ?_⟩
        cases h with
        | list h | number h | atom h => exact absurd h (by decide)
        | object _ hkeys =>
          have hperm : (xs.map Prod.fst).Perm (ys.map Prod.fst) := by
            apply (List.perm_ext_iff_of_nodup hxnodup hynodup).2
            intro key
            rw [← exists_under, ← exists_under]
            exact hunder.1 hkeys key
          have hlength := hperm.length_eq
          rwa [List.length_map, List.length_map, hxlen, hylen] at hlength

theorem list_spec {equal : Node → Node → Option Bool} (hns : heap.RepresentsAll ns ts)
    (hns' : heap.RepresentsAll ns' ts') (htype : type ∈ [.jsonArray, .top])
    (ih : ∀ t ∈ ts, ∀ t' ∈ ts', ∀ m m', heap.Represents m t → heap.Represents m' t' →
      ∃ r, equal m m' = some r ∧ (r = true ↔ Same std.stod t t')) :
    ∃ r, (if ns.length ≠ ns'.length then some false
      else elementsEqual equal (ns.zip ns')) = some r ∧
      (r = true ↔ Same std.stod (.node type l ts) (.node type l' ts')) := by
  have hlength := hns.length_eq
  have hlength' := hns'.length_eq
  by_cases hlen : ns.length = ns'.length
  · rw [if_neg (not_not.2 hlen)]
    have hlen' : ts.length = ts'.length := by rw [← hlength, ← hlength', hlen]
    have hpair : ∀ p ∈ ns.zip ns', ∃ (i : Nat) (t t' : Tree), ts[i]? = some t ∧ ts'[i]? = some t' ∧
        heap.Represents p.1 t ∧ heap.Represents p.2 t' := by
      intro p hp
      obtain ⟨i, hi⟩ := List.getElem?_of_mem hp
      obtain ⟨hi, hi'⟩ := List.getElem?_zip_eq_some.1 hi
      have hlt : i < ts.length := hlength ▸ (List.getElem?_eq_some_iff.1 hi).1
      have hlt' : i < ts'.length := hlen' ▸ hlt
      obtain ⟨n, hn, ht⟩ := hns.exists_getElem (List.getElem?_eq_getElem hlt)
      obtain ⟨n', hn', ht'⟩ := hns'.exists_getElem (List.getElem?_eq_getElem hlt')
      rw [hi] at hn
      rw [hi'] at hn'
      cases hn
      cases hn'
      exact ⟨i, _, _, List.getElem?_eq_getElem hlt, List.getElem?_eq_getElem hlt', ht, ht'⟩
    have hsome : ∀ p ∈ ns.zip ns', (equal p.1 p.2).isSome := by
      intro p hp
      obtain ⟨i, t, t', ht, ht', hn, hn'⟩ := hpair p hp
      obtain ⟨r, hr, -⟩ := ih t (List.mem_of_getElem? ht) t' (List.mem_of_getElem? ht') _ _ hn hn'
      rw [hr]
      rfl
    obtain ⟨r, hr, hiff⟩ := elementsEqual_spec hsome
    refine ⟨r, hr, hiff.trans ⟨fun h => ?_, fun h p hp => ?_⟩⟩
    · apply Same.list htype hlen'
      intro i t t' ht ht'
      obtain ⟨n, hi, hn⟩ := hns.exists_getElem ht
      obtain ⟨n', hi', hn'⟩ := hns'.exists_getElem ht'
      obtain ⟨r, hr, hiff⟩ :=
        ih t (List.mem_of_getElem? ht) t' (List.mem_of_getElem? ht') n n' hn hn'
      have htrue := h (n, n') (List.mem_of_getElem? (List.getElem?_zip_eq_some.2 ⟨hi, hi'⟩))
      rw [hr] at htrue
      exact hiff.1 (Option.some.inj htrue)
    · obtain ⟨i, t, t', ht, ht', hn, hn'⟩ := hpair p hp
      obtain ⟨r, hr, hiff⟩ :=
        ih t (List.mem_of_getElem? ht) t' (List.mem_of_getElem? ht') _ _ hn hn'
      cases h with
      | object h | number h => 
        subst h
        exact absurd htype (by decide)
      | list _ _ hv => rw [hr, hiff.2 (hv i t t' ht ht')]
      | atom h => exact absurd h (list_not_atom _ htype)
  · refine ⟨false, if_pos hlen, iff_of_false Bool.false_ne_true fun h => hlen ?_⟩
    cases h with
    | object h | number h =>
      subst h
      exact absurd htype (by decide)
    | list _ hlen' => rw [hlength, hlength', hlen']
    | atom h => exact absurd h (list_not_atom _ htype)

theorem valueEqual_spec (hl : heap.Represents n t) (hr : heap.Represents n' t')
    (ht : Comparable std.stod t) (ht' : Comparable std.stod t') (hdepth : t.depth ≤ fuel) :
    ∃ r, valueEqual std heap fuel n n' = some r ∧ (r = true ↔ Same std.stod t t') := by
  induction fuel generalizing n n' t t' with
  | zero =>
    cases t with
    | node type location trees =>
      rw [Tree.depth] at hdepth
      exact absurd hdepth (Nat.not_succ_le_zero _)
  | succ fuel ih =>
    cases t with
    | node type l ts =>
      cases t' with
      | node type' l' ts' =>
        rw [Heap.Represents] at hl hr
        obtain ⟨-, htype, hlocation, hchildren⟩ := hl
        obtain ⟨-, htype', hlocation', hchildren'⟩ := hr
        rw [valueEqual, htype, htype']
        by_cases hne : type = type'
        · subst hne
          rw [if_neg (not_not.2 rfl)]
          cases ht with
          | object hobject hm hv hkeys =>
            subst hobject
            cases ht' with
            | object _ hm' hv' hkeys' =>
              have hdepths : ∀ key v, Entry ts key v → v.depth ≤ fuel := by
                intro key v hentry
                obtain ⟨l, k, hmem, -⟩ := hentry
                exact depth_value_le hdepth hmem
              rw [if_pos rfl]
              exact object_spec hchildren hchildren' (.object rfl hm hv hkeys)
                (.object rfl hm' hv' hkeys') fun key key' v v' m m' hentry hentry' hm hm' =>
                  ih hm hm' (hv key v hentry) (hv' key' v' hentry') (hdepths key v hentry)
            | list h | number h | atom h => exact absurd h (by decide)
          | list hlist hv =>
            have hlist' := list_type _ hlist
            cases ht' with
            | list _ hv' =>
              rw [if_neg hlist'.1, if_pos hlist'.2]
              apply list_spec hchildren hchildren' hlist
              intro t hmem t' hmem' m m' hm hm'
              exact ih hm hm' (hv t hmem) (hv' t' hmem') (Heap.depth_child_le hdepth hmem)
            | object h => exact absurd h hlist'.1
            | number h =>
              subst h
              exact absurd hlist (by decide)
            | atom h => exact absurd h (list_not_atom _ hlist)
          | number hnumber hx =>
            subst hnumber
            cases ht' with
            | number _ hy =>
              obtain ⟨x, hx⟩ := Option.isSome_iff_exists.1 hx
              obtain ⟨y, hy⟩ := Option.isSome_iff_exists.1 hy
              rw [if_neg (by decide), if_neg (by decide), if_pos rfl, viewOf, viewOf, hlocation,
                hlocation', hx, hy]
              refine ⟨x == y, rfl, fun h => .number rfl hx hy h, fun h => ?_⟩
              cases h with
              | number _ hx' hy' h =>
                cases hx.symm.trans hx'
                cases hy.symm.trans hy'
                exact h
              | object h | list h | atom h => exact absurd h (by decide)
            | object h | list h | atom h => exact absurd h (by decide)
          | atom hatom =>
            have hother : type ≠ .jsonObject ∧ ¬ (type = .jsonArray ∨ type = .top) ∧
                type ≠ .jsonNumber := atom_other _ hatom
            rw [if_neg hother.1, if_neg hother.2.1, if_neg hother.2.2, viewOf, viewOf, hlocation,
              hlocation']
            refine ⟨_, rfl, fun h => .atom hatom (eq_of_beq h), fun h => ?_⟩
            cases h with
            | atom _ h => exact beq_iff_eq.2 h
            | object h => exact absurd h hother.1
            | number h => exact absurd h hother.2.2
            | list h => exact absurd hatom (list_not_atom _ h)
        · exact ⟨false, if_pos hne, iff_of_false Bool.false_ne_true fun h => hne h.type_eq⟩

theorem equal_spec (hl : heap.Represents n t) (hr : heap.Represents n' t')
    (ht : Comparable std.stod t) (ht' : Comparable std.stod t') :
    ∃ r, equal std heap n n' = some r ∧ (r = true ↔ Same std.stod t t') :=
  valueEqual_spec hl hr ht ht' (Nat.le_succ_of_le hl.depth_le)

theorem equal_iff (hl : heap.Represents n t) (hr : heap.Represents n' t')
    (ht : Comparable std.stod t) (ht' : Comparable std.stod t') :
    equal std heap n n' = some true ↔ Same std.stod t t' := by
  obtain ⟨r, hr, hiff⟩ := equal_spec hl hr ht ht'
  rw [hr, Option.some.injEq, hiff]

theorem equal_congr (hl : heap.Represents n t) (hr : heap.Represents n' t')
    (hl' : heap.Represents m u) (hr' : heap.Represents m' u') (ht : Comparable std.stod t)
    (ht' : Comparable std.stod t') (hu : Comparable std.stod u) (hu' : Comparable std.stod u')
    (h : Same std.stod t t' ↔ Same std.stod u u') : equal std heap n n' = equal std heap m m' := by
  obtain ⟨r, hr, hiff⟩ := equal_spec hl hr ht ht'
  obtain ⟨r', hr', hiff'⟩ := equal_spec hl' hr' hu hu'
  rw [hr, hr', Option.some.injEq, Bool.eq_iff_iff, hiff, hiff', h]

theorem permuted_same [EquivBEq α] (h : ReflTransGen (Inside Permuted) t t')
    (ht : Comparable std.stod t) : Comparable std.stod t' ∧ Same std.stod t t' := by
  induction h with
  | refl => exact ⟨ht, .refl ht⟩
  | tail _ hstep ih =>
    obtain ⟨hmid, hsame⟩ := ih
    obtain ⟨ht', hsame'⟩ := hstep.same (fun _ _ hp hc => hp.same hc) hmid
    exact ⟨ht', hsame.trans hsame'⟩

/-- Equality is an equivalence, which sees neither the order of members nor the exchange of a part
for an equal one. -/
theorem equal_equivalence [EquivBEq α] (std : StdLib α) (h : Heap) :
    (∀ document, IsJson h document → DistinctKeys h document →
      (∀ n, h.InTree document n → (h.get n).type = .jsonNumber →
        (std.stod (viewOf h n)).isSome) → Compared std.stod h document) ∧
    (∀ a, Compared std.stod h a → equal std h a a = some true) ∧
    (∀ a b, Compared std.stod h a → Compared std.stod h b →
      ∃ r, equal std h a b = some r ∧ equal std h b a = some r) ∧
    (∀ a b c, Compared std.stod h a → Compared std.stod h b → Compared std.stod h c →
      equal std h a b = some true → equal std h b c = some true →
        equal std h a c = some true) ∧
    (∀ a a' b t t', h.Represents a t → h.Represents a' t' → Comparable std.stod t →
      Compared std.stod h b → ReflTransGen (Inside Permuted) t t' →
        equal std h a' b = equal std h a b ∧ equal std h b a' = equal std h b a) ∧
    ∀ a a' b v c t t' part new, h.Represents a t → h.Represents a' t' → h.Represents v part →
      h.Represents c new → Comparable std.stod t → Comparable std.stod new → Compared std.stod h b →
        Inside (fun u u' => u = part ∧ u' = new) t t' →
          equal std h a b = some true → equal std h v c = some true →
            equal std h a' b = some true := by
  refine ⟨fun document hjson => hjson.compared, ?_, ?_, ?_, ?_, ?_⟩
  · intro a ha
    obtain ⟨t, ht, hc⟩ := ha
    exact (equal_iff ht ht hc hc).2 (.refl hc)
  · intro a b ha hb
    obtain ⟨t, ht, hc⟩ := ha
    obtain ⟨u, hu, hc'⟩ := hb
    obtain ⟨r, hr, -⟩ := equal_spec ht hu hc hc'
    refine ⟨r, hr, ?_⟩
    rw [← hr]
    exact equal_congr hu ht ht hu hc' hc hc hc' ⟨.symm, .symm⟩
  · intro a b c ha hb hc hab hbc
    obtain ⟨t, ht, hct⟩ := ha
    obtain ⟨u, hu, hcu⟩ := hb
    obtain ⟨v, hv, hcv⟩ := hc
    rw [equal_iff ht hu hct hcu] at hab
    rw [equal_iff hu hv hcu hcv] at hbc
    rw [equal_iff ht hv hct hcv]
    exact hab.trans hbc
  · intro a a' b t t' ha ha' ht hb hpermuted
    obtain ⟨u, hu, hcu⟩ := hb
    obtain ⟨ht', hsame⟩ := permuted_same hpermuted ht
    exact ⟨equal_congr ha' hu ha hu ht' hcu ht hcu ⟨hsame.trans, hsame.symm.trans⟩,
      equal_congr hu ha' hu ha hcu ht' hcu ht
        ⟨fun h => h.trans hsame.symm, fun h => h.trans hsame⟩⟩
  · intro a a' b v c t t' part new ha ha' hv hc ht hnew hb hinside hab hvc
    obtain ⟨u, hu, hcu⟩ := hb
    obtain ⟨part, new, ⟨rfl, rfl⟩, hpart⟩ := hinside.part ht
    rw [equal_iff hv hc hpart hnew] at hvc
    rw [equal_iff ha hu ht hcu] at hab
    have hchange : ∀ x x', x = part ∧ x' = new → Comparable std.stod x →
        Comparable std.stod x' ∧ Same std.stod x x' := by
      intro x x' hx _
      obtain ⟨rfl, rfl⟩ := hx
      exact ⟨hnew, hvc⟩
    obtain ⟨ht', hsame⟩ := hinside.same hchange ht
    rw [equal_iff ha' hu ht' hcu]
    exact hsame.symm.trans hab

end Values

/-- The objects `{"a":1,"b":2}` and `{"b":2,"a":1}`. -/
def swapped : Heap where
  nodes := [
    { type := .jsonObject, children := [1, 4] },
    { type := .jsonMember, parent := some 0, children := [2, 3] },
    { type := .jsonKey, location := .ofString "a", parent := some 1 },
    { type := .jsonNumber, location := .ofString "1", parent := some 1 },
    { type := .jsonMember, parent := some 0, children := [5, 6] },
    { type := .jsonKey, location := .ofString "b", parent := some 4 },
    { type := .jsonNumber, location := .ofString "2", parent := some 4 },
    { type := .jsonObject, children := [8, 11] },
    { type := .jsonMember, parent := some 7, children := [9, 10] },
    { type := .jsonKey, location := .ofString "b", parent := some 8 },
    { type := .jsonNumber, location := .ofString "2", parent := some 8 },
    { type := .jsonMember, parent := some 7, children := [12, 13] },
    { type := .jsonKey, location := .ofString "a", parent := some 11 },
    { type := .jsonNumber, location := .ofString "1", parent := some 11 }]

def numberMember (key number : String) : Tree :=
  .member {} (.ofString key) (.node .jsonNumber (.ofString number) [])

def ofDigit (number : String) : Option Nat :=
  match number.toList with
  | [c] => if c.isDigit then some (c.toNat - '0'.toNat) else none
  | _ => none

theorem equal_swapped : equal (.stable ofDigit) swapped 7 0 = some true := by
  let t : Tree := .node .jsonObject {} [numberMember "a" "1", numberMember "b" "2"]
  let t' : Tree := .node .jsonObject {} [numberMember "b" "2", numberMember "a" "1"]
  have ht : swapped.Represents 0 t := by
    simp [Heap.Represents, Heap.RepresentsAll, swapped, Heap.get, t, numberMember, Tree.member]
  have ht' : swapped.Represents 7 t' := by
    simp [Heap.Represents, Heap.RepresentsAll, swapped, Heap.get, t', numberMember, Tree.member]
  have hc : Comparable ofDigit t := by
    apply Comparable.object rfl
    · intro m hm
      simp only [List.mem_cons, List.not_mem_nil, or_false] at hm
      rcases hm with rfl | rfl
      · exact ⟨_, _, _, rfl⟩
      · exact ⟨_, _, _, rfl⟩
    · intro key v hentry
      obtain ⟨l, k, hm, -⟩ := hentry
      simp only [List.mem_cons, List.not_mem_nil, or_false] at hm
      rcases hm with heq | heq
      · cases heq
        exact .number rfl (by decide)
      · cases heq
        exact .number rfl (by decide)
    · decide
  have hpermuted : ReflTransGen (Inside Permuted) t t' :=
    .single (.here (.members rfl (List.Perm.swap _ _ _)))
  obtain ⟨-, hrefl, -, -, hpermute, -⟩ := equal_equivalence (.stable ofDigit) swapped
  rw [(hpermute 0 7 0 t t' ht ht' hc ⟨t, ht, hc⟩ hpermuted).1]
  exact hrefl 0 ⟨t, ht, hc⟩

end Trieste.Json
