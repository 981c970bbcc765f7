import Trieste.Json.Equality
import Trieste.Library.ShortCircuit

namespace Trieste
set_option autoImplicit true
open Library

def Tree.back : Tree → Tree
  | .node _ _ ts => ts.getLast?.getD (.node .invalid {} [])

namespace Json

def sortMembers (std : StdLib α) (members : List Tree) : List Tree :=
  std.sort.sortBy Tree.keyText members

/-- A value, or a document of values, as the reader makes them. Keys may repeat. -/
inductive Shaped : Tree → Prop
  | object (ht : type = .jsonObject) (hm : ∀ m ∈ members, ∃ l key v, m = .member l key v)
      (hv : ∀ m ∈ members, Shaped m.back) : Shaped (.node type l members)
  | list (ht : type ∈ [.jsonArray, .top]) (hv : ∀ t ∈ ts, Shaped t) : Shaped (.node type l ts)
  | atom (ht : type ∈ [.jsonString, .jsonNumber, .jsonTrue, .jsonFalse, .jsonNull]) :
      Shaped (.node type l ts)

section Relations
variable {α : Type} [BEq α] (std : StdLib α)

/-- The values compare equal. -/
inductive Equals : Tree → Tree → Prop
  | object (ht : type = .jsonObject) (hlen : members.length = members'.length)
      (hkeys : ∀ p ∈ (sortMembers std members).zip (sortMembers std members'),
        p.1.keyText = p.2.keyText)
      (hv : ∀ p ∈ (sortMembers std members).zip (sortMembers std members'), Equals p.1.back p.2.back) :
      Equals (.node type l members) (.node type l' members')
  | list (ht : type ∈ [.jsonArray, .top]) (hlen : ts.length = ts'.length)
      (hv : ∀ p ∈ ts.zip ts', Equals p.1 p.2) : Equals (.node type l ts) (.node type l' ts')
  | number (ht : type = .jsonNumber) (hx : std.stod l.view = some x) (hy : std.stod l'.view = some y)
      (h : (x == y) = true) : Equals (.node type l ts) (.node type l' ts')
  | atom (ht : type ∈ [.jsonString, .jsonTrue, .jsonFalse, .jsonNull]) (h : l.view = l'.view) :
      Equals (.node type l ts) (.node type l' ts')

/-- The comparison of the values comes to two numbers with these texts: what is compared before
them is equal. -/
inductive Meets : Tree → Tree → String → String → Prop
  | number (ht : type = .jsonNumber) : Meets (.node type l ts) (.node type l' ts') l.view l'.view
  | element (ht : type ∈ [.jsonArray, .top]) (hlen : ts.length = ts'.length)
      (hzip : ts.zip ts' = before ++ p :: after) (hbefore : ∀ q ∈ before, Equals std q.1 q.2)
      (h : Meets p.1 p.2 x y) : Meets (.node type l ts) (.node type l' ts') x y
  | member (ht : type = .jsonObject) (hlen : members.length = members'.length)
      (hzip : (sortMembers std members).zip (sortMembers std members') = before ++ p :: after)
      (hbefore : ∀ q ∈ before, q.1.keyText = q.2.keyText ∧ Equals std q.1.back q.2.back)
      (hkey : p.1.keyText = p.2.keyText) (h : Meets p.1.back p.2.back x y) :
      Meets (.node type l members) (.node type l' members') x y

/-- `stod` accepts every number that the comparison comes to. -/
def InRange (t t' : Tree) : Prop :=
  ∀ x y, Meets std t t' x y → (std.stod x).isSome ∧ (std.stod y).isSome

end Relations

section Values
variable {α : Type} [BEq α] {std : StdLib α} {heap : Heap}

theorem forall₂_represents {P : Tree → Prop} (h : heap.RepresentsAll ns ts) (hP : ∀ t ∈ ts, P t) :
    List.Forall₂ (fun n t => heap.Represents n t ∧ P t) ns ts := by
  induction ts generalizing ns with
  | nil =>
    rw [h.nil]
    exact .nil
  | cons t ts ih =>
    obtain ⟨n, ns, rfl, hn, hns⟩ := h.split
    rw [List.forall_mem_cons] at hP
    exact .cons ⟨hn, hP.1⟩ (ih hns hP.2)

theorem keysAndValues_forall₂ {P : Tree → Prop} (h : heap.RepresentsAll ns members)
    (hm : ∀ m ∈ members, ∃ l key v, m = .member l key v) (hP : ∀ m ∈ members, P m) :
    ∃ xs, keysAndValues heap ns = some xs ∧
      List.Forall₂ (fun x m => x.1 = m.keyText ∧ heap.Represents x.2 m.back ∧ P m) xs members := by
  induction members generalizing ns with
  | nil =>
    rw [h.nil]
    exact ⟨[], rfl, .nil⟩
  | cons m members ih =>
    rw [List.forall_mem_cons] at hm hP
    obtain ⟨l, k, v, rfl⟩ := hm.1
    obtain ⟨n, ns, rfl, hn, hns⟩ := h.split
    obtain ⟨xs, hxs, hrel⟩ := ih hns hm.2 hP.2
    rw [Tree.member, Heap.Represents] at hn
    obtain ⟨-, -, -, hfields⟩ := hn
    obtain ⟨kn, rest, hc, hkn, hrest⟩ := hfields.split
    obtain ⟨vn, rest, rfl, hvn, hnil⟩ := hrest.split
    cases hnil.nil
    rw [Heap.Represents] at hkn
    refine ⟨(k.view, vn) :: xs, ?_, .cons ⟨rfl, hvn, hP.1⟩ hrel⟩
    rw [keysAndValues] at hxs ⊢
    rw [List.mapM_cons, hxs, hc]
    exact congrArg (fun location : Location => some ((location.view, vn) :: xs)) hkn.2.2.1

theorem elementsEqual_eq (equal : Node → Node → Option Bool) (pairs : List (Node × Node)) :
    elementsEqual equal pairs = pairs.allM fun p => equal p.1 p.2 := by
  induction pairs with
  | nil => rfl
  | cons p pairs ih =>
    rw [elementsEqual, allM_cons, ih]
    rfl

theorem membersEqual_eq (equal : Node → Node → Option Bool)
    (pairs : List ((String × Node) × (String × Node))) :
    membersEqual equal pairs =
      pairs.allM fun p => if p.1.1 ≠ p.2.1 then some false else equal p.1.2 p.2.2 := by
  induction pairs with
  | nil => rfl
  | cons p pairs ih =>
    rw [membersEqual, allM_cons, ih]
    by_cases hkey : p.1.1 ≠ p.2.1
    · rw [if_pos hkey, if_pos hkey]
      rfl
    · rw [if_neg hkey, if_neg hkey]
      rfl

/-- What a comparison of nodes has to do with the trees they stand for. -/
def Judges (std : StdLib α) (result : Option Bool) (t t' : Tree) : Prop :=
  (result = some true ↔ Equals std t t') ∧ (result.isSome ↔ InRange std t t')

theorem Judges.of_false (hne : ¬ Equals std t t') (hmeets : ∀ x y, ¬ Meets std t t' x y) :
    Judges std (some false) t t' := by
  refine ⟨iff_of_false (fun h => by cases h) hne, iff_of_true rfl fun x y h => ?_⟩
  exact absurd h (hmeets x y)

theorem elements_judged {equal : Node → Node → Option Bool} (ht : type ∈ [.jsonArray, .top])
    (hns : heap.RepresentsAll ns ts) (hns' : heap.RepresentsAll ns' ts')
    (hlen : ts.length = ts'.length)
    (h : ∀ t ∈ ts, ∀ t' ∈ ts', ∀ n n', heap.Represents n t → heap.Represents n' t' →
      Judges std (equal n n') t t') :
    Judges std (elementsEqual equal (ns.zip ns')) (.node type l ts) (.node type l' ts') := by
  have hpairs := forall₂_zip (forall₂_represents hns fun t ht => ht)
    (forall₂_represents hns' fun t ht => ht)
  rw [elementsEqual_eq]
  obtain ⟨hholds, hreturns⟩ := allM_spec (f := fun p => equal p.1 p.2) (hpairs.imp fun p q hpq =>
    h q.1 hpq.1.2 q.2 hpq.2.2 p.1 p.2 hpq.1.1 hpq.2.1)
  refine ⟨hholds.trans ⟨fun h => .list ht hlen h, fun h => ?_⟩, hreturns.trans ⟨?_, ?_⟩⟩
  · cases h with
    | list _ _ hv => exact hv
    | object h | number h =>
      subst h
      exact absurd ht (by decide)
    | atom h => exact absurd h (list_not_atom _ ht)
  · intro h x y hmeets
    cases hmeets with
    | element _ _ hzip hbefore hm => exact h _ _ _ hzip hbefore x y hm
    | number h | member h =>
      subst h
      exact absurd ht (by decide)
  · intro h before p after hzip hbefore x y hm
    exact h x y (.element ht hlen hzip hbefore hm)

theorem members_judged {equal : Node → Node → Option Bool} (l l' : Location)
    (hns : heap.RepresentsAll ns members) (hns' : heap.RepresentsAll ns' members')
    (hm : ∀ m ∈ members, ∃ l key v, m = .member l key v)
    (hm' : ∀ m ∈ members', ∃ l key v, m = .member l key v)
    (hlen : members.length = members'.length)
    (h : ∀ m ∈ members, ∀ m' ∈ members', ∀ n n', heap.Represents n m.back →
      heap.Represents n' m'.back → Judges std (equal n n') m.back m'.back) :
    ∃ xs xs', keysAndValues heap ns = some xs ∧ keysAndValues heap ns' = some xs' ∧
      Judges std (membersEqual equal ((sortByKey std xs).zip (sortByKey std xs')))
        (.node .jsonObject l members) (.node .jsonObject l' members') := by
  obtain ⟨xs, hxs, hrel⟩ := keysAndValues_forall₂ hns hm fun m hm => hm
  obtain ⟨xs', hxs', hrel'⟩ := keysAndValues_forall₂ hns' hm' fun m hm => hm
  refine ⟨xs, xs', hxs, hxs', ?_⟩
  have hpairs := forall₂_zip
    (std.sort.forall₂_sortBy hrel fun x m hx => hx.1)
    (std.sort.forall₂_sortBy hrel' fun x m hx => hx.1)
  rw [membersEqual_eq]
  obtain ⟨hholds, hreturns⟩ := allM_spec (P := fun q : Tree × Tree =>
      q.1.keyText = q.2.keyText ∧ Equals std q.1.back q.2.back)
    (Q := fun q => q.1.keyText = q.2.keyText → InRange std q.1.back q.2.back)
    (f := fun p : (String × Node) × (String × Node) =>
      if p.1.1 ≠ p.2.1 then some false else equal p.1.2 p.2.2) (hpairs.imp fun p q hpq => by
      obtain ⟨⟨hkey, hn, hq⟩, hkey', hn', hq'⟩ := hpq
      obtain ⟨hequals, hsome⟩ := h q.1 hq q.2 hq' p.1.2 p.2.2 hn hn'
      rw [hkey, hkey']
      by_cases heq : q.1.keyText = q.2.keyText
      · rw [if_neg (not_not.2 heq), and_iff_right heq]
        exact ⟨hequals, hsome.trans ⟨fun h _ => h, fun h => h heq⟩⟩
      · rw [if_pos heq]
        exact ⟨iff_of_false (fun h => by cases h) fun h => heq h.1,
          iff_of_true rfl fun h => absurd h heq⟩)
  refine ⟨hholds.trans ⟨fun h => ?_, fun h => ?_⟩, hreturns.trans ⟨?_, ?_⟩⟩
  · exact .object rfl hlen (fun p hp => (h p hp).1) fun p hp => (h p hp).2
  · cases h with
    | object _ _ hkeys hv => exact fun p hp => ⟨hkeys p hp, hv p hp⟩
    | list h | number h | atom h => exact absurd h (by decide)
  · intro h x y hmeets
    cases hmeets with
    | member _ _ hzip hbefore hkey hm => exact h _ _ _ hzip hbefore hkey x y hm
    | number h | element h => exact absurd h (by decide)
  · intro h before p after hzip hbefore hkey x y hm
    exact h x y (.member rfl hlen hzip hbefore hkey hm)

theorem number_judged (l l' : Location) (ts ts' : List Tree) :
    Judges std (do
      let value ← std.stod l.view
      let value' ← std.stod l'.view
      return value == value') (.node .jsonNumber l ts) (.node .jsonNumber l' ts') := by
  have hrange : InRange std (.node .jsonNumber l ts) (.node .jsonNumber l' ts') ↔
      (std.stod l.view).isSome ∧ (std.stod l'.view).isSome := by
    constructor
    · intro h
      exact h _ _ (.number rfl)
    · intro h x y hmeets
      cases hmeets with
      | number => exact h
      | element ht | member ht => exact absurd ht (by decide)
  have hequals : Equals std (.node .jsonNumber l ts) (.node .jsonNumber l' ts') ↔
      ∃ x y, std.stod l.view = some x ∧ std.stod l'.view = some y ∧ (x == y) = true := by
    constructor
    · intro h
      cases h with
      | number _ hx hy h => exact ⟨_, _, hx, hy, h⟩
      | object h | list h | atom h => exact absurd h (by decide)
    · intro h
      obtain ⟨x, y, hx, hy, h⟩ := h
      exact .number rfl hx hy h
  rw [Judges, hrange, hequals]
  cases std.stod l.view with
  | none => simp
  | some x => cases std.stod l'.view <;> simp

theorem atom_judged (ht : type ∈ [.jsonString, .jsonTrue, .jsonFalse, .jsonNull])
    (l l' : Location) (ts ts' : List Tree) :
    Judges std (some (l.view == l'.view)) (.node type l ts) (.node type l' ts') := by
  have hother := atom_other _ ht
  refine ⟨?_, iff_of_true rfl fun x y hmeets => ?_⟩
  · rw [Option.some.injEq, beq_iff_eq]
    constructor
    · exact .atom ht
    · intro h
      cases h with
      | atom _ h => exact h
      | object h => exact absurd h hother.1
      | number h => exact absurd h hother.2.2
      | list h => exact absurd ht (list_not_atom _ h)
  · cases hmeets with
    | number h => exact absurd h hother.2.2
    | member h => exact absurd h hother.1
    | element h => exact absurd ht (list_not_atom _ h)

theorem container_type : ∀ type ∈ [Token.jsonObject, .jsonArray, .top], type ≠ .jsonNumber ∧
    type ∉ [Token.jsonString, .jsonTrue, .jsonFalse, .jsonNull] := by
  decide

theorem Judges.of_differ (h : type ≠ type' ∨ type ∈ [.jsonObject, .jsonArray, .top] ∧
    ts.length ≠ ts'.length) :
    Judges std (some false) (.node type l ts) (.node type' l' ts') := by
  apply Judges.of_false
  · intro he
    cases he with
    | object _ hlen | list _ hlen => exact h.elim (absurd rfl) fun h => h.2 hlen
    | number ht => exact h.elim (absurd rfl) fun h => (container_type _ h.1).1 ht
    | atom ht => exact h.elim (absurd rfl) fun h => (container_type _ h.1).2 ht
  · intro x y he
    cases he with
    | element _ hlen | member _ hlen => exact h.elim (absurd rfl) fun h => h.2 hlen
    | number ht => exact h.elim (absurd rfl) fun h => (container_type _ h.1).1 ht

theorem not_list_of_leaf : ∀ type ∈ [Token.jsonString, .jsonNumber, .jsonTrue, .jsonFalse,
    .jsonNull], type ∉ [Token.jsonArray, .top] := by
  decide

theorem leaf_atom : ∀ type ∈ [Token.jsonString, .jsonNumber, .jsonTrue, .jsonFalse, .jsonNull],
    type ≠ .jsonNumber → type ∈ [Token.jsonString, .jsonTrue, .jsonFalse, .jsonNull] := by
  decide

theorem valueEqual_judged (hl : heap.Represents n t) (hr : heap.Represents n' t')
    (ht : Shaped t) (ht' : Shaped t') (hdepth : t.depth ≤ fuel) :
    Judges std (valueEqual std heap fuel n n') t t' := by
  induction fuel generalizing n n' t t' with
  | zero =>
    cases t with
    | node type location trees =>
      rw [Tree.depth] at hdepth
      exact absurd hdepth (Nat.not_succ_le_zero _)
  | succ fuel ih =>
    cases t with
    | node type l ts =>
      cases t' with
      | node type' l' ts' =>
        rw [Heap.Represents] at hl hr
        obtain ⟨-, htype, hlocation, hchildren⟩ := hl
        obtain ⟨-, htype', hlocation', hchildren'⟩ := hr
        have hlen := hchildren.length_eq
        have hlen' := hchildren'.length_eq
        rw [valueEqual, htype, htype', hlen, hlen']
        by_cases hne : type = type'
        · subst hne
          rw [if_neg (not_not.2 rfl)]
          cases ht with
          | object hobject hm hv =>
            subst hobject
            rw [if_pos rfl]
            by_cases hsize : ts.length = ts'.length
            · rw [if_neg (not_not.2 hsize)]
              cases ht' with
              | object _ hm' hv' =>
                have hbelow : ∀ m ∈ ts, m.back.depth ≤ fuel := by
                  intro m hmem
                  obtain ⟨l, key, v, rfl⟩ := hm m hmem
                  exact depth_value_le hdepth hmem
                obtain ⟨xs, xs', hxs, hxs', hjudges⟩ := members_judged l l' hchildren
                  hchildren' hm hm' hsize fun m hmem m' hmem' c c' hc hc' =>
                    ih hc hc' (hv m hmem) (hv' m' hmem') (hbelow m hmem)
                rw [hxs, hxs']
                exact hjudges
              | list h | atom h => exact absurd h (by decide)
            · rw [if_pos hsize]
              exact .of_differ (.inr ⟨by decide, hsize⟩)
          | list hlist hv =>
            have hlist' := list_type _ hlist
            rw [if_neg hlist'.1, if_pos hlist'.2]
            by_cases hsize : ts.length = ts'.length
            · rw [if_neg (not_not.2 hsize)]
              cases ht' with
              | list _ hv' =>
                have hbelow : ∀ t ∈ ts, t.depth ≤ fuel := fun t => Heap.depth_child_le hdepth
                exact elements_judged hlist hchildren hchildren' hsize
                  fun t hmem t' hmem' c c' hc hc' =>
                    ih hc hc' (hv t hmem) (hv' t' hmem') (hbelow t hmem)
              | object h => exact absurd h hlist'.1
              | atom h => exact absurd hlist (fun hlist => not_list_of_leaf _ h hlist)
            · rw [if_pos hsize]
              exact .of_differ (.inr ⟨List.mem_cons_of_mem _ hlist, hsize⟩)
          | atom hatom =>
            rw [viewOf, viewOf, hlocation, hlocation']
            by_cases hnumber : type = .jsonNumber
            · subst hnumber
              rw [if_neg (by decide), if_neg (by decide), if_pos rfl]
              exact number_judged l l' ts ts'
            · have hatom' := leaf_atom type hatom hnumber
              have hother := atom_other _ hatom'
              rw [if_neg hother.1, if_neg hother.2.1, if_neg hother.2.2]
              exact atom_judged hatom' l l' ts ts'
        · rw [if_pos hne]
          exact .of_differ (.inl hne)

theorem equal_judged (hl : heap.Represents n t) (hr : heap.Represents n' t') (ht : Shaped t)
    (ht' : Shaped t') : Judges std (equal std heap n n') t t' :=
  valueEqual_judged hl hr ht ht' (Nat.le_succ_of_le hl.depth_le)

end Values

end Json

end Trieste
