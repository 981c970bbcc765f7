import Trieste.Ast.Parents
import Trieste.Ast.Trees
import Trieste.Json.PatchFrame

namespace Trieste.Json
set_option autoImplicit true
open Library

/-- An array whose elements are nodes that are no errors. -/
structure IsArray (h : Heap) (array : Node) : Prop where
  type : (h.get array).type = .jsonArray
  lt : ∀ c ∈ (h.get array).children, c < h.nodes.length
  noError : ∀ c ∈ (h.get array).children, (h.get c).type ≠ .error

/-- The index that a lookup leaves behind when the token is no numeral. -/
def leftoverIndex (text : List Char) : Nat :=
  if text.head? = some '0' then 0
  else Nat.ofDigitChars 10 (text.takeWhile Char.isDigit) 0 % 2 ^ 64

/-- The array has got a copy of a tree at the given index, and no other node has changed. -/
structure Inserted (h h' : Heap) (array : Node) (k : Nat) (tree : Tree) : Prop where
  copy : ∃ copy, h.nodes.length ≤ copy ∧ h'.Represents copy tree ∧
    (h'.get array).children = Heap.insertAt (h.get array).children k [copy]
  others : ∀ n < h.nodes.length, n ≠ array → Heap.Alike h h' n

/-- The result is a new error, and no node has changed. -/
structure Refused (h h' : Heap) (e : Node) : Prop where
  fresh : FreshError h h' e
  kept : ∀ n < h.nodes.length, h'.get n = h.get n

/-- `-` and the numerals up to the size insert, and any other token is an error. -/
structure InsertsAsRfc [BEq α] (std : StdLib α) (op : Operation) (s : Store)
    (array : Node) (key : Location) (value : Node) (tree : Tree) : Prop where
  inserted : ∀ k ≤ (s.heap.get array).children.length,
    key.view.toList = Nat.toDigits 10 k ∨
      key.view.toList = ['-'] ∧ k = (s.heap.get array).children.length →
    ∃ s', op.arrayAction std s array key = some (s', value) ∧ Inserted s.heap s'.heap array k tree
  refused : key.view.toList ≠ ['-'] →
    (∀ k, key.view.toList = Nat.toDigits 10 k → (s.heap.get array).children.length < k) →
    ∃ s' e, op.arrayAction std s array key = some (s', e) ∧ Refused s.heap s'.heap e

theorem indexLoop_leftover (h : ¬ ∀ c ∈ text, c.isDigit = true) (index : Nat) :
    indexLoop text (index % 2 ^ 64) =
      (Nat.ofDigitChars 10 (text.takeWhile Char.isDigit) index % 2 ^ 64, false) := by
  induction text generalizing index with
  | nil => exact absurd (fun _ hc => absurd hc List.not_mem_nil) h
  | cons c text ih =>
    by_cases hc : c.isDigit = true
    · have htext : ¬ ∀ d ∈ text, d.isDigit = true := by
        intro htext
        apply h
        intro d hd
        rcases List.mem_cons.1 hd with rfl | hd
        · exact hc
        · exact htext d hd
      rw [indexLoop, if_pos hc, List.takeWhile_cons_of_pos hc, Nat.ofDigitChars_cons, ← ih htext]
      congr 1
      rw [Nat.mul_comm 10, Nat.add_mod, Nat.mod_mul_mod, ← Nat.add_mod]
    · rw [indexLoop, if_neg hc, List.takeWhile_cons_of_neg hc, Nat.ofDigitChars_nil]

theorem map_errAt_refused (h : Heap) (type : Token) (location : Location) (msg : String)
    (index : Nat) :
    ∃ h' e, (errAt h type location msg).map (fun (h, e) => (h, e, index)) = some (h', e, index) ∧
      Refused h h' e := by
  obtain ⟨h', e, he, hfresh⟩ := errAt_fresh h type location msg
  obtain ⟨hframe, -⟩ := errAt_frame (Heap.Above.length h) (Nat.le_refl _) he
  exact ⟨h', e, by rw [he]; rfl, hfresh, hframe.kept⟩

theorem arrayLookup_minus (h : key.view.toList = ['-']) (heap : Heap) (current : Node)
    (index : Nat) :
    ∃ heap' e, arrayLookup heap current key index =
      some (heap', e, (heap.get current).children.length) ∧ Refused heap heap' e := by
  rw [arrayLookup, if_pos h]
  exact map_errAt_refused ..

theorem arrayLookup_leftover (hne : key.view.toList ≠ []) (hminus : key.view.toList ≠ ['-'])
    (h : ¬ IsNumeral key.view.toList) (heap : Heap) (current : Node) :
    ∃ heap' e, arrayLookup heap current key 0 =
      some (heap', e, leftoverIndex key.view.toList) ∧ Refused heap heap' e := by
  rw [arrayLookup, if_neg hminus]
  split
  · exact absurd ‹_› hne
  rename_i front rest htext
  split
  · rename_i hfront
    have hleft : leftoverIndex key.view.toList = 0 := by
      rw [htext, hfront]
      rfl
    rw [hleft]
    exact map_errAt_refused ..
  split
  · rename_i hzero
    have hleft : leftoverIndex key.view.toList = 0 := by
      rw [htext, hzero.1]
      rfl
    rw [hleft]
    exact map_errAt_refused ..
  rename_i hzero
  have hdigits : ¬ ∀ c ∈ key.view.toList, c.isDigit = true := by
    intro hdigits
    apply h
    refine ⟨hne, hdigits, fun hz => ?_⟩
    apply Nat.le_of_not_lt
    intro hlen
    rw [htext] at hz
    exact hzero ⟨Option.some.inj hz, hlen⟩
  have hloop := indexLoop_leftover hdigits 0
  have hleft : Nat.ofDigitChars 10 (key.view.toList.takeWhile Char.isDigit) 0 % 2 ^ 64 =
      leftoverIndex key.view.toList := by
    rw [leftoverIndex]
    split
    · rename_i hz
      -- a zero that is no numeral of its own is followed by something
      rw [htext] at hz
      have hlen : ¬ 1 < key.view.toList.length := fun hlen => hzero ⟨Option.some.inj hz, hlen⟩
      have hrest : rest = [] := by
        apply List.eq_nil_of_length_eq_zero
        rw [htext, List.length_cons] at hlen
        omega
      rw [htext, Option.some.inj hz, hrest]
      rfl
    · rfl
  rw [Nat.zero_mod, hleft] at hloop
  rw [hloop]
  exact map_errAt_refused ..

section Insert
variable [BEq α] {std : StdLib α} {op : Operation} {s : Store}

theorem inserted_of_edit {heap heap₁ heap₂ heap₃ : Heap} {array : Node}
    (hlt : array < heap.nodes.length)
    (hframe : Heap.Frame heap.nodes.length heap heap₁)
    (hcopy : Heap.Frame heap₁.nodes.length heap₁ heap₂)
    (htree : heap₂.Represents heap₁.nodes.length tree)
    (hlen : heap₃.nodes.length = heap₂.nodes.length)
    (halike : ∀ m, m ≠ array → Heap.Alike heap₂ heap₃ m)
    (hchildren : (heap₃.get array).children =
      Heap.insertAt (heap₂.get array).children k [heap₁.nodes.length]) :
    Inserted heap heap₃ array k tree := by
  have harray : array < heap₁.nodes.length := Nat.lt_of_lt_of_le hlt hframe.length
  have hget : ∀ m < heap.nodes.length, heap₂.get m = heap.get m := by
    intro m hm
    rw [hcopy.kept m (Nat.lt_of_lt_of_le hm hframe.length), hframe.kept m hm]
  constructor
  · refine ⟨heap₁.nodes.length, hframe.length, ?_, by rw [hchildren, hget array hlt]⟩
    apply htree.alike (I := (heap₁.nodes.length ≤ ·)) (Nat.le_of_eq hlen.symm) (Nat.le_refl _)
      hcopy.above.children
    intro m _ hm
    apply halike
    intro hma
    rw [hma] at hm
    exact absurd harray (Nat.not_lt.2 hm)
  · intro n hn hne
    exact (Heap.Alike.of_get (hget n hn)).trans (halike n hne)

theorem insertAt_length (children : List Node) (n : Node) :
    Heap.insertAt children children.length [n] = children ++ [n] := by
  simp [Heap.insertAt]

theorem arrayAction_insert (std : StdLib α) {value array index : Node}
    (haction : op.action = .insert)
    (hvalue : op.value = some value) (htree : s.heap.Represents value tree)
    (hlt : array < s.heap.nodes.length)
    (hlookup : arrayLookup s.heap array key 0 = some (heap, element, index))
    (hframe : Heap.Frame s.heap.nodes.length s.heap heap)
    (hindex : index = (s.heap.get array).children.length ∨ (heap.get element).type ≠ .error) :
    ∃ s', op.arrayAction std s array key = some (s', value) ∧
      Inserted s.heap s'.heap array index tree := by
  obtain ⟨heap₂, hclone, hcopy⟩ := (htree.frame hframe).clone
    (Nat.le_succ_of_le (htree.frame hframe).depth_le)
  obtain ⟨hframe₂, -⟩ := (Heap.Above.length heap).clone (Nat.le_refl _) hclone
  have hlt₂ : array < heap₂.nodes.length :=
    Nat.lt_of_lt_of_le hlt (Nat.le_trans hframe.length hframe₂.length)
  have hsize : (heap.get array).children = (s.heap.get array).children := by
    rw [hframe.kept array hlt]
  have hchildren : (heap₂.get array).children = (s.heap.get array).children := by
    rw [hframe₂.kept array (Nat.lt_of_lt_of_le hlt hframe.length), hsize]
  have hstore : Store.clone { s with heap } value =
      some ({ s with heap := heap₂ }, heap.nodes.length) := by
    rw [Store.clone, hclone]
    rfl
  rw [Operation.arrayAction, hlookup]
  by_cases hend : index = (s.heap.get array).children.length
  · refine ⟨{ s with heap := heap₂.pushBack array (some heap.nodes.length) }, ?_, inserted_of_edit hlt
      hframe hframe₂ hcopy (Heap.length_pushBack ..) (fun m hm => Heap.alike_pushBack _ hm _) ?_⟩
    · simp only [Option.bind_eq_bind, Option.bind_some]
      rw [if_pos ⟨haction, by rw [hsize]; exact hend⟩, hvalue, Option.bind_some, hstore]
      rfl
    · rw [Heap.children_pushBack _ hlt₂, if_pos rfl, hend, hchildren, insertAt_length]
  · have hno : (heap.get element).type ≠ .error := hindex.resolve_left hend
    have hadopt := heap₂.alike_adopt array heap.nodes.length
    refine ⟨{ s with heap := heap₂.insert array index (some heap.nodes.length) }, ?_,
      inserted_of_edit hlt hframe hframe₂ hcopy ?_ ?_ ?_⟩
    · simp only [Option.bind_eq_bind, Option.bind_some]
      rw [if_neg fun h => hend (h.2.trans (by rw [hsize])), if_neg, Operation.elementAction, haction]
      · simp only [Option.bind_eq_bind, hvalue, Option.bind_some, hstore]
        rfl
      · simpa [Store.isError] using hno
    · rw [Heap.insert, Heap.length_setChildren, (Heap.adopt_adopted ..).length]
    · intro m hm
      exact (hadopt m).trans (Heap.alike_setChildren _ hm _)
    · rw [Heap.insert, Heap.children_setChildren,
        if_pos ⟨rfl, Nat.lt_of_lt_of_eq hlt₂ (Heap.adopt_adopted ..).length.symm⟩]

theorem arrayAction_refused (hlookup : arrayLookup s.heap array key 0 = some (heap, e, index))
    (hrefused : Refused s.heap heap e) (hlt : array < s.heap.nodes.length)
    (hindex : index ≠ (s.heap.get array).children.length) :
    op.arrayAction std s array key = some ({ s with heap }, e) := by
  have hsize : (heap.get array).children = (s.heap.get array).children := by
    rw [hrefused.kept array hlt]
  rw [Operation.arrayAction, hlookup]
  simp only [Option.bind_eq_bind, Option.bind_some]
  rw [if_neg fun h => hindex (h.2.trans (by rw [hsize])), if_pos]
  · rfl
  · exact decide_eq_true hrefused.fresh.2

theorem getElem_insertAt {children : List Node} (hk : k ≤ children.length) (n : Node) :
    (Heap.insertAt children k [n])[k]? = some n := by
  have hlen : (children.take k).length = k := List.length_take_of_le hk
  rw [Heap.insertAt, List.append_assoc, List.getElem?_append_right (Nat.le_of_eq hlen), hlen,
    Nat.sub_self]
  rfl

theorem mem_of_getElem_insertAt {children : List Node} (hk : k ≤ children.length) (hi : i ≠ k)
    (hm : (Heap.insertAt children k [n])[i]? = some m) : m ∈ children := by
  have hlen : (children.take k).length = k := List.length_take_of_le hk
  rw [Heap.insertAt, List.append_assoc] at hm
  rcases Nat.lt_or_gt_of_ne hi with hlt | hgt
  · rw [List.getElem?_append_left (by rwa [hlen])] at hm
    exact List.mem_of_mem_take (List.mem_of_getElem? hm)
  · rw [List.getElem?_append_right (by rw [hlen]; exact Nat.le_of_lt hgt), hlen] at hm
    obtain ⟨d, hd⟩ := Nat.exists_eq_succ_of_ne_zero (Nat.sub_ne_zero_of_lt hgt)
    rw [hd, List.singleton_append, List.getElem?_cons_succ] at hm
    exact List.mem_of_mem_drop (List.mem_of_getElem? hm)

/-- A copy is inserted at one index only. -/
theorem Inserted.unique {h h' : Heap} {array : Node} {tree tree' : Tree}
    (hlt : ∀ c ∈ (h.get array).children, c < h.nodes.length)
    (hk : k ≤ (h.get array).children.length) (hk' : k' ≤ (h.get array).children.length)
    (hi : Inserted h h' array k tree) (hi' : Inserted h h' array k' tree') : k = k' := by
  obtain ⟨copy, hfresh, -, hchildren⟩ := hi.copy
  obtain ⟨copy', -, -, hchildren'⟩ := hi'.copy
  by_contra hne
  have hcopy := getElem_insertAt hk copy
  rw [← hchildren, hchildren'] at hcopy
  exact absurd (hlt copy (mem_of_getElem_insertAt hk' hne hcopy)) (Nat.not_lt.2 hfresh)

theorem Inserted.not_refused {h h' : Heap} {array : Node} (hlt : array < h.nodes.length)
    (hi : Inserted h h' array k tree) : ¬ Refused h h' e := by
  intro hrefused
  obtain ⟨copy, -, -, hchildren⟩ := hi.copy
  rw [hrefused.kept array hlt] at hchildren
  have hlen := congrArg List.length hchildren
  simp only [Heap.insertAt, List.length_append, List.length_singleton, List.length_take,
    List.length_drop] at hlen
  omega

theorem arrayAction_numeral (std : StdLib α) {array value : Node}
    (harray : IsArray s.heap array)
    (hlt : array < s.heap.nodes.length) (haction : op.action = .insert)
    (hvalue : op.value = some value) (htree : s.heap.Represents value tree)
    (hkey : key.view.toList = Nat.toDigits 10 v) :
    (v % 2 ^ 64 ≤ (s.heap.get array).children.length →
      ∃ s', op.arrayAction std s array key = some (s', value) ∧
        Inserted s.heap s'.heap array (v % 2 ^ 64) tree) ∧
    ((s.heap.get array).children.length < v % 2 ^ 64 →
      ∃ s' e, op.arrayAction std s array key = some (s', e) ∧ Refused s.heap s'.heap e) := by
  have hlookup := arrayLookup_numeral hkey s.heap array 0
  cases helement : (s.heap.get array).children[v % 2 ^ 64]? with
  | some element =>
    rw [helement] at hlookup
    have hmem := List.mem_of_getElem? helement
    constructor
    · intro _
      exact arrayAction_insert std haction hvalue htree hlt hlookup (.refl (Heap.Above.length _))
        (.inr (harray.noError element hmem))
    · intro hbeyond
      exact absurd (List.getElem?_eq_some_iff.1 helement).1 (Nat.lt_asymm hbeyond)
  | none =>
    rw [helement] at hlookup
    have hsize := List.getElem?_eq_none_iff.1 helement
    obtain ⟨heap, e, he, hrefused⟩ := map_errAt_refused s.heap .jsonNumber key
      "index is greater than number of items in array" (v % 2 ^ 64)
    have hlookup' := hlookup.trans he
    obtain ⟨⟨heap', e'⟩, herr, heq⟩ := Option.map_eq_some_iff.1 he
    cases heq
    obtain ⟨hframe, -⟩ := errAt_frame (Heap.Above.length _) (Nat.le_refl _) herr
    constructor
    · intro hle
      exact arrayAction_insert std haction hvalue htree hlt hlookup' hframe
        (.inl (Nat.le_antisymm hle hsize))
    · intro hbeyond
      exact ⟨_, e, arrayAction_refused hlookup' hrefused hlt (Nat.ne_of_gt hbeyond), hrefused⟩

theorem toDigits_ne_minus (k : Nat) : Nat.toDigits 10 k ≠ ['-'] := by
  intro h
  have hdigit := (IsNumeral.of_toDigits k).digits '-' (by rw [h]; exact .head _)
  exact absurd hdigit (by decide)

theorem toDigits_injective (h : Nat.toDigits 10 k = Nat.toDigits 10 k') : k = k' := by
  have hvalue := congrArg (Nat.ofDigitChars 10 · 0) h
  simpa only [Nat.ofDigitChars_ten_toDigits] using hvalue

/-- Insertion follows RFC 6901 unless the token is empty, is read up to a digit count that happens
to be the size, or is a numeral that wraps around to an index within the array. -/
theorem arrayAction_inserts_iff {array value : Node} (harray : IsArray s.heap array)
    (haction : op.action = .insert) (hvalue : op.value = some value)
    (htree : s.heap.Represents value tree) :
    InsertsAsRfc std op s array key value tree ↔ key.view.toList ≠ [] ∧
      (key.view.toList ≠ ['-'] → ¬ IsNumeral key.view.toList →
        leftoverIndex key.view.toList ≠ (s.heap.get array).children.length) ∧
      ∀ v, 2 ^ 64 ≤ v → key.view.toList = Nat.toDigits 10 v →
        (s.heap.get array).children.length < v % 2 ^ 64 := by
  have hlt : array < s.heap.nodes.length := by
    apply Nat.lt_of_not_le
    intro hle
    have htype := harray.type
    rw [s.heap.get_of_le hle] at htype
    exact absurd htype (by decide)
  have hnumeral : ∀ {v}, key.view.toList = Nat.toDigits 10 v → _ := fun {v} hkey =>
    arrayAction_numeral std harray hlt haction hvalue htree hkey
  constructor
  · intro hrfc
    refine ⟨?_, ?_, ?_⟩
    · intro hnil
      obtain ⟨s', e, he, -⟩ := hrfc.refused (by rw [hnil]; exact List.cons_ne_nil _ _ |>.symm)
        fun k hk => absurd (hk.symm.trans hnil) Nat.toDigits_ne_nil
      simp [Operation.arrayAction, arrayLookup, hnil] at he
    · intro hminus hnot hsize
      obtain ⟨s', e, he, hrefused⟩ := hrfc.refused hminus
        fun k hk => absurd (hk ▸ IsNumeral.of_toDigits k) hnot
      have hne : key.view.toList ≠ [] := by
        intro hnil
        simp [Operation.arrayAction, arrayLookup, hnil] at he
      obtain ⟨heap, e', hlookup, hkept⟩ := arrayLookup_leftover hne hminus hnot s.heap array
      obtain ⟨hframe, -⟩ := arrayLookup_frame (Heap.Above.length _) (Nat.le_refl _) hlookup
      obtain ⟨s'', hrun, hinserted⟩ := arrayAction_insert std haction hvalue htree hlt
        hlookup hframe (.inl hsize)
      cases hrun.symm.trans he
      exact hinserted.not_refused hlt hrefused
    · intro v hv hkey
      apply Nat.lt_of_not_le
      intro hle
      obtain ⟨s', hrun, hinserted⟩ := (hnumeral hkey).1 hle
      have hmod : v % 2 ^ 64 < v := Nat.lt_of_lt_of_le (Nat.mod_lt v (by decide)) hv
      by_cases hsize : v ≤ (s.heap.get array).children.length
      · obtain ⟨s'', hrun', hinserted'⟩ := hrfc.inserted v hsize (.inl hkey)
        cases hrun.symm.trans hrun'
        exact absurd (hinserted.unique harray.lt hle hsize hinserted') (Nat.ne_of_lt hmod)
      · obtain ⟨s'', e, hrun', hrefused⟩ := hrfc.refused (hkey ▸ toDigits_ne_minus v)
          fun k hk => by
            rw [toDigits_injective (hk.symm.trans hkey)]
            exact Nat.lt_of_not_le hsize
        cases hrun.symm.trans hrun'
        exact hinserted.not_refused hlt hrefused
  · intro hcond
    obtain ⟨hne, hleft, hwrap⟩ := hcond
    have hsmall : ∀ v, key.view.toList = Nat.toDigits 10 v →
        v ≤ (s.heap.get array).children.length → v % 2 ^ 64 = v := by
      intro v hkey hle
      apply Nat.mod_eq_of_lt
      apply Nat.lt_of_not_le
      intro hv
      have hbeyond := hwrap v hv hkey
      exact absurd (Nat.le_trans (Nat.mod_le v _) hle) (Nat.not_le.2 hbeyond)
    constructor
    · intro k hk htoken
      rcases htoken with hkey | hminus
      · have hrun := (hnumeral hkey).1
        rw [hsmall k hkey hk] at hrun
        exact hrun hk
      · obtain ⟨heap, e, hlookup, -⟩ := arrayLookup_minus hminus.1 s.heap array 0
        obtain ⟨hframe, -⟩ := arrayLookup_frame (Heap.Above.length _) (Nat.le_refl _) hlookup
        rw [hminus.2]
        exact arrayAction_insert std haction hvalue htree hlt hlookup hframe (.inl rfl)
    · intro hminus hbeyond
      by_cases hnum : IsNumeral key.view.toList
      · have hkey := hnum.toDigits.symm
        apply (hnumeral hkey).2
        rcases Nat.lt_or_ge (Nat.ofDigitChars 10 key.view.toList 0) (2 ^ 64) with hv | hv
        · rw [Nat.mod_eq_of_lt hv]
          exact hbeyond _ hkey
        · exact hwrap _ hv hkey
      · obtain ⟨heap, e, hlookup, hkept⟩ := arrayLookup_leftover hne hminus hnum s.heap array
        exact ⟨_, e, arrayAction_refused hlookup hkept hlt (hleft hminus hnum), hkept⟩

end Insert

/-- An empty array and `null`. -/
def emptyArray : Store := { heap := ⟨[{ type := .jsonArray }, { type := .jsonNull }]⟩ }

/-- Inserts the `null`. -/
def addNull : Operation := { path := {}, action := .insert, value := some 1 }

def readsNothing : StdLib Unit := .stable fun _ => none

/-- An array of `true` and `false`, and `null`. -/
def someArray : Store :=
  { heap := ⟨[{ type := .jsonArray, children := [1, 2] }, { type := .jsonTrue, parent := some 0 },
      { type := .jsonFalse, parent := some 0 }, { type := .jsonNull }]⟩ }

/-- The `null` is inserted between the elements. -/
theorem arrayAction_inserts_middle :
    InsertsAsRfc readsNothing { addNull with value := some 3 } someArray 0 (.ofString "1") 3
      (.node .jsonNull {} []) := by
  have hkey : (Location.ofString "1").view.toList = Nat.toDigits 10 1 := by decide
  apply (arrayAction_inserts_iff ⟨rfl, by decide, by decide⟩ rfl rfl
    (by simp [Heap.Represents, Heap.RepresentsAll, someArray, Heap.get])).2
  refine ⟨by decide, fun _ hnot => absurd (hkey ▸ IsNumeral.of_toDigits 1) hnot, ?_⟩
  intro v hv h
  rw [toDigits_injective (h.symm.trans hkey)] at hv
  exact absurd hv (by decide)

/-- The token `-1` inserts into an empty array, because its lookup fails with the index 0. -/
theorem malformed_inserted :
    (addNull.arrayAction readsNothing emptyArray 0 (.ofString "-1")).map
        (fun r => ((r.1.heap.get 0).children.length, r.2)) = some (1, 1) ∧
      ¬ InsertsAsRfc readsNothing addNull emptyArray 0 (.ofString "-1") 1
        (.node .jsonNull {} []) := by
  have hrun : (addNull.arrayAction readsNothing emptyArray 0 (.ofString "-1")).map
      (fun r => ((r.1.heap.get 0).children.length, r.2)) = some (1, 1) := by decide
  refine ⟨hrun, fun hrfc => ?_⟩
  obtain ⟨s', e, he, hrefused⟩ := hrfc.refused (by decide) fun k hk =>
    absurd ((IsNumeral.of_toDigits k).digits '-' (by rw [← hk]; decide)) (by decide)
  rw [he, Option.map_some, hrefused.kept 0 (by decide)] at hrun
  have hlen : (emptyArray.heap.get 0).children.length = 1 :=
    congrArg Prod.fst (Option.some.inj hrun)
  exact absurd hlen (by decide)

end Trieste.Json
