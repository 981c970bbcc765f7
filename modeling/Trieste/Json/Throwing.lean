import Trieste.Json.Patching

namespace Trieste.Json
set_option autoImplicit true
open Library Relation Heap

theorem member_key_type : ∀ type ∈ .jsonMember :: .jsonKey :: valueTokens, type ≠ .top := by
  decide

/-- What is below the top of a document is a value, or in a member. -/
theorem IsJson.below (hjson : IsJson heap document) (hn : heap.InTree document n) :
    n = document ∨ (heap.get n).type ∈ .jsonMember :: .jsonKey :: valueTokens := by
  induction hn with
  | refl => exact .inl rfl
  | @tail p c hp hc ih =>
    right
    by_cases hobject : (heap.get p).type = .jsonObject
    · rw [(hjson.member p c hp hc).2 hobject]
      exact .head _
    by_cases harray : (heap.get p).type = .jsonArray
    · exact .tail _ (.tail _ (hjson.elements p c hp harray hc))
    by_cases hmember : (heap.get p).type = .jsonMember
    · obtain ⟨key, value, hchildren⟩ := hjson.fields p hp hmember
      obtain ⟨hkey, hvalue⟩ := hjson.pairs p key value hp hmember hchildren
      rw [HasChild, hchildren, List.mem_cons, List.mem_singleton] at hc
      rcases hc with rfl | rfl
      · rw [hkey]
        exact .tail _ (.head _)
      · exact .tail _ (.tail _ hvalue)
    rcases ih with rfl | htype
    · exact .tail _ (.tail _ (hjson.values c hc))
    · have hleaf := hjson.leaves p hp (by
        simp only [List.mem_cons, List.not_mem_nil, or_false, not_or]
        exact ⟨member_key_type _ htype, hobject, harray, hmember⟩)
      rw [HasChild, hleaf] at hc
      cases hc

theorem IsJson.proper (hjson : IsJson heap document) (hn : heap.InTree document n) :
    Proper heap n := by
  have htop : (heap.get n).type = .top → n = document := by
    intro htop
    exact (hjson.below hn).resolve_right fun htype => member_key_type _ htype htop
  constructor
  · rcases hjson.below hn with rfl | htype
    · rw [hjson.top]
      exact .head _
    · exact .tail _ htype
  · exact fun c => hjson.parent n c hn
  · exact hjson.nodup n hn
  · exact fun c => hjson.member n c hn
  · intro h
    rw [htop h]
    exact hjson.nonempty
  · intro hlist c hc
    rcases List.mem_cons.1 hlist with h | h
    · exact hjson.values c (htop h ▸ hc)
    · exact hjson.elements n c hn (List.mem_singleton.1 h) hc
  · intro hmember
    obtain ⟨key, value, hchildren⟩ := hjson.fields n hn hmember
    exact ⟨key, value, hchildren, hjson.pairs n key value hn hmember hchildren⟩
  · exact hjson.leaves n hn

/-- A value of a document that the reader has accepted, or its top, with the tables that the reader
builds. -/
def Accepted (s : Store) (v : Node) : Prop :=
  ∃ document, IsJson s.heap document ∧ Tabled s document ∧ s.heap.InTree document v ∧
    (s.heap.get v).type ∈ .top :: valueTokens

theorem Accepted.loaded (h : Accepted s v) : Loaded s v := by
  obtain ⟨document, hjson, htabled, hv, htype⟩ := h
  have hvalue : IsValue s.heap document := by
    refine ⟨hjson.tree, fun n hn => hjson.proper hn, ?_⟩
    rw [hjson.top]
    exact .head _
  exact ⟨hvalue.sub hv htype, fun n key hn => htabled n key (hv.trans hn)⟩

/-- `stod` accepts the numbers that the comparison of the nodes comes to. -/
def ComparesInRange [BEq α] (std : StdLib α) (h : Heap) (n n' : Node) : Prop :=
  ∀ t t', h.Represents n t → h.Represents n' t' → InRange std t t'

/-- Equality throws for a number that is out of range, and a patch for such a number and for an empty
key that comes to an array. -/
theorem equal_patch_return_iff [BEq α] {std : StdLib α} {s : Store}
    {lhs rhs document operations : Node} (hs : TablesInHeap s) (hlhs : Accepted s lhs)
    (hrhs : Accepted s rhs) (hdocument : Accepted s document) (hoperations : Accepted s operations) :
    ((equal std s.heap lhs rhs).isSome ↔ ComparesInRange std s.heap lhs rhs) ∧
    (Patch.Delivers (patch std s document operations) ↔
      ∀ s' document' op, Patch.Comes std s document operations s' document' op →
        op.Defined std s' document') := by
  refine ⟨?_, patch_iff hs hdocument.loaded hoperations.loaded⟩
  have hl := hlhs.loaded.value
  have hr := hrhs.loaded.value
  obtain ⟨t, ht⟩ := hl.tree
  obtain ⟨t', ht'⟩ := hr.tree
  rw [(equal_judged ht ht' (hl.shaped ht) (hr.shaped ht')).2]
  constructor
  · intro h u u' hu hu'
    rw [hu.unique ht, hu'.unique ht']
    exact h
  · exact fun h => h t t' ht ht'

/-- A document of one number, and the patch that tests the document for that number. -/
def numberTest (text : String) : Store where
  heap := {
    nodes := [
      { type := .top, children := [1] },
      { type := .jsonNumber, location := .ofString text, parent := some 0 },
      { type := .top, children := [3] },
      { type := .jsonArray, parent := some 2, children := [4] },
      { type := .jsonObject, parent := some 3, children := [5, 8, 11] },
      { type := .jsonMember, parent := some 4, children := [6, 7] },
      { type := .jsonKey, location := .ofString "op", parent := some 5 },
      { type := .jsonString, location := .ofString "\"test\"", parent := some 5 },
      { type := .jsonMember, parent := some 4, children := [9, 10] },
      { type := .jsonKey, location := .ofString "path", parent := some 8 },
      { type := .jsonString, location := .ofString "\"\"", parent := some 8 },
      { type := .jsonMember, parent := some 4, children := [12, 13] },
      { type := .jsonKey, location := .ofString "value", parent := some 11 },
      { type := .jsonNumber, location := .ofString text, parent := some 11 }] }
  symbols := [⟨4, "op", 5⟩, ⟨4, "path", 8⟩, ⟨4, "value", 11⟩]

theorem numberTest_isJson (text : String) (hroot : root ∈ [0, 2]) :
    IsJson (numberTest text).heap root := by
  let h := (numberTest text).heap
  have hchildren : ∀ p < 14, ∀ c ∈ (h.get p).children, c < 14 := of_decide_eq_true rfl
  have hlt : ∀ n, h.InTree root n → n < 14 := by
    intro n hn
    induction hn with
    | refl => exact (of_decide_eq_true rfl : ∀ n ∈ [0, 2], n < 14) root hroot
    | @tail p c _ hc ih => exact hchildren p ih c hc
  have htop : ∀ n ∈ [0, 2], (h.get n).type = .top ∧ (h.get n).children ≠ [] ∧
      ∀ v ∈ (h.get n).children, (h.get v).type ∈ valueTokens := of_decide_eq_true rfl
  have hparent : ∀ n < 14, ∀ c ∈ (h.get n).children, (h.get c).parent = some n :=
    of_decide_eq_true rfl
  have hnodup : ∀ n < 14, (h.get n).children.Nodup := of_decide_eq_true rfl
  have hmember : ∀ n < 14, ∀ c ∈ (h.get n).children,
      ((h.get c).type = .jsonMember ↔ (h.get n).type = .jsonObject) := of_decide_eq_true rfl
  have hmembers : ∀ n < 14, (h.get n).type = .jsonMember → n ∈ [5, 8, 11] := of_decide_eq_true rfl
  have hpairs : ∀ n ∈ [5, 8, 11], (h.get n).children = [n + 1, n + 2] ∧
      (h.get (n + 1)).type = .jsonKey ∧ (h.get (n + 2)).type ∈ valueTokens := of_decide_eq_true rfl
  have herror : ∀ n < 14, (h.get n).type ≠ .error := of_decide_eq_true rfl
  have harray : ∀ n < 14, (h.get n).type = .jsonArray →
      ∀ v ∈ (h.get n).children, (h.get v).type ∈ valueTokens := of_decide_eq_true rfl
  have hleaf : ∀ n < 14, (h.get n).type ∉ [.top, .jsonObject, .jsonArray, .jsonMember] →
      (h.get n).children = [] := of_decide_eq_true rfl
  obtain ⟨hroottop, hnonempty, hvalues⟩ := htop root hroot
  exact {
    tree := by
      let leaf (type : Token) (text : String) : Tree := .node type (.ofString text) []
      let member (key : String) (value : Tree) : Tree :=
        .node .jsonMember {} [leaf .jsonKey key, value]
      rcases List.mem_pair.1 hroot with rfl | rfl
      · refine ⟨.node .top {} [leaf .jsonNumber text], ?_⟩
        simp [Heap.Represents, Heap.RepresentsAll, numberTest, Heap.get, leaf]
      · refine ⟨.node .top {} [.node .jsonArray {} [.node .jsonObject {} [
          member "op" (leaf .jsonString "\"test\""), member "path" (leaf .jsonString "\"\""),
          member "value" (leaf .jsonNumber text)]]], ?_⟩
        simp [Heap.Represents, Heap.RepresentsAll, numberTest, Heap.get, leaf, member]
    parent := fun n c hn => hparent n (hlt n hn) c
    nodup := fun n hn => hnodup n (hlt n hn)
    member := fun n c hn => hmember n (hlt n hn) c
    fields := fun m hm ht => ⟨m + 1, m + 2, (hpairs m (hmembers m (hlt m hm) ht)).1⟩
    noError := fun n hn => herror n (hlt n hn)
    root := by
      change (h.get root).type ≠ _
      rw [hroottop]
      decide
    top := hroottop
    values := hvalues
    nonempty := hnonempty
    elements := fun n v hn ht => harray n (hlt n hn) ht v
    pairs := by
      intro m key value hm ht hc
      obtain ⟨hchildren, hkey, hvalue⟩ := hpairs m (hmembers m (hlt m hm) ht)
      have hsame : [m + 1, m + 2] = [key, value] := hchildren.symm.trans hc
      cases hsame
      exact ⟨hkey, hvalue⟩
    leaves := fun n hn => hleaf n (hlt n hn) }

/-- A library whose `stod` reads natural numbers. -/
def stdNat : StdLib Nat := .stable fun text =>
  if text.toList.all Char.isDigit then some (Nat.ofDigitChars 10 text.toList 0) else none

theorem numberTest_built : ∀ text ∈ ["1", "1e999"], ∀ root ∈ [0, 2],
    ((numberTest text).buildSt root).map Store.symbols = some (numberTest text).symbols := by
  decide +kernel

theorem numberTest_accepted (htext : text ∈ ["1", "1e999"]) (hv : v ∈ [1, 3, 13]) :
    Accepted (numberTest text) v := by
  have htabled : ∀ root ∈ [0, 2], Tabled (numberTest text) root := by
    intro root hroot
    obtain ⟨s, hbuild, hsymbols⟩ := Option.map_eq_some_iff.1 (numberTest_built text htext root hroot)
    have hheap : s.heap = (numberTest text).heap := Store.buildStFrom_heap hbuild
    have hsame : s = numberTest text := by
      cases s
      cases hheap
      cases hsymbols
      rfl
    rw [hsame] at hbuild
    exact (numberTest_isJson text hroot).toIsDocument.tabled hbuild
  have htype : ∀ v ∈ [1, 3, 13], ((numberTest text).heap.get v).type ∈ .top :: valueTokens :=
    of_decide_eq_true rfl
  have hchild : ∀ p ∈ [(0, 1), (2, 3), (3, 4), (4, 11), (11, 13)],
      p.2 ∈ ((numberTest text).heap.get p.1).children := of_decide_eq_true rfl
  have harray : (numberTest text).heap.InTree 2 3 := .single (hchild (2, 3) (by decide))
  have hmember : (numberTest text).heap.InTree 2 11 :=
    (harray.tail (hchild (3, 4) (by decide))).tail (hchild (4, 11) (by decide))
  have hin : ∃ root ∈ [0, 2], (numberTest text).heap.InTree root v := by
    simp only [List.mem_cons, List.not_mem_nil, or_false] at hv
    rcases hv with rfl | rfl | rfl
    · exact ⟨0, by decide, .single (hchild (0, 1) (by decide))⟩
    · exact ⟨2, by decide, harray⟩
    · exact ⟨2, by decide, hmember.tail (hchild (11, 13) (by decide))⟩
  obtain ⟨root, hroot, hin⟩ := hin
  exact ⟨root, numberTest_isJson text hroot, htabled root hroot, hin, htype v hv⟩

theorem equal_patch_return_one :
    ((equal stdNat (numberTest "1").heap 1 13).isSome ↔
      ComparesInRange stdNat (numberTest "1").heap 1 13) ∧
    (Patch.Delivers (patch stdNat (numberTest "1") 1 3) ↔
      ∀ s' document' op, Patch.Comes stdNat (numberTest "1") 1 3 s' document' op →
        op.Defined stdNat s' document') := by
  have haccepted : ∀ v ∈ [1, 3, 13], Accepted (numberTest "1") v := fun v =>
    numberTest_accepted (by decide)
  have hbounded : TablesInHeap (numberTest "1") := by
    intro b hb
    have hall : ∀ b ∈ (numberTest "1").symbols, b.scope < 14 ∧ b.node < 14 := by decide
    exact hall b hb
  exact equal_patch_return_iff hbounded (haccepted 1 (by decide)) (haccepted 13 (by decide))
    (haccepted 1 (by decide)) (haccepted 3 (by decide))

/-- Equality and a test of a number that is out of range throw. -/
theorem equal_patch_throw :
    Accepted (numberTest "1e999") 1 ∧ Accepted (numberTest "1e999") 13 ∧
    Accepted (numberTest "1e999") 3 ∧
    equal stdNat (numberTest "1e999").heap 1 13 = none ∧
    ¬ Patch.Delivers (patch stdNat (numberTest "1e999") 1 3) := by
  have haccepted : ∀ v ∈ [1, 3, 13], Accepted (numberTest "1e999") v := fun v =>
    numberTest_accepted (by decide)
  refine ⟨haccepted 1 (by decide), haccepted 13 (by decide), haccepted 3 (by decide), ?_, ?_⟩
  · decide +kernel
  · have hnone : patch stdNat (numberTest "1e999") 1 3 = none := by
      apply Option.isNone_iff_eq_none.1
      decide +kernel
    rw [hnone]
    exact Patch.not_delivers

end Trieste.Json
