import Trieste.Json.Grafting
import Trieste.Json.Insertion

namespace Trieste.Json
set_option autoImplicit true
open Library Relation Heap

def MakesError (h : Heap) (result : Option (Heap × Node)) : Prop :=
  ∃ h' e, result = some (h', e) ∧ Heap.Frame h.nodes.length h h' ∧ (h'.get e).type = .error

theorem err_total {heap : Heap} (ht : heap.Represents node t) (msg : String) :
    MakesError heap (err heap node msg) := by
  have hsome : ∃ heap' e, err heap node msg = some (heap', e) := by
    have habove := Heap.Above.length heap
    have h₁ := habove.create (Nat.le_refl _) .error {}
    have h₂ := h₁.trans (h₁.above.create h₁.length .errorMsg (.ofString msg))
    have h₂ := h₂.trans (h₂.above.pushBack (Nat.le_refl _) h₁.length)
    have h₃ := h₂.trans (h₂.above.create h₂.length .errorAst {})
    have ht₃ := ht.frame h₃
    obtain ⟨heap₄, hclone, -⟩ := ht₃.clone (Nat.le_succ_of_le ht₃.depth_le)
    simp only [err, Option.bind_eq_bind, Heap.create_node]
    rw [hclone]
    exact ⟨_, _, rfl⟩
  obtain ⟨heap', e, he⟩ := hsome
  obtain ⟨hframe, -, htype⟩ := err_frame (Heap.Above.length heap) (Nat.le_refl _) he
  exact ⟨heap', e, he, hframe, htype⟩

theorem errAt_total (heap : Heap) (type : Token) (location : Location) (msg : String) :
    MakesError heap (errAt heap type location msg) := by
  obtain ⟨heap', e, he, hfresh⟩ := errAt_fresh heap type location msg
  obtain ⟨hframe, -⟩ := errAt_frame (Heap.Above.length heap) (Nat.le_refl _) he
  exact ⟨heap', e, he, hframe, hfresh.2⟩

section Texts
variable {s : Store} {settings : WriteSettings} {v : Node}

/-- The symbol tables at and below the node find members of their objects. -/
def Looks (s : Store) (v : Node) : Prop :=
  ∀ n key m, s.heap.InTree v n → (s.heap.get n).type = .jsonObject → m ∈ s.lookdown n key →
    s.heap.HasChild n m

theorem Proper.memberKey (h : Proper heap m) (hm : (heap.get m).type = .jsonMember) :
    ∃ key value, (heap.get m).children = [key, value] ∧ (heap.get key).type = .jsonKey ∧
      (heap.get value).type ∈ valueTokens ∧ Store.memberKey heap m = some key ∧
      Store.memberValue heap m = some value := by
  obtain ⟨key, value, hc, hkey, hvalue⟩ := h.pair hm
  refine ⟨key, value, hc, hkey, hvalue, ?_, ?_⟩
  · rw [Store.memberKey, Store.memberField, if_pos hm, hc]
    rfl
  · rw [Store.memberValue, Store.memberField, if_pos hm, hc]
    rfl

theorem membersToWrite_total (settings : WriteSettings) (h : IsValue s.heap v) (hlooks : Looks s v)
    (hn : s.heap.InTree v n) (hobject : (s.heap.get n).type = .jsonObject) :
    ∃ members, membersToWrite s settings n = some members ∧
      ∀ m ∈ members, s.heap.HasChild n m := by
  rw [membersToWrite]
  by_cases hsort : settings.sortKeys
  · have hkeys : ∀ m ∈ (s.heap.get n).children, Store.memberKey s.heap m =
        some ((Store.memberKey s.heap m).getD 0) := by
      intro m hm
      have hmember := ((h.proper n hn).member m hm).2 hobject
      obtain ⟨key, value, -, -, -, hkey, -⟩ := (h.proper m (hn.tail hm)).memberKey hmember
      rw [hkey]
      rfl
    rw [if_pos hsort, mapM_some hkeys]
    refine ⟨_, rfl, fun m hm => ?_⟩
    obtain ⟨key, -, hm⟩ := List.mem_flatMap.1 hm
    exact hlooks n key m hn hobject hm
  · rw [if_neg hsort]
    exact ⟨_, rfl, fun m hm => hm⟩

theorem writeContainer_total (settings : WriteSettings) (indent : String)
    {write : String → Node → Option String}
    (h : ∀ m ∈ ms, (write (indent ++ settings.indent) m).isSome) (size : Nat) :
    (writeContainer settings indent size write ms).isSome := by
  have htext : ∀ m ∈ ms, write (indent ++ settings.indent) m =
      some ((write (indent ++ settings.indent) m).getD "") := by
    intro m hm
    obtain ⟨text, htext⟩ := Option.isSome_iff_exists.1 (h m hm)
    rw [htext]
    rfl
  rw [writeContainer_eq htext]
  rfl

theorem writeValue_total (h : IsValue s.heap v) (hlooks : Looks s v) (hn : s.heap.InTree v n)
    (htype : (s.heap.get n).type ∈ .top :: valueTokens) (ht : s.heap.Represents n t)
    (hdepth : t.depth ≤ fuel) (indent : String) :
    (writeValue s settings fuel indent n).isSome := by
  induction fuel generalizing n t indent with
  | zero =>
    cases t with
    | node type location trees =>
      rw [Tree.depth] at hdepth
      exact absurd hdepth (Nat.not_succ_le_zero _)
  | succ fuel ih =>
    have hproper := h.proper n hn
    have hbelow : ∀ c, s.heap.HasChild n c → ∃ t', s.heap.Represents c t' ∧ t'.depth ≤ fuel := by
      intro c hc
      obtain ⟨t', ht', hlt⟩ := ht.child hc
      exact ⟨t', ht', Nat.le_of_lt_succ (Nat.lt_of_lt_of_le hlt hdepth)⟩
    have hvalues : ∀ c, (s.heap.get n).type ∈ [.top, .jsonArray] → s.heap.HasChild n c →
        ∀ indent, (writeValue s settings fuel indent c).isSome := by
      intro c hlist hc indent
      obtain ⟨t', ht', hle⟩ := hbelow c hc
      exact ih (hn.tail hc) (List.mem_cons_of_mem _ (hproper.values hlist c hc)) ht' hle indent
    by_cases hobject : (s.heap.get n).type = .jsonObject
    · rw [writeValue_object hobject]
      split
      · rfl
      · obtain ⟨members, hmembers, hchildren⟩ :=
          membersToWrite_total settings h hlooks hn hobject
        have hitems : ∀ m ∈ members,
            (writeMember s settings fuel (indent ++ settings.indent) m).isSome := by
          intro m hm
          have hc := hchildren m hm
          have hmember := (hproper.member m hc).2 hobject
          obtain ⟨key, value, hcs, hkey, hvalue, hmkey, hmvalue⟩ :=
            (h.proper m (hn.tail hc)).memberKey hmember
          obtain ⟨t', ht', hle⟩ := hbelow m hc
          have hcvalue : s.heap.HasChild m value := by simp [HasChild, hcs]
          obtain ⟨u, hu, hlt⟩ := ht'.child hcvalue
          have hwrite := ih ((hn.tail hc).tail hcvalue) (List.mem_cons_of_mem _ hvalue) hu
            (Nat.le_trans (Nat.le_of_lt hlt) hle) (indent ++ settings.indent)
          obtain ⟨text, htext⟩ := Option.isSome_iff_exists.1 hwrite
          obtain ⟨fuel', rfl⟩ : ∃ fuel', fuel = fuel' + 1 :=
            Nat.exists_eq_succ_of_ne_zero (Nat.ne_of_gt (Nat.lt_of_lt_of_le
              (Nat.zero_lt_of_lt hlt) hle))
          rw [writeMember, hmkey, hmvalue]
          change (do
            let key ← writeValue s settings (fuel' + 1) (indent ++ settings.indent) key
            let value ← writeValue s settings (fuel' + 1) (indent ++ settings.indent) value
            some (key ++ ":" ++ settings.lead " " ++ value)).isSome = true
          rw [writeValue_key hkey, htext]
          rfl
        have hwritten := writeContainer_total settings indent hitems
          (s.heap.get n).children.length
        obtain ⟨text, htext⟩ := Option.isSome_iff_exists.1 hwritten
        rw [hmembers]
        change ((writeContainer settings indent (s.heap.get n).children.length
          (writeMember s settings fuel) members).bind fun text => some _).isSome = true
        rw [htext]
        rfl
    by_cases harray : (s.heap.get n).type = .jsonArray
    · rw [writeValue_array harray]
      split
      · rfl
      · have hitems : ∀ c ∈ (s.heap.get n).children,
            (writeValue s settings fuel (indent ++ settings.indent) c).isSome := by
          intro c hc
          exact hvalues c (by rw [harray]; decide) hc _
        have hwritten := writeContainer_total settings indent hitems
          (s.heap.get n).children.length
        obtain ⟨text, htext⟩ := Option.isSome_iff_exists.1 hwritten
        rw [htext]
        rfl
    by_cases htop : (s.heap.get n).type = .top
    · rw [writeValue_top htop]
      cases hc : (s.heap.get n).children with
      | nil => exact absurd hc (hproper.top htop)
      | cons c cs =>
        exact hvalues c (by rw [htop]; decide) (by rw [HasChild, hc]; exact .head _) indent
    · have hatom : (s.heap.get n).type ∈
          [.jsonNumber, .jsonString, .jsonTrue, .jsonFalse, .jsonNull] := by
        revert htype hobject harray htop
        generalize (s.heap.get n).type = type
        intro htype
        revert type
        decide
      rw [writeValue_atom hatom]
      rfl

theorem toString_total (h : IsValue s.heap v) (hlooks : Looks s v) (settings : WriteSettings) :
    ∃ text, toString s settings v = some text := by
  obtain ⟨t, ht⟩ := h.tree
  exact Option.isSome_iff_exists.1
    (writeValue_total h hlooks .refl h.type ht (Nat.le_succ_of_le ht.depth_le) "")

end Texts

end Trieste.Json
