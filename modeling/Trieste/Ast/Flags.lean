import Mathlib.Logic.Relation
import Trieste.Ast.Heap

namespace Trieste
set_option autoImplicit true

namespace Heap

/-- The states before and after a loop of `add_flags` that starts at a node. -/
structure Marked (bit : FlagBit) (h h' : Heap) (first : Option Node) : Prop where
  length : h'.nodes.length = h.nodes.length
  type : ∀ n, (h'.get n).type = (h.get n).type
  parent : ∀ n, (h'.get n).parent = (h.get n).parent
  children : ∀ n, (h'.get n).children = (h.get n).children
  other : ∀ n b, b ≠ bit → h'.flag n b = h.flag n b
  mono : ∀ n, h.flag n bit = true → h'.flag n bit = true
  start : ∀ p, first = some p → p < h.nodes.length → h'.flag p bit = true
  up : ∀ n, h'.flag n bit = true → h.flag n bit = true ∨
    ∀ p, (h.get n).parent = some p → p < h.nodes.length → h'.flag p bit = true

theorem Marked.refl (h : Heap) (bit : FlagBit)
    (hfirst : ∀ p, first = some p → p < h.nodes.length → h.flag p bit = true) :
    Marked bit h h first :=
  ⟨rfl, fun _ => rfl, fun _ => rfl, fun _ => rfl, fun _ _ _ => rfl, fun _ hf => hf, hfirst,
    fun _ hf => .inl hf⟩

/-- A loop that sets the flag of a node goes on at its parent. -/
theorem Marked.step (h : Marked bit (heap.setFlag p bit true) heap' (heap.get p).parent) :
    Marked bit heap heap' (some p) := by
  have hset : ∀ n, heap.flag n bit = true → (heap.setFlag p bit true).flag n bit = true := by
    intro n hn
    rw [flag_setFlag]
    split
    · rfl
    · exact hn
  refine ⟨h.length.trans (length_setFlag ..), fun n => (h.type n).trans (type_setFlag ..),
    fun n => (h.parent n).trans (parent_setFlag ..),
    fun n => (h.children n).trans (children_setFlag ..), fun n b hb => ?_,
    fun n hn => h.mono n (hset n hn), ?_, fun n hn => ?_⟩
  · rw [h.other n b hb, flag_setFlag, if_neg fun hc => hb hc.2.2.symm]
  · rintro q hq hlt
    cases hq
    refine h.mono p ?_
    rw [flag_setFlag, if_pos ⟨rfl, hlt, rfl⟩]
  · rcases h.up n hn with hf | hf
    · by_cases hp : p = n
      · subst p
        refine .inr fun q hq hlt => h.start q hq ?_
        rwa [length_setFlag]
      · rw [flag_setFlag, if_neg fun hc => hp hc.1] at hf
        exact .inl hf
    · refine .inr fun q hq hlt => hf q ((parent_setFlag ..).trans hq) ?_
      rwa [length_setFlag]

theorem mark_marked (h : Heap) (bit : FlagBit) (first : Option Node)
    (hfuel : h.unmarked bit < fuel) : Marked bit h (h.mark bit fuel first) first := by
  induction fuel generalizing h first with
  | zero => omega
  | succ fuel ih =>
    cases first with
    | none => exact .refl h bit fun p hp _ => by cases hp
    | some p =>
      unfold mark
      split
      · next hf =>
        refine .refl h bit fun q hq _ => ?_
        cases hq
        exact hf
      · next hf =>
        rcases Nat.lt_or_ge p h.nodes.length with hp | hp
        · have hdrop := h.unmarked_setFlag hp (Bool.eq_false_iff.2 hf)
          exact (ih (h.setFlag p bit true) (h.get p).parent (by omega)).step
        · have hnone : (h.get p).parent = none := by rw [get_of_le h hp]
          have hsame : h.setFlag p bit true = h := by
            simp only [setFlag, modify, List.modify_eq_self hp]
          rw [hnone, hsame]
          have hmark : mark bit fuel h none = h := by cases fuel <;> rfl
          rw [hmark]
          refine .refl h bit fun q hq hlt => ?_
          cases hq
          omega

theorem unmarked_le (h : Heap) (bit : FlagBit) : h.unmarked bit ≤ h.nodes.length :=
  List.countP_le_length

/-- Where both tests of `add_flags` hold and the node is no error, only the first one is acted
upon. -/
def Mixed (h : Heap) (n : Node) : Prop :=
  (h.get n).type ≠ .error ∧ h.flag n .error = true ∧
    ((h.get n).type = .lift ∨ h.flag n .lift = true)

def ErrorsPropagate (h : Heap) : Prop :=
  ∀ c p, (h.get c).parent = some p → p < h.nodes.length ∧
    ((h.get c).type = .error ∨ h.flag c .error = true → h.flag p .error = true)

/-- Errors pass their flag on to every parent, and lifts to the parents of nodes that are no
errors. -/
def Propagated (h : Heap) : Prop :=
  ∀ c p, (h.get c).parent = some p → p < h.nodes.length ∧
    ((h.get c).type = .error ∨ h.flag c .error = true → h.flag p .error = true) ∧
      ((h.get c).type ≠ .error → (h.get c).type = .lift ∨ h.flag c .lift = true →
        h.flag p .lift = true)

/-- The states before and after a node gets a parent. -/
structure Adopted (h h' : Heap) (p n : Node) : Prop where
  length : h'.nodes.length = h.nodes.length
  type : ∀ m, (h'.get m).type = (h.get m).type
  children : ∀ m, (h'.get m).children = (h.get m).children
  parent : ∀ m, (h'.get m).parent =
    if n = m ∧ n < h.nodes.length then some p else (h.get m).parent
  mono : ∀ m b, h.flag m b = true → h'.flag m b = true
  up : ∀ m b, h'.flag m b = true → h.flag m b = true ∨
    ∀ q, (h'.get m).parent = some q → q < h.nodes.length → h'.flag q b = true
  error : (h.get n).type = .error ∨ h.flag n .error = true → n < h.nodes.length →
    p < h.nodes.length → h'.flag p .error = true
  lift : (h.get n).type ≠ .error → h.flag n .error = false →
    (h.get n).type = .lift ∨ h.flag n .lift = true → n < h.nodes.length →
      p < h.nodes.length → h'.flag p .lift = true

theorem Marked.adopted {h h' : Heap}
    (hm : Marked bit (h.setParent n (some p)) h' ((h.setParent n (some p)).get n).parent)
    (hbit : bit = .error ∧ ((h.get n).type = .error ∨ h.flag n .error = true) ∨
      bit = .lift ∧ (h.get n).type ≠ .error ∧ h.flag n .error = false) : Adopted h h' p n := by
  have hlen : (h.setParent n (some p)).nodes.length = h.nodes.length := length_setParent ..
  have hmono : ∀ m b, h.flag m b = true → h'.flag m b = true := by
    intro m b hf
    by_cases hb : b = bit
    · subst b
      exact hm.mono m ((flag_setParent ..).trans hf)
    · rw [hm.other m b hb, flag_setParent, hf]
  have hstart : n < h.nodes.length → p < h.nodes.length → h'.flag p bit = true := by
    intro hn hp
    refine hm.start p ?_ (hlen ▸ hp)
    rw [parent_setParent, if_pos ⟨rfl, hn⟩]
  refine ⟨hm.length.trans hlen, fun m => (hm.type m).trans (type_setParent ..),
    fun m => (hm.children m).trans (children_setParent ..),
    fun m => (hm.parent m).trans (parent_setParent ..), hmono, fun m b hf => ?_, ?_, ?_⟩
  · by_cases hb : b = bit
    · subst b
      refine (hm.up m hf).imp (fun hf => (flag_setParent ..).symm.trans hf) fun hup q hq hlt => ?_
      exact hup q ((hm.parent m).symm.trans hq) (hlen ▸ hlt)
    · rw [hm.other m b hb, flag_setParent] at hf
      exact .inl hf
  · intro herr hn hp
    rcases hbit with ⟨rfl, -⟩ | ⟨rfl, ht, hf⟩
    · exact hstart hn hp
    · rcases herr with herr | herr
      · exact absurd herr ht
      · exact absurd herr (Bool.eq_false_iff.1 hf)
  · intro ht hf _ hn hp
    rcases hbit with ⟨rfl, herr⟩ | ⟨rfl, -⟩
    · rcases herr with herr | herr
      · exact absurd herr ht
      · exact absurd herr (Bool.eq_false_iff.1 hf)
    · exact hstart hn hp

theorem adopt_adopted (h : Heap) (p n : Node) : Adopted h (h.adopt p n) p n := by
  have hfuel : ∀ bit, (h.setParent n (some p)).unmarked bit <
      (h.setParent n (some p)).nodes.length + 1 := fun bit =>
    Nat.lt_succ_of_le (unmarked_le _ bit)
  have hmarked : ∀ bit, Marked bit (h.setParent n (some p)) _ _ := fun bit =>
    mark_marked _ bit ((h.setParent n (some p)).get n).parent (hfuel bit)
  unfold adopt addFlags
  simp only [type_setParent, flag_setParent]
  split
  · next herr => exact (hmarked .error).adopted (.inl ⟨rfl, herr⟩)
  · next herr =>
    rw [not_or, Bool.not_eq_true] at herr
    split
    · exact (hmarked .lift).adopted (.inr ⟨rfl, herr⟩)
    · next hlift =>
      rw [not_or, Bool.not_eq_true] at hlift
      refine ⟨length_setParent .., fun m => type_setParent .., fun m => children_setParent ..,
        fun m => parent_setParent .., fun m b hf => (flag_setParent ..).trans hf,
        fun m b hf => .inl ((flag_setParent ..).symm.trans hf), fun h' => ?_, fun _ _ h' => ?_⟩
      · rcases h' with h' | h'
        · exact absurd h' herr.1
        · exact absurd h' (Bool.eq_false_iff.1 herr.2)
      · rcases h' with h' | h'
        · exact absurd h' hlift.1
        · exact absurd h' (Bool.eq_false_iff.1 hlift.2)

theorem ErrorsPropagate.adopt (h : ErrorsPropagate heap) (hp : p < heap.nodes.length) (n : Node) :
    ErrorsPropagate (heap.adopt p n) := by
  have ha := heap.adopt_adopted p n
  intro c q hq
  have hparent := ha.parent c
  rw [ha.length, ha.type]
  by_cases hn : n = c ∧ n < heap.nodes.length
  · obtain ⟨rfl, hn'⟩ := hn
    rw [if_pos ⟨rfl, hn'⟩, hq] at hparent
    obtain rfl := Option.some.inj hparent
    refine ⟨hp, ?_⟩
    rintro (herr | herr)
    · exact ha.error (.inl herr) hn' hp
    · rcases ha.up n .error herr with herr | hup
      · exact ha.error (.inr herr) hn' hp
      · exact hup q hq hp
  · rw [if_neg hn] at hparent
    obtain ⟨hlt, herror⟩ := h c q (hparent ▸ hq)
    refine ⟨hlt, ?_⟩
    rintro (herr | herr)
    · exact ha.mono q .error (herror (.inl herr))
    · rcases ha.up c .error herr with herr | hup
      · exact ha.mono q .error (herror (.inr herr))
      · exact hup q hq hlt

theorem Propagated.errors (h : Propagated heap) : ErrorsPropagate heap := by
  intro c p hp
  obtain ⟨hlt, herror, -⟩ := h c p hp
  exact ⟨hlt, herror⟩

/-- A node that is not mixed brings its flags to its new ancestors. -/
theorem Propagated.adopt (h : Propagated heap) (hmix : ¬ heap.Mixed n)
    (hp : p < heap.nodes.length) : Propagated (heap.adopt p n) := by
  have ha := heap.adopt_adopted p n
  intro c q hq
  have hparent := ha.parent c
  obtain ⟨hlt, herror⟩ := h.errors.adopt hp n c q hq
  refine ⟨hlt, herror, ?_⟩
  rw [ha.type]
  by_cases hn : n = c ∧ n < heap.nodes.length
  · obtain ⟨rfl, hn'⟩ := hn
    rw [if_pos ⟨rfl, hn'⟩, hq] at hparent
    obtain rfl := Option.some.inj hparent
    intro ht hlift
    have hnew : (heap.get n).type = .lift ∨ heap.flag n .lift = true →
        (heap.adopt q n).flag q .lift = true := fun hlift =>
      ha.lift ht (Bool.eq_false_iff.2 fun herr => hmix ⟨ht, herr, hlift⟩) hlift hn' hp
    rcases hlift with hlift | hlift
    · exact hnew (.inl hlift)
    · rcases ha.up n .lift hlift with hlift | hup
      · exact hnew (.inr hlift)
      · exact hup q hq hp
  · rw [if_neg hn] at hparent
    obtain ⟨hlt, -, hlift⟩ := h c q (hparent ▸ hq)
    rintro ht (hl | hl)
    · exact ha.mono q .lift (hlift ht (.inl hl))
    · rcases ha.up c .lift hl with hl | hup
      · exact ha.mono q .lift (hlift ht (.inr hl))
      · exact hup q hq hlt

end Heap

end Trieste
