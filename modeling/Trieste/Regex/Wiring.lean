import Trieste.Regex.Compiled

namespace Trieste.Regex
set_option autoImplicit true
open Library Relation

def dangles (stack : List Frag) : List Slot := stack.flatMap Frag.dangling

theorem dangles_cons (f : Frag) (stack : List Frag) :
    dangles (f :: stack) = f.dangling ++ dangles stack := List.flatMap_cons

def Joined (states : List StateDef) (stack : List Frag) (d : StateDef) (slot : Slot) : Prop :=
  (∃ t, d.get slot.alt = some t ∧ t < states.length) ∨ slot ∈ dangles stack

/-- What holds of the states between two tokens; where `proper`, a `Split` is never a token. -/
structure Wired (proper : Prop) (states : List StateDef) (stack : List Frag) : Prop where
  accept : ∃ d : StateDef, states[acceptState]? = some d ∧ d.next = none ∧ d.nextAlt = none
  starts : ∀ f ∈ stack, f.start < states.length
  slots : ∀ slot ∈ dangles stack, slot.state ≠ acceptState ∧ slot.state < states.length
  next : ∀ (q : State) (d : StateDef), states[q]? = some d → q ≠ acceptState →
    Joined states stack d ⟨q, false⟩
  alt_lt : ∀ (q : State) (d : StateDef) (t : State), states[q]? = some d → d.nextAlt = some t →
    t < states.length
  plain : ∀ (q : State) (d : StateDef), states[q]? = some d → d.label ≠ split →
    d.nextAlt = none ∧ ⟨q, true⟩ ∉ dangles stack
  choice : proper → ∀ (q : State) (d : StateDef), states[q]? = some d → d.label = split →
    Joined states stack d ⟨q, true⟩

theorem StateDef.get_patched (d : StateDef) (targets : List Slot) (q target : State) (alt : Bool) :
    (d.patched targets q target).get alt =
      if ⟨q, alt⟩ ∈ targets then some target else d.get alt := by
  cases alt <;> rfl

namespace Wired
variable {proper : Prop} {states : List StateDef} {stack stack' : List Frag}

/-- Slots that are patched no longer dangle. -/
theorem patch {targets : List Slot} (h : Wired proper states stack)
    (hstarts : ∀ f ∈ stack', f.start < states.length)
    (htargets : ∀ slot ∈ targets, slot ∈ dangles stack)
    (hstack : ∀ slot ∈ dangles stack', slot ∈ dangles stack)
    (hsplit : ∀ slot ∈ dangles stack, slot ∈ targets ∨ slot ∈ dangles stack')
    (htarget : target < states.length) :
    Wired proper (patchStates states targets target) stack' := by
  have hat : ∀ {q : State} {d' : StateDef}, (patchStates states targets target)[q]? = some d' →
      ∃ d, states[q]? = some d ∧ d' = d.patched targets q target := by
    intro q d' hd
    rw [getElem?_patchStates, Option.map_eq_some_iff] at hd
    obtain ⟨d, hd, rfl⟩ := hd
    exact ⟨d, hd, rfl⟩
  have hjoined : ∀ {d slot}, Joined states stack d slot →
      Joined (patchStates states targets target) stack' (d.patched targets slot.state target)
        slot := by
    intro d slot hj
    rw [Joined, StateDef.get_patched, length_patchStates]
    by_cases hs : slot ∈ targets
    · exact .inl ⟨target, if_pos hs, htarget⟩
    · rcases hj with ⟨t, ht, hlt⟩ | hj
      · exact .inl ⟨t, (if_neg hs).trans ht, hlt⟩
      · exact .inr ((hsplit slot hj).resolve_left hs)
  constructor
  · obtain ⟨d, hd, hnext, halt⟩ := h.accept
    refine ⟨d, ?_, hnext, halt⟩
    rw [getElem?_patchStates, hd]
    have hdisjoint : ∀ slot ∈ targets, slot.state ≠ acceptState :=
      fun slot hs => (h.slots slot (htargets slot hs)).1
    exact congrArg some (d.patched_of_disjoint target hdisjoint)
  · rw [length_patchStates]
    exact hstarts
  · rw [length_patchStates]
    exact fun slot hs => h.slots slot (hstack slot hs)
  · intro q d' hd hq
    obtain ⟨d, hold, rfl⟩ := hat hd
    exact hjoined (h.next q d hold hq)
  · intro q d' t hd ht
    obtain ⟨d, hold, rfl⟩ := hat hd
    rw [length_patchStates]
    have hget := d.get_patched targets q target true
    change (d.patched targets q target).nextAlt = _ at hget
    rw [hget] at ht
    split at ht
    · cases ht
      exact htarget
    · exact h.alt_lt q d t hold ht
  · intro q d' hd hl
    obtain ⟨d, hold, rfl⟩ := hat hd
    obtain ⟨hnone, hnot⟩ := h.plain q d hold hl
    have hget := d.get_patched targets q target true
    refine ⟨?_, fun hs => hnot (hstack _ hs)⟩
    rw [if_neg fun hs => hnot (htargets _ hs)] at hget
    exact hget.trans hnone
  · intro hp q d' hd hl
    obtain ⟨d, hold, rfl⟩ := hat hd
    exact hjoined (h.choice hp q d hold hl)

theorem length_pos (h : Wired proper states stack) : acceptState < states.length := by
  obtain ⟨_, hd, -⟩ := h.accept
  exact (List.getElem?_eq_some_iff.1 hd).1

theorem restack (h : Wired proper states stack) (hstarts : ∀ f ∈ stack', f.start < states.length)
    (hiff : ∀ slot, slot ∈ dangles stack' ↔ slot ∈ dangles stack) : Wired proper states stack' := by
  change Wired proper (patchStates states [] acceptState) stack'
  apply h.patch hstarts
  · exact List.forall_mem_nil _
  · exact fun slot => (hiff slot).1
  · exact fun slot hs => .inr ((hiff slot).2 hs)
  · exact h.length_pos

/-- A state that is added may have slots of its own that dangle. -/
theorem create (h : Wired proper states stack) {d : StateDef} (added : List Slot)
    (hstarts : ∀ f ∈ stack', f.start < states.length + 1)
    (hstack : ∀ slot, slot ∈ dangles stack' ↔ slot ∈ dangles stack ∨ slot ∈ added)
    (hadded : ∀ slot ∈ added, slot.state = states.length)
    (hlt : ∀ alt t, d.get alt = some t → t < states.length)
    (hnext : d.next = none → ⟨states.length, false⟩ ∈ added)
    (hplain : d.label ≠ split → d.nextAlt = none ∧ ⟨states.length, true⟩ ∉ added)
    (hchoice : proper → d.label = split → d.nextAlt = none → ⟨states.length, true⟩ ∈ added) :
    Wired proper (states ++ [d]) stack' := by
  have hpos := h.length_pos
  have hat : ∀ {q : State} {d' : StateDef}, (states ++ [d])[q]? = some d' →
      states[q]? = some d' ∧ q < states.length ∨ q = states.length ∧ d' = d := by
    intro q d' hd
    rcases Nat.lt_trichotomy q states.length with hq | rfl | hq
    · rw [List.getElem?_append_left hq] at hd
      exact .inl ⟨hd, hq⟩
    · rw [List.getElem?_concat_length] at hd
      exact .inr ⟨rfl, (Option.some.inj hd).symm⟩
    · rw [List.getElem?_eq_none (by simp; omega)] at hd
      cases hd
  have hold : ∀ {d' slot}, Joined states stack d' slot → Joined (states ++ [d]) stack' d' slot := by
    intro d' slot hj
    rw [Joined, List.length_append]
    rcases hj with ⟨t, ht, hlt⟩ | hj
    · exact .inl ⟨t, ht, Nat.lt_succ_of_lt hlt⟩
    · exact .inr ((hstack slot).2 (.inl hj))
  have hnew : ∀ alt, (d.get alt = none → ⟨states.length, alt⟩ ∈ added) →
      Joined (states ++ [d]) stack' d ⟨states.length, alt⟩ := by
    intro alt hnone
    rw [Joined, List.length_append]
    cases hget : d.get alt with
    | none => exact .inr ((hstack _).2 (.inr (hnone hget)))
    | some t => exact .inl ⟨t, rfl, Nat.lt_succ_of_lt (hlt alt t hget)⟩
  have hfresh : ∀ {q alt}, q < states.length → ⟨q, alt⟩ ∉ added :=
    fun hq hs => Nat.ne_of_lt hq (hadded _ hs)
  constructor
  · obtain ⟨d', hd, hnone⟩ := h.accept
    exact ⟨d', (List.getElem?_append_left hpos).trans hd, hnone⟩
  · rw [List.length_append]
    exact hstarts
  · intro slot hs
    rw [List.length_append]
    rcases (hstack slot).1 hs with hs | hs
    · exact (h.slots slot hs).imp_right Nat.lt_succ_of_lt
    · rw [hadded slot hs]
      exact ⟨Nat.ne_of_gt hpos, Nat.lt_succ_self _⟩
  · intro q d' hd hq
    rcases hat hd with ⟨hd, -⟩ | ⟨rfl, rfl⟩
    · exact hold (h.next q d' hd hq)
    · exact hnew false hnext
  · intro q d' t hd ht
    rw [List.length_append]
    rcases hat hd with ⟨hd, -⟩ | ⟨rfl, rfl⟩
    · exact Nat.lt_succ_of_lt (h.alt_lt q d' t hd ht)
    · exact Nat.lt_succ_of_lt (hlt true t ht)
  · intro q d' hd hl
    rcases hat hd with ⟨hd, hq⟩ | ⟨rfl, rfl⟩
    · obtain ⟨hnone, hnot⟩ := h.plain q d' hd hl
      exact ⟨hnone, fun hs => ((hstack _).1 hs).elim hnot (hfresh hq)⟩
    · obtain ⟨hnone, hnot⟩ := hplain hl
      refine ⟨hnone, fun hs => ((hstack _).1 hs).elim (fun hs => ?_) hnot⟩
      exact Nat.lt_irrefl _ (h.slots _ hs).2
  · intro hp q d' hd hl
    rcases hat hd with ⟨hd, -⟩ | ⟨rfl, rfl⟩
    · exact hold (h.choice hp q d' hd hl)
    · exact hnew true (hchoice hp hl)

end Wired

/-- What a token does to a builder with room for it: it keeps the invariant, and it adds a state for
each call of `create_state`. -/
structure StepOk (proper : Prop) (b b' : Builder) (stack : List Frag) (calls : Nat) : Prop where
  wired : Wired proper b'.ownedStates stack
  length : b'.ownedStates.length = b.ownedStates.length + calls
  capacity : b'.capacity = b.capacity

theorem createState_room {b : Builder} (hroom : b.ownedStates.length < b.capacity) (label : Nat)
    (next nextAlt : Option State) : b.createState label next nextAlt =
      ({ b with ownedStates := b.ownedStates ++ [{ label, next, nextAlt }] },
        b.ownedStates.length) := if_neg (Nat.not_le.2 hroom)

/-- The calls of `create_state` for a token. -/
def tokenCalls (stack : List Frag) (label : Nat) : Nat :=
  if label = catenation then 0
  else if label = alternation then if stack.length < 2 then 0 else 1
  else if (quantifier? label).isSome then if stack = [] then 0 else 1
  else if captureGroup ≤ label ∧ label < captureGroup + maxCaptures then
    if stack = [] then 0 else 2
  else 1

theorem tokenCalls_le (stack : List Frag) (label : Nat) : tokenCalls stack label ≤ 2 := by
  unfold tokenCalls
  repeat' split
  all_goals decide

section Tokens
variable {proper : Prop} {b : Builder} {stack : List Frag}

theorem catenation_ok (h : Wired proper b.ownedStates (right :: left :: stack)) :
    StepOk proper b (b.patch left.dangling right.start)
      (⟨left.start, right.dangling⟩ :: stack) 0 := by
  obtain ⟨hright, hleft, hstarts⟩ := (List.forall_mem_cons.1 h.starts).imp_right
    List.forall_mem_cons.1
  refine ⟨h.patch ?_ ?_ ?_ ?_ hright, length_patchStates .., rfl⟩
  · exact List.forall_mem_cons.2 ⟨hleft, hstarts⟩
  all_goals
    intro slot
    simp only [dangles_cons, List.mem_append]
    tauto

theorem alternation_ok (h : Wired proper b.ownedStates (right :: left :: stack))
    (hroom : b.ownedStates.length < b.capacity) :
    StepOk proper b (b.createState split (some left.start) (some right.start)).1
      (⟨(b.createState split (some left.start) (some right.start)).2,
        left.dangling ++ right.dangling⟩ :: stack) 1 := by
  obtain ⟨hright, hleft, hstarts⟩ := (List.forall_mem_cons.1 h.starts).imp_right
    List.forall_mem_cons.1
  rw [createState_room hroom]
  refine ⟨h.create [] ?_ ?_ ?_ ?_ ?_ ?_ ?_, List.length_append, rfl⟩
  · exact List.forall_mem_cons.2
      ⟨Nat.lt_succ_self _, fun f hf => Nat.lt_succ_of_lt (hstarts f hf)⟩
  · intro slot
    simp only [dangles_cons, List.mem_append, List.not_mem_nil, or_false]
    tauto
  · exact List.forall_mem_nil _
  · intro alt t ht
    cases alt with
    | false =>
      cases ht
      exact hleft
    | true =>
      cases ht
      exact hright
  · exact fun hnone => absurd hnone (Option.some_ne_none _)
  · exact fun hl => absurd rfl hl
  · exact fun _ _ hnone => absurd hnone (Option.some_ne_none _)

theorem createSplit_ok (h : Wired proper b.ownedStates (operand :: stack))
    (hroom : b.ownedStates.length < b.capacity) (isLazy : Bool) :
    (createSplit b operand.start isLazy).2 = b.ownedStates.length ∧
      StepOk proper b (createSplit b operand.start isLazy).1
        (⟨b.ownedStates.length, [⟨b.ownedStates.length, !isLazy⟩]⟩ :: operand :: stack) 1 := by
  obtain ⟨hoperand, hstarts⟩ := List.forall_mem_cons.1 h.starts
  have hsplit : createSplit b operand.start isLazy =
      ({ b with ownedStates := b.ownedStates ++ [quantifierSplit operand.start isLazy] },
        b.ownedStates.length) := by
    cases isLazy with
    | false => exact createState_room hroom _ _ _
    | true => exact createState_room hroom _ _ _
  rw [hsplit]
  refine ⟨rfl, h.create [⟨b.ownedStates.length, !isLazy⟩] ?_ ?_ ?_ ?_ ?_ ?_ ?_,
    List.length_append, rfl⟩
  · refine List.forall_mem_cons.2 ⟨Nat.lt_succ_self _, fun f hf => Nat.lt_succ_of_lt ?_⟩
    exact h.starts f hf
  · intro slot
    simp only [dangles_cons, List.mem_append]
    tauto
  · intro slot hs
    rw [List.mem_singleton.1 hs]
  · intro alt t ht
    cases alt <;> cases isLazy <;> cases ht <;> exact hoperand
  · intro hnone
    cases isLazy with
    | false => cases hnone
    | true => exact List.mem_singleton.2 rfl
  · exact fun hl => absurd rfl hl
  · intro _ _ hnone
    cases isLazy with
    | false => exact List.mem_singleton.2 rfl
    | true => cases hnone

theorem quantifier_ok (h : Wired proper b.ownedStates (operand :: stack))
    (hroom : b.ownedStates.length < b.capacity) (kind : QuantifierKind) (isLazy : Bool) :
    StepOk proper b (buildQuantifier b (operand :: stack) kind isLazy).1
      (buildQuantifier b (operand :: stack) kind isLazy).2 1 := by
  obtain ⟨hstate, hwired, hlength, hcapacity⟩ := createSplit_ok h hroom isLazy
  have hlt : b.ownedStates.length < (createSplit b operand.start isLazy).1.ownedStates.length := by
    rw [hlength]
    exact Nat.lt_succ_self _
  obtain ⟨-, hoperand, hstarts⟩ := (List.forall_mem_cons.1 hwired.starts).imp_right
    List.forall_mem_cons.1
  have hpatch : ∀ start, start < (createSplit b operand.start isLazy).1.ownedStates.length →
      StepOk proper b ((createSplit b operand.start isLazy).1.patch operand.dangling
        b.ownedStates.length) (⟨start, [⟨b.ownedStates.length, !isLazy⟩]⟩ :: stack) 1 := by
    intro start hstart
    refine ⟨hwired.patch ?_ ?_ ?_ ?_ hlt, (length_patchStates ..).trans hlength, hcapacity⟩
    · exact List.forall_mem_cons.2 ⟨hstart, hstarts⟩
    all_goals
      intro slot
      simp only [dangles_cons, List.mem_append]
      tauto
  rw [buildQuantifier]
  dsimp only
  rw [hstate]
  cases kind with
  | zeroOrOne =>
    refine ⟨hwired.restack (List.forall_mem_cons.2 ⟨hlt, hstarts⟩) ?_, hlength, hcapacity⟩
    intro slot
    simp only [dangles_cons, List.mem_append]
    tauto
  | zeroOrMore => exact hpatch _ hlt
  | oneOrMore => exact hpatch _ hoperand

theorem literal_ok (h : Wired proper b.ownedStates stack)
    (hroom : b.ownedStates.length < b.capacity) (hlabel : proper → label ≠ split) :
    StepOk proper b (b.createState label none none).1
      (⟨b.ownedStates.length, [⟨b.ownedStates.length, false⟩]⟩ :: stack) 1 := by
  rw [createState_room hroom]
  refine ⟨h.create [⟨b.ownedStates.length, false⟩] ?_ ?_ ?_ ?_ ?_ ?_ ?_, List.length_append, rfl⟩
  · exact List.forall_mem_cons.2
      ⟨Nat.lt_succ_self _, fun f hf => Nat.lt_succ_of_lt (h.starts f hf)⟩
  · intro slot
    simp only [dangles_cons, List.mem_append]
    tauto
  · intro slot hs
    rw [List.mem_singleton.1 hs]
  · intro alt t ht
    cases alt <;> cases ht
  · exact fun _ => List.mem_singleton.2 rfl
  · refine fun _ => ⟨rfl, fun hs => ?_⟩
    cases List.mem_singleton.1 hs
  · exact fun hp hl => absurd hl (hlabel hp)

theorem capture_ok (h : Wired proper b.ownedStates (operand :: stack))
    (hroom : b.ownedStates.length + 2 ≤ b.capacity) (hclose : close ≠ split)
    (hopen : opening ≠ split) :
    let closed := b.createState close none none
    let opened := (closed.1.patch operand.dangling closed.2).createState opening
      (some operand.start) none
    StepOk proper b opened.1 (⟨opened.2, [⟨closed.2, false⟩]⟩ :: stack) 2 := by
  intro closed opened
  have hclosed : closed.2 = b.ownedStates.length := by
    change (b.createState close none none).2 = _
    rw [createState_room (by omega)]
  subst opened
  rw [hclosed]
  generalize hb₁ : closed.1.patch operand.dangling b.ownedStates.length = b₁
  obtain ⟨hwired, hlength, hcapacity⟩ := literal_ok h (by omega) fun _ => hclose
  obtain ⟨hstart, hoperand, hstarts⟩ := (List.forall_mem_cons.1 hwired.starts).imp_right
    List.forall_mem_cons.1
  have hlength₁ : b₁.ownedStates.length = b.ownedStates.length + 1 := by
    rw [← hb₁]
    exact (length_patchStates ..).trans hlength
  have hwired₁ : Wired proper b₁.ownedStates
      (⟨operand.start, [⟨b.ownedStates.length, false⟩]⟩ :: stack) := by
    rw [← hb₁]
    refine hwired.patch ?_ ?_ ?_ ?_ hstart
    · exact List.forall_mem_cons.2 ⟨hoperand, hstarts⟩
    all_goals
      intro slot
      simp only [dangles_cons, List.mem_append]
      tauto
  have hcapacity₁ : b₁.capacity = b.capacity := by
    rw [← hb₁]
    exact hcapacity
  have hroom₁ : b₁.ownedStates.length < b₁.capacity := by
    rw [hlength₁, hcapacity₁]
    exact hroom
  rw [createState_room hroom₁]
  refine ⟨hwired₁.create [] ?_ ?_ ?_ ?_ ?_ ?_ ?_, ?_, hcapacity₁⟩
  · exact List.forall_mem_cons.2 ⟨Nat.lt_succ_self _,
      fun f hf => Nat.lt_succ_of_lt (hwired₁.starts f (.tail _ hf))⟩
  · intro slot
    simp only [dangles_cons, List.not_mem_nil, or_false]
  · exact List.forall_mem_nil _
  · intro alt t ht
    have hfirst := (List.forall_mem_cons.1 hwired₁.starts).1
    cases alt with
    | false =>
      cases ht
      exact hfirst
    | true => cases ht
  · exact fun hnone => absurd hnone (Option.some_ne_none _)
  · exact fun _ => ⟨rfl, List.not_mem_nil⟩
  · exact fun _ hl => absurd hl hopen
  · rw [List.length_append, hlength₁]
    rfl

theorem setError_states (b : Builder) (code : ErrorCode) :
    (b.setError code).ownedStates = b.ownedStates ∧ (b.setError code).capacity = b.capacity := by
  unfold Builder.setError
  split
  · exact ⟨rfl, rfl⟩
  · exact ⟨rfl, rfl⟩

theorem setError_ok (h : Wired proper b.ownedStates stack) (code : ErrorCode) :
    StepOk proper b (b.setError code) stack 0 := by
  obtain ⟨hstates, hcapacity⟩ := setError_states b code
  refine ⟨?_, congrArg List.length hstates, hcapacity⟩
  rw [hstates]
  exact h

theorem capture_label (hlo : captureGroup ≤ label) (hhi : label < captureGroup + maxCaptures) :
    captureClose + (label - captureGroup) ≠ split ∧
      captureOpen + (label - captureGroup) ≠ split := by
  have hidx : label - captureGroup < maxCaptures := by omega
  have hsplit : ∀ idx < maxCaptures, captureClose + idx ≠ split ∧ captureOpen + idx ≠ split := by
    decide
  exact hsplit _ hidx

theorem postfixToken_ok (h : Wired proper b.ownedStates stack)
    (hroom : b.ownedStates.length + 2 ≤ b.capacity) (hlabel : proper → label ≠ split) :
    ∃ stack', StepOk proper b (postfixToken b stack label).1 stack' (tokenCalls stack label) ∧
      ∀ s, (postfixToken b stack label).2 = some s → s = stack' := by
  have hlt : b.ownedStates.length < b.capacity := by omega
  unfold postfixToken tokenCalls
  split
  · cases stack with
    | nil => exact ⟨_, setError_ok h _, fun _ hs => by cases hs⟩
    | cons right stack =>
      cases stack with
      | nil => exact ⟨_, setError_ok h _, fun _ hs => by cases hs⟩
      | cons left stack => exact ⟨_, catenation_ok h, fun _ hs => (Option.some.inj hs).symm⟩
  split
  · cases stack with
    | nil => exact ⟨_, setError_ok h _, fun _ hs => by cases hs⟩
    | cons right stack =>
      cases stack with
      | nil => exact ⟨_, setError_ok h _, fun _ hs => by cases hs⟩
      | cons left stack =>
        have hstep := alternation_ok h hlt
        exact ⟨_, hstep, fun _ hs => (Option.some.inj hs).symm⟩
  cases hquantifier : quantifier? label with
  | some quantifier =>
    obtain ⟨kind, isLazy⟩ := quantifier
    cases stack with
    | nil =>
      have hstep : StepOk proper b (buildQuantifier b [] kind isLazy).1 [] 0 := setError_ok h _
      refine ⟨[], ?_, ?_⟩
      · dsimp only
        split <;> exact hstep
      · dsimp only
        intro s hs
        split at hs
        · exact (Option.some.inj hs).symm
        · cases hs
    | cons operand stack =>
      have hstep := quantifier_ok h hlt kind isLazy
      refine ⟨(buildQuantifier b (operand :: stack) kind isLazy).2, ?_, ?_⟩
      · dsimp only
        split <;> exact hstep
      · dsimp only
        intro s hs
        split at hs
        · exact (Option.some.inj hs).symm
        · cases hs
  | none =>
    dsimp only
    split
    · next hcapture =>
      cases stack with
      | nil => exact ⟨_, setError_ok h _, fun _ hs => by cases hs⟩
      | cons operand stack =>
        obtain ⟨hclose, hopen⟩ := capture_label hcapture.1 hcapture.2
        have hstep := capture_ok h hroom hclose hopen
        exact ⟨_, hstep, fun _ hs => (Option.some.inj hs).symm⟩
    · refine ⟨_, literal_ok h hlt hlabel, fun s hs => ?_⟩
      rw [createState_room hlt] at hs
      exact (Option.some.inj hs).symm

end Tokens

/-- The calls of `create_state` in the loop of `postfix_to_nfa`. -/
def loopCalls (b : Builder) (stack : List Frag) : List Nat → Nat
  | [] => 0
  | label :: rest =>
    tokenCalls stack label +
      match postfixToken b stack label with
      | (b, some stack) => loopCalls b stack rest
      | (_, none) => 0

/-- The calls of `create_state` in the constructor, which makes the accept state first. -/
def createCalls (tokens : List Nat) : Nat :=
  1 + if tokens = [] ∨ maxStates < tokens.length then 0
    else loopCalls (acceptBuilder (2 * tokens.length + 1)) [] tokens

/-- The NFA of which this is the start has no edge that dangles. -/
structure NfaBuilt (proper : Prop) (b b' : Builder) (start : State) (calls : Nat) : Prop where
  length : b'.ownedStates.length = b.ownedStates.length + calls
  wired : ∃ stack, Wired proper b'.ownedStates stack ∧
    (start = acceptState ∨ stack = [] ∧ start < b'.ownedStates.length)

section Loop
variable {proper : Prop} {b : Builder} {stack : List Frag}

theorem StepOk.built (h : StepOk proper b b' stack calls) :
    NfaBuilt proper b b' acceptState calls :=
  ⟨h.length, stack, h.wired, .inl rfl⟩

theorem postfixLoop_ok (h : Wired proper b.ownedStates stack)
    (hroom : b.ownedStates.length + 2 * tokens.length ≤ b.capacity)
    (hlabels : proper → split ∉ tokens) : loopCalls b stack tokens ≤ 2 * tokens.length ∧
      NfaBuilt proper b (postfixLoop b stack tokens).1 (postfixLoop b stack tokens).2
        (loopCalls b stack tokens) := by
  induction tokens generalizing b stack with
  | nil =>
    refine ⟨Nat.le_refl 0, ?_⟩
    cases stack with
    | nil => exact (setError_ok h _).built
    | cons frag stack =>
      cases stack with
      | nil =>
        have hstart := h.starts frag (.head _)
        refine ⟨length_patchStates .., [], h.patch ?_ ?_ ?_ ?_ h.length_pos, .inr ⟨rfl, ?_⟩⟩
        · exact List.forall_mem_nil _
        · exact fun slot hs => List.mem_append_left _ hs
        · exact fun slot hs => absurd hs List.not_mem_nil
        · intro slot hs
          rw [dangles_cons, List.mem_append] at hs
          exact hs
        · exact (length_patchStates ..).symm ▸ hstart
      | cons frag' stack => exact (setError_ok h _).built
  | cons label tokens ih =>
    rw [List.length_cons] at hroom ⊢
    have htwo := tokenCalls_le stack label
    obtain ⟨stack', hstep, hstack⟩ := postfixToken_ok h (by omega)
      fun hp hl => hlabels hp (hl ▸ .head _)
    rw [postfixLoop, loopCalls]
    rcases htoken : postfixToken b stack label with ⟨b', left⟩
    rw [htoken] at hstep hstack
    cases left with
    | none =>
      dsimp only
      exact ⟨by omega, hstep.built⟩
    | some left =>
      dsimp only at hstep ⊢
      obtain rfl : left = stack' := hstack left rfl
      have hlength := hstep.length
      have hcapacity := hstep.capacity
      obtain ⟨hcalls, hlen, hwired⟩ := ih hstep.wired (by omega)
        fun hp hl => hlabels hp (.tail _ hl)
      refine ⟨by omega, ?_, hwired⟩
      rw [← Nat.add_assoc, ← hlength]
      exact hlen

theorem wired_accept (capacity : Nat) : Wired proper (acceptBuilder capacity).ownedStates [] := by
  have hat : ∀ {q : State} {d : StateDef}, (acceptBuilder capacity).ownedStates[q]? = some d →
      q = acceptState ∧ d = { label := matchLabel } := by
    intro q d hd
    obtain ⟨hq, hd⟩ := List.getElem?_eq_some_iff.1 hd
    obtain rfl : q = 0 := Nat.lt_one_iff.1 hq
    exact ⟨rfl, hd.symm⟩
  have hmatch : matchLabel ≠ split := by decide
  constructor
  · exact ⟨_, rfl, rfl, rfl⟩
  · exact List.forall_mem_nil _
  · exact List.forall_mem_nil _
  · exact fun q d hd hq => absurd (hat hd).1 hq
  · intro q d t hd ht
    rw [(hat hd).2] at ht
    cases ht
  · intro q d hd _
    rw [(hat hd).2]
    exact ⟨rfl, List.not_mem_nil⟩
  · intro _ q d hd hl
    rw [(hat hd).2] at hl
    exact absurd hl hmatch

theorem postfixToNfa_ok (tokens : List Nat) (hlabels : proper → split ∉ tokens) :
    let b := acceptBuilder (2 * tokens.length + 1)
    createCalls tokens ≤ 2 * tokens.length + 1 ∧
      NfaBuilt proper b (postfixToNfa b tokens).1 (postfixToNfa b tokens).2
        (createCalls tokens - 1) := by
  intro b
  have h : Wired proper b.ownedStates [] := wired_accept _
  rw [createCalls, Nat.add_sub_cancel_left, postfixToNfa]
  by_cases hnil : tokens = []
  · rw [if_pos (.inl hnil), if_pos hnil]
    exact ⟨by omega, rfl, [], h, .inl rfl⟩
  rw [if_neg hnil]
  by_cases hlarge : maxStates < tokens.length
  · rw [if_pos (.inr hlarge), if_pos hlarge]
    exact ⟨by omega, (setError_ok h _).built⟩
  · rw [if_neg (not_or.2 ⟨hnil, hlarge⟩), if_neg hlarge]
    obtain ⟨hcalls, hbuilt⟩ := postfixLoop_ok h (Nat.add_comm 1 _).le hlabels
    have hbound : loopCalls (acceptBuilder (2 * tokens.length + 1)) [] tokens ≤
        2 * tokens.length := hcalls
    exact ⟨by omega, hbuilt⟩

end Loop

namespace RegexEngine

theorem precompute_core (e : RegexEngine) :
    SameCore e.ownedStates e.precomputeEpsilonClosures.ownedStates := by
  by_cases hok : e.ok = true
  · by_cases h : e.precomputeEpsilonClosures.ok = true
    · exact (precompute_sound hok h).1
    · unfold precomputeEpsilonClosures at h ⊢
      simp only [hok, Bool.not_true, Bool.false_eq_true, if_false] at h ⊢
      split at h
      · rfl
      · exact absurd hok h
  · rw [precomputeEpsilonClosures, if_pos (by simpa using hok)]
    rfl

theorem compile_core (classes : List RuneClass) (n : Nat)
    (h : postfixToNfa (acceptBuilder (2 * tokens.length + 1)) tokens = (b, start)) :
    SameCore b.ownedStates (compile tokens classes n).ownedStates ∧
      (compile tokens classes n).startState = start := by
  rw [compile_eq classes n h]
  generalize he : (ofNfa b start classes n).detectConditionalStates = e
  obtain ⟨-, hstart, -⟩ := e.precompute_kept
  obtain ⟨-, hstart', -⟩ := e.precomputeEpsilonClosures.finalizeStates_kept
  refine ⟨?_, ?_⟩
  · have hcore := e.precompute_core.trans e.precomputeEpsilonClosures.finalizeStates_core
    subst he
    exact hcore
  · rw [hstart', hstart, ← he]
    rfl

end RegexEngine

def StateEdge (states : List StateDef) (s t : State) : Prop :=
  ∃ d, states[s]? = some d ∧ (d.next = some t ∨ d.nextAlt = some t)

/-- Where the edges of a state lead. -/
structure EdgesOk (tokens : List Nat) (states : List StateDef) (s : State) (d : StateDef) :
    Prop where
  accept : s = acceptState → d.next = none ∧ d.nextAlt = none
  next : s ≠ acceptState → ∃ t, d.next = some t ∧ t < states.length
  nextAlt : ∀ t, d.nextAlt = some t → t < states.length
  plain : d.label ≠ split → d.nextAlt = none
  choice : split ∉ tokens → d.label = split → d.nextAlt ≠ none

theorem Wired.edgesOk (h : Wired (split ∉ tokens) states []) (hd : states[s]? = some d) :
    EdgesOk tokens states s d where
  accept := by
    rintro rfl
    obtain ⟨d', hd', hnone⟩ := h.accept
    cases hd.symm.trans hd'
    exact hnone
  next hs := (h.next s d hd hs).resolve_right List.not_mem_nil
  nextAlt t := h.alt_lt s d t hd
  plain hl := (h.plain s d hd hl).1
  choice hp hl hnone := by
    obtain ⟨t, ht, -⟩ := (h.choice hp s d hd hl).resolve_right List.not_mem_nil
    exact absurd (hnone.symm.trans ht) (Option.some_ne_none t).symm

theorem SameCore.length_eq (h : SameCore states states') : states.length = states'.length := by
  have hlen := congrArg List.length h
  rwa [List.length_map, List.length_map] at hlen

theorem StateDef.core_eq {d d' : StateDef} (h : d.core = d'.core) :
    d.label = d'.label ∧ d.next = d'.next ∧ d.nextAlt = d'.nextAlt := by
  simpa [core] using h

theorem SameCore.stateEdge (h : SameCore states states') : StateEdge states = StateEdge states' := by
  funext s t
  refine propext (h.exists_iff (fun d d' hd => ?_) s)
  obtain ⟨-, hnext, halt⟩ := d.core_eq hd
  rw [hnext, halt]

theorem EdgesOk.congr (h : EdgesOk tokens states s d) (hd : d.core = d'.core)
    (hlen : states.length = states'.length) : EdgesOk tokens states' s d' := by
  obtain ⟨hlabel, hnext, halt⟩ := d.core_eq hd
  obtain ⟨haccept, hn, ha, hplain, hchoice⟩ := h
  rw [hlabel, halt] at hplain hchoice
  rw [hnext, halt] at haccept
  rw [hnext, hlen] at hn
  rw [halt, hlen] at ha
  exact ⟨haccept, hn, ha, hplain, hchoice⟩

theorem Wired.edgesOk_accept (h : Wired (split ∉ tokens) states stack) :
    ∃ d, states[acceptState]? = some d ∧ EdgesOk tokens states acceptState d := by
  obtain ⟨d, hd, hnext, halt⟩ := h.accept
  refine ⟨d, hd, fun _ => ⟨hnext, halt⟩, fun hs => absurd rfl hs, ?_, fun _ => halt, ?_⟩
  · intro t ht
    rw [halt] at ht
    cases ht
  · intro hp hl
    rcases h.choice hp acceptState d hd hl with ⟨t, ht, -⟩ | hslot
    · exact absurd (halt.symm.trans ht) (Option.some_ne_none t).symm
    · exact absurd rfl (h.slots _ hslot).1

theorem EdgesOk.lt (h : EdgesOk tokens states s d) (hedge : d.next = some t ∨ d.nextAlt = some t) :
    s ≠ acceptState ∧ t < states.length := by
  have hs : s ≠ acceptState := by
    intro hs
    obtain ⟨hnext, halt⟩ := h.accept hs
    rw [hnext, halt] at hedge
    rcases hedge with h | h
    all_goals cases h
  refine ⟨hs, ?_⟩
  rcases hedge with hnext | halt
  · obtain ⟨t', ht', hlt⟩ := h.next hs
    rw [hnext] at ht'
    cases ht'
    exact hlt
  · exact h.nextAlt t halt

theorem NfaBuilt.edgesOk (h : NfaBuilt (split ∉ tokens) b b' start calls)
    (hreach : ReflTransGen (StateEdge b'.ownedStates) start s) :
    ∃ d, b'.ownedStates[s]? = some d ∧ EdgesOk tokens b'.ownedStates s d := by
  obtain ⟨stack, hwired, rfl | ⟨rfl, hstart⟩⟩ := h.wired
  · -- nothing is reached from the accept state
    obtain ⟨d, hd, hok⟩ := hwired.edgesOk_accept
    rcases hreach.cases_head with rfl | ⟨t, ⟨d', hd', hedge⟩, -⟩
    · exact ⟨d, hd, hok⟩
    · cases hd.symm.trans hd'
      exact absurd rfl (hok.lt hedge).1
  · have hall : ∀ {q}, q < b'.ownedStates.length →
        ∃ d, b'.ownedStates[q]? = some d ∧ EdgesOk tokens b'.ownedStates q d := by
      intro q hq
      exact ⟨_, List.getElem?_eq_getElem hq, hwired.edgesOk (List.getElem?_eq_getElem hq)⟩
    apply hall
    induction hreach with
    | refl => exact hstart
    | tail _ hedge ih =>
      obtain ⟨d, hd, hok⟩ := hall ih
      obtain ⟨d', hd', hedge⟩ := hedge
      cases hd.symm.trans hd'
      exact (hok.lt hedge).2

/-- The storage of the constructor suffices, and the edges of the states that it can reach lead to
states that it owns. -/
theorem state_storage (tokens : List Nat) (classes : List RuneClass) (n : Nat) :
    let e := RegexEngine.compile tokens classes n
    createCalls tokens ≤ 2 * tokens.length + 1 ∧ e.ownedStates.length = createCalls tokens ∧
      ∀ s, ReflTransGen (StateEdge e.ownedStates) e.startState s →
        ∃ d, e.ownedStates[s]? = some d ∧ EdgesOk tokens e.ownedStates s d := by
  intro e
  obtain ⟨hcalls, hbuilt⟩ := postfixToNfa_ok tokens
    (id : split ∉ tokens → split ∉ tokens)
  rcases hnfa : postfixToNfa (acceptBuilder (2 * tokens.length + 1)) tokens with ⟨b, start⟩
  rw [hnfa] at hbuilt
  obtain ⟨hcore, hstart⟩ := RegexEngine.compile_core classes n hnfa
  have hlen := hcore.length_eq
  refine ⟨hcalls, ?_, fun s hreach => ?_⟩
  · have hone : 1 ≤ createCalls tokens := Nat.le_add_right 1 _
    rw [← hlen, hbuilt.length]
    exact Nat.add_sub_cancel' hone
  · rw [hstart, ← hcore.stateEdge] at hreach
    obtain ⟨d, hd, hok⟩ := hbuilt.edgesOk hreach
    obtain ⟨d', hd', hcore'⟩ := (hcore.exists_iff (F := fun d' => d.core = d'.core)
      (fun d₁ d₂ h => by rw [h]) s).1 ⟨d, hd, rfl⟩
    exact ⟨d', hd', hok.congr hcore' hlen⟩

/-- The state for a literal has no second edge. -/
theorem literal_edge_null :
    let e := RegexEngine.compile [0x61] [] 0
    ¬ ∀ s, ReflTransGen (StateEdge e.ownedStates) e.startState s → s ≠ acceptState →
      ∀ d, e.ownedStates[s]? = some d → d.next ≠ none ∧ d.nextAlt ≠ none := by
  intro e h
  have hstart : e.startState ≠ acceptState := by decide +kernel
  have hstate : ∃ d, e.ownedStates[e.startState]? = some d ∧ d.nextAlt = none := by decide +kernel
  obtain ⟨d, hd, hnone⟩ := hstate
  exact (h _ .refl hstart d hd).2 hnone

end Trieste.Regex
