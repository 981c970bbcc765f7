import Trieste.Json.Loading

namespace Trieste.Json
set_option autoImplicit true
open Library Relation Heap

namespace Patch
section Patch
variable [BEq α] (std : StdLib α)

def Op.Transfers (op : Op) (take : Action) (s : Store) (document : Node) : Prop :=
  op.path.view = op.from.view ∨
    ({ path := op.from, action := take } : Operation).Defined std s document ∧
      ∀ s' existing, ({ path := op.from, action := take } : Operation).run std s document =
          some (s', existing) → s'.isError existing = false →
        ({ path := op.path, action := .insert, value := some existing } : Operation).Defined std s'
          document

/-- The pointers of the operation are defined where they are followed. -/
def Op.Defined (op : Op) (s : Store) (document : Node) : Prop :=
  match op.type with
  | .test => ({ path := op.path, action := .compare, value := op.value } : Operation).Defined std s
      document
  | .add => ({ path := op.path, action := .insert, value := op.value } : Operation).Defined std s
      document
  | .remove => ({ path := op.path, action := .remove } : Operation).Defined std s document
  | .replace => ({ path := op.path, action := .replace, value := op.value } : Operation).Defined std
      s document
  | .move => op.Transfers std .remove s document
  | .copy => op.Transfers std .read s document
  | .error => True

/-- The first loop comes to a test. -/
inductive Reads (document : Node) : Store → List Node → Store → Op → Prop
  | here (hop : Op.fromNode std s node = some (s', op)) (htest : op.type = .test) :
      Reads document s (node :: rest) s' op
  | passed (hop : Op.fromNode std s node = some (s₁, op)) (htest : op.type = .test)
      (happly : op.apply std s₁ document = some (s₂, result)) (hno : s₂.isError result = false)
      (h : Reads document s₂ rest s' op') : Reads document s (node :: rest) s' op'
  | later (hop : Op.fromNode std s node = some (s₁, op)) (hedit : op.type ∉ [.error, .test])
      (h : Reads document s₁ rest s' op') : Reads document s (node :: rest) s' op'

/-- The second loop comes to an operation. -/
inductive Applies : Store → Node → List Op → Store → Node → Op → Prop
  | here : Applies s patched (op :: ops) s patched op
  | later (happly : op.apply std s patched = some (s₁, patched₁))
      (hno : s₁.isError patched₁ = false) (hbuild : s₁.buildSt patched₁ = some s₂)
      (h : Applies s₂ patched₁ ops s' document' op') :
      Applies s patched (op :: ops) s' document' op'

/-- The patch comes to an operation, in a store and for a document. -/
inductive Comes (s : Store) (document operations : Node) : Store → Node → Op → Prop
  | test (harray : (s.heap.get operations).type = .jsonArray)
      (h : Reads std document s (s.heap.get operations).children s' op) :
      Comes s document operations s' document op
  | edit (harray : (s.heap.get operations).type = .jsonArray)
      (hread : readOps std s document (s.heap.get operations).children = some (s₁, .ok ops))
      (hclone : s₁.clone document = some (s₂, patched)) (hbuild : s₂.buildSt patched = some s₃)
      (h : Applies std s₃ patched ops s' document' op) : Comes s document operations s' document' op

end Patch

def Delivers (r : Option (Store × Node)) : Prop :=
  ∃ s result, r = some (s, result) ∧ (s.isError result = true ∨ IsValue s.heap result)

section Patch
variable [BEq α] {std : StdLib α} {s : Store} {document : Node} {op : Op}

theorem Delivers.of_outcome (h : Outcome types s r) : Delivers r := by
  obtain ⟨heap, result, rfl, herror | ⟨hvalue, -⟩⟩ := h
  · exact ⟨_, result, rfl, .inl (decide_eq_true herror)⟩
  · exact ⟨_, result, rfl, .inr hvalue⟩

theorem not_delivers : ¬ Delivers none := by
  rintro ⟨s, result, hr, -⟩
  cases hr

theorem runOn_total {operation : Operation} (hd : IsValue s.heap document)
    (h : Returns ok types s (operation.run std s document)) :
    Returns ok (.top :: valueTokens) s (Op.runOn std s document operation) := by
  constructor
  · intro hok
    obtain ⟨heap, result, hrun, houtcome⟩ := h.1 hok
    rw [Op.runOn, hrun]
    simp only [Option.bind_eq_bind, Option.bind_some]
    rcases houtcome with herror | ⟨hvalue, -, hkept⟩
    · rw [if_pos (show Store.isError { s with heap } result = true from decide_eq_true herror)]
      exact ⟨heap, result, rfl, .inl herror⟩
    · rw [hvalue.isError, if_neg Bool.false_ne_true]
      obtain ⟨hd', -⟩ := hkept document hd
      exact ⟨heap, document, rfl, .inr ⟨hd', hd'.type, hkept⟩⟩
  · intro hnot
    rw [Op.runOn, h.2 hnot]
    rfl

theorem run_document {operation : Operation} (hd : Loaded s document)
    (hgiven : operation.action ∈ [.read, .remove] ∨ ∃ v, operation.value = some v)
    (hvalue : ∀ v, operation.value = some v → IsValue s.heap v ∧
      ((s.heap.get document).type ≠ .top → (s.heap.get v).type ∈ valueTokens))
    (hcompared : operation.action = .compare → TablesInHeap s ∧
      ∀ v, operation.value = some v → Looks s v) :
    ∃ types, ((s.heap.get document).type ≠ .top → types = valueTokens) ∧
      Returns (operation.Defined std s document) types s (operation.run std s document) := by
  by_cases htop : (s.heap.get document).type = .top
  · refine ⟨.top :: valueTokens, fun h => absurd htop h, ?_⟩
    apply run_top hd.value htop
    · apply hgiven.imp_right
      intro ⟨v, hv⟩
      exact ⟨v, hv, (hvalue v hv).1⟩
    · exact fun haction => ⟨hd.tabled.looks, (hcompared haction).2⟩
  · have htype := (List.mem_cons.1 hd.value.type).resolve_left htop
    have hready : Ready operation s (ValueIn s.heap document) := by
      constructor
      · exact hd.value.walkable hd.tabled
      · exact hgiven
      · exact fun v hv => ⟨(hvalue v hv).1, (hvalue v hv).2 htop⟩
      · exact fun _ n hn => hd.tabled.looks.sub hn.1
      · exact hcompared
    exact ⟨valueTokens, fun _ => rfl, run_total hready ⟨.refl, htype⟩⟩

theorem walkable_taken {take : Action} (htake : take ∈ [.read, .remove]) (hd : Loaded s document)
    (hrun : ({ path, action := take } : Operation).run std s document = some (s', existing))
    (hno : s'.isError existing = false) : Walkable s' (ValueIn s.heap document) := by
  have hw := hd.value.walkable hd.tabled
  rcases List.mem_cons.1 htake with rfl | htake
  · have hselects := (Op.run_read (by rfl) hrun).resolve_left (Bool.eq_false_iff.1 hno)
    have hrun' : ({ path, action := .read } : Operation).run std s document = some (s, existing) :=
      run_read_selects (by rfl) hselects
    rw [hrun] at hrun'
    cases hrun'
    exact hw
  · obtain rfl := List.mem_singleton.1 htake
    obtain ⟨htaken, -⟩ := (run_remove (by rfl) hd.tabled hrun).resolve_left (Bool.eq_false_iff.1 hno)
    have hremoved : ∀ p m, s.heap.InTree document p →
        (s.heap.get p).type ∈ [.jsonArray, .jsonObject] → s.replace p m none = some s' →
          Walkable s' (ValueIn s.heap document) := by
      intro p m hp htype hreplace
      obtain ⟨heap, hreplaced, hs'⟩ := Option.map_eq_some_iff.1 hreplace
      subst hs'
      exact hw.removed (removed_of_replace hreplaced) (hd.value.proper p hp) htype
    cases htaken with
    | member p m key rest hp htype _ _ hreplace =>
      exact hremoved p m hp (by rw [htype]; decide) hreplace
    | element p hp htype hreplace => exact hremoved p existing hp (by rw [htype]; decide) hreplace

theorem insert_taken {take : Action} {heap : Heap} (htake : take ∈ [.read, .remove])
    (hd : Loaded s document)
    (hrun : ({ path, action := take } : Operation).run std s document =
      some ({ s with heap }, existing)) (hvalue : IsValue heap existing)
    (htype : (s.heap.get document).type ≠ .top → (heap.get existing).type ∈ valueTokens)
    (hkept : ∀ v, IsValue s.heap v → IsValue heap v ∧ (heap.get v).type = (s.heap.get v).type)
    (path' : Location) :
    Returns (({ path := path', action := .insert, value := some existing } : Operation).Defined std
        { s with heap } document) (.top :: valueTokens) { s with heap }
      (Op.runOn std { s with heap } document
        { path := path', action := .insert, value := some existing }) := by
  let inserting : Operation := { path := path', action := .insert, value := some existing }
  obtain ⟨hd', hdtype⟩ := hkept document hd.value
  have hcompared : inserting.action ≠ .compare := by
    intro haction
    cases haction
  by_cases htop : (s.heap.get document).type = .top
  · apply runOn_total hd'
    apply run_top hd' (hdtype.trans htop)
    · exact .inr ⟨existing, rfl, hvalue⟩
    · exact fun haction => absurd haction hcompared
  · have hintype := (List.mem_cons.1 hd.value.type).resolve_left htop
    have hready : Ready inserting { s with heap } (ValueIn s.heap document) := by
      constructor
      · exact walkable_taken htake hd hrun (decide_eq_false hvalue.noError)
      · exact .inr ⟨existing, rfl⟩
      · intro v hv
        cases hv
        exact ⟨hvalue, htype htop⟩
      · intro haction
        exact absurd haction (by simp [inserting])
      · exact fun haction => absurd haction hcompared
    exact runOn_total hd' (run_total hready ⟨.refl, hintype⟩)

theorem transfer_total {take : Action} (htake : take ∈ [.read, .remove]) (hd : Loaded s document) :
    Returns (op.Transfers std take s document) (.top :: valueTokens) s
      (op.transfer std take s document) := by
  by_cases hsame : op.path.view = op.from.view
  · rw [Op.transfer, if_pos hsame]
    exact (Outcome.value hd.value hd.value.type).returns (.inl hsame)
  let taking : Operation := { path := op.from, action := take }
  have hreturns : ∃ types, ((s.heap.get document).type ≠ .top → types = valueTokens) ∧
      Returns (taking.Defined std s document) types s (taking.run std s document) := by
    apply run_document hd (.inl htake)
    · intro v hv
      cases hv
    · intro haction
      have htake' : taking.action ∈ [.read, .remove] := htake
      rw [haction] at htake'
      exact absurd htake' (by decide)
  obtain ⟨types, htypes, hreturns⟩ := hreturns
  rw [Op.transfer, if_neg hsame]
  by_cases hok : taking.Defined std s document
  · obtain ⟨heap, existing, hrun, houtcome⟩ := hreturns.1 hok
    have hrun : ({ path := op.from, action := take } : Operation).run std s document =
        some ({ s with heap }, existing) := hrun
    have hunique : ∀ s' existing', ({ path := op.from, action := take } : Operation).run std s
        document = some (s', existing') → s' = { s with heap } ∧ existing' = existing := by
      intro s' existing' hrun'
      rw [hrun] at hrun'
      cases hrun'
      exact ⟨rfl, rfl⟩
    simp only [hrun, Option.bind_eq_bind, Option.bind_some]
    rcases houtcome with herror | ⟨hvalue, htype, hkept⟩
    · have herror' : Store.isError { s with heap } existing = true := decide_eq_true herror
      rw [if_pos herror']
      apply Outcome.returns ⟨heap, existing, rfl, .inl herror⟩
      refine .inr ⟨hok, fun s' existing' hrun' hno => ?_⟩
      obtain ⟨rfl, rfl⟩ := hunique s' existing' hrun'
      exact absurd herror' (Bool.eq_false_iff.1 hno)
    · have hno : Store.isError { s with heap } existing = false := decide_eq_false hvalue.noError
      rw [hno, if_neg Bool.false_ne_true]
      have hinsert := insert_taken htake hd hrun hvalue (fun htop => htypes htop ▸ htype) hkept
        op.path
      apply (hinsert.mono hkept).congr
      constructor
      · intro h
        exact (h.resolve_left hsame).2 _ existing hrun hno
      · intro h
        refine .inr ⟨hok, fun s' existing' hrun' _ => ?_⟩
        obtain ⟨rfl, rfl⟩ := hunique s' existing' hrun'
        exact h
  · apply Returns.throws
    · exact fun h => hok (h.resolve_left hsame).1
    · have hnone : ({ path := op.from, action := take } : Operation).run std s document = none :=
        hreturns.2 hok
      rw [hnone]
      rfl

theorem clone_outcome (hv : IsValue s.heap v) : Outcome (.top :: valueTokens) s (s.clone v) := by
  obtain ⟨heap, hclone, hframe, -, hfresh, htwins⟩ := hv.clone
  have htype : (heap.get s.heap.nodes.length).type ∈ .top :: valueTokens := by
    rw [htwins.type]
    exact hv.type
  refine ⟨heap, _, store_clone hclone, .inr ⟨hfresh.isValue htype, htype, fun v hv => ?_⟩⟩
  exact ⟨hv.frame hframe, hframe.type v (hv.lt .refl)⟩

theorem put_total {action : Action} (haction : action ∈ [.insert, .replace])
    (hd : Loaded s document) (hv : IsValue s.heap v) (htype : (s.heap.get v).type ∈ valueTokens)
    (path : Location) :
    Returns (({ path, action, value := some v } : Operation).Defined std s document)
      (.top :: valueTokens) s (if path.len = 0 then (some v).bind s.clone
        else Op.runOn std s document { path, action, value := some v }) := by
  let putting : Operation := { path, action, value := some v }
  have hcompared : putting.action ≠ .compare := by
    intro hcompare
    have haction' : putting.action ∈ [.insert, .replace] := haction
    rw [hcompare] at haction'
    exact absurd haction' (by decide)
  by_cases hlen : path.len = 0
  · rw [if_pos hlen]
    apply (clone_outcome hv).returns
    intro keys hkeys
    obtain rfl := (pointer_length hkeys).1 hlen
    exact ⟨fun hempty => (by cases hempty), fun n _ => accepts_of_ne hcompared n⟩
  · rw [if_neg hlen]
    have hreturns : ∃ types, ((s.heap.get document).type ≠ .top → types = valueTokens) ∧
        Returns (putting.Defined std s document) types s (putting.run std s document) := by
      apply run_document hd (.inr ⟨v, rfl⟩)
      · intro v' hv'
        cases hv'
        exact ⟨hv, fun _ => htype⟩
      · exact fun hcompare => absurd hcompare hcompared
    obtain ⟨types, -, hreturns⟩ := hreturns
    exact runOn_total hd.value hreturns

theorem remove_document (hd : Loaded s document) (path : Location) :
    Returns (({ path, action := .remove } : Operation).Defined std s document)
      (.top :: valueTokens) s (Op.runOn std s document { path, action := .remove }) := by
  have hreturns : ∃ types, ((s.heap.get document).type ≠ .top → types = valueTokens) ∧
      Returns (({ path, action := .remove } : Operation).Defined std s document) types s
        (({ path, action := .remove } : Operation).run std s document) := by
    apply run_document hd (.inl (.tail _ (.head _)))
    · intro v hv
      cases hv
    · intro hcompare
      cases hcompare
  obtain ⟨types, -, hreturns⟩ := hreturns
  exact runOn_total hd.value hreturns

theorem test_total (std : StdLib α) (hs : TablesInHeap s) (hd : Loaded s document)
    (htest : op.type = .test) (hop : op.Carries s) :
    (op.Defined std s document → ∃ heap result,
      op.apply std s document = some ({ s with heap }, result) ∧
        Heap.Frame s.heap.nodes.length s.heap heap) ∧
    (¬ op.Defined std s document → op.apply std s document = none) := by
  obtain ⟨v, hv, hvalue, hvtype⟩ := hop (by rw [htest]; decide)
  let testing : Operation := { path := op.path, action := .compare, value := op.value }
  have hsame : ∀ v', testing.value = some v' → v' = v := by
    intro v' hv'
    rw [show testing.value = some v from hv] at hv'
    exact (Option.some.inj hv').symm
  have hreturns : ∃ types, ((s.heap.get document).type ≠ .top → types = valueTokens) ∧
      Returns (testing.Defined std s document) types s (testing.run std s document) := by
    apply run_document hd (.inr ⟨v, hv⟩)
    · intro v' hv'
      obtain rfl := hsame v' hv'
      exact ⟨hvalue.value, fun _ => hvtype⟩
    · refine fun _ => ⟨hs, fun v' hv' => ?_⟩
      obtain rfl := hsame v' hv'
      exact hvalue.tabled.looks
  obtain ⟨types, -, hreturns⟩ := hreturns
  obtain ⟨hreturns, hthrows⟩ := runOn_total hd.value hreturns
  have hdefined : op.Defined std s document ↔ testing.Defined std s document := by
    rw [Op.Defined, htest]
  have happly : op.apply std s document = op.test std s document := by
    rw [Op.apply, htest]
  rw [hdefined, happly]
  refine ⟨fun hok => ?_, hthrows⟩
  obtain ⟨heap, result, hrun, -⟩ := hreturns hok
  exact ⟨heap, result, hrun, (Op.test_frame hs.above (Nat.le_refl _) hrun).nodes⟩

/-- An operation of the second loop. -/
structure Op.Edits (op : Op) (s : Store) : Prop where
  type : op.type ∉ [.error, .test]
  value : op.type ∈ [.add, .replace] →
    ∃ v, op.value = some v ∧ IsValue s.heap v ∧ (s.heap.get v).type ∈ valueTokens

theorem apply_total (hd : Loaded s document) (hop : op.Edits s) :
    Returns (op.Defined std s document) (.top :: valueTokens) s (op.apply std s document) := by
  rw [Op.apply, Op.Defined]
  cases htype : op.type with
  | error | test =>
    have hnot := hop.type
    rw [htype] at hnot
    exact absurd (by decide) hnot
  | add =>
    obtain ⟨v, hv, hvalue, hvtype⟩ := hop.value (by rw [htype]; decide)
    simp only [Op.add, hv]
    exact put_total (.head _) hd hvalue hvtype op.path
  | replace =>
    obtain ⟨v, hv, hvalue, hvtype⟩ := hop.value (by rw [htype]; decide)
    simp only [Op.replace, hv]
    exact put_total (.tail _ (.head _)) hd hvalue hvtype op.path
  | remove => exact remove_document hd op.path
  | copy => exact transfer_total (.head _) hd
  | move => exact transfer_total (.tail _ (.head _)) hd

theorem Op.Edits.mono {s' : Store} (h : op.Edits s)
    (hkept : ∀ v, IsValue s.heap v → IsValue s'.heap v ∧
      (s'.heap.get v).type = (s.heap.get v).type) : op.Edits s' := by
  refine ⟨h.type, fun htype => ?_⟩
  obtain ⟨v, hv, hvalue, hvtype⟩ := h.value htype
  obtain ⟨hvalue', hvtype'⟩ := hkept v hvalue
  exact ⟨v, hv, hvalue', hvtype' ▸ hvtype⟩

theorem Op.Carries.edits (h : op.Carries s) (htype : op.type ∉ [.error, .test]) : op.Edits s := by
  refine ⟨htype, fun hput => ?_⟩
  obtain ⟨v, hv, hloaded, hvtype⟩ := h (List.mem_of_mem_take (i := 2) hput)
  exact ⟨v, hv, hloaded.value, hvtype⟩

theorem applyOps_iff {ops : List Op} (hd : Loaded s patched) (hops : ∀ op ∈ ops, op.Edits s) :
    Delivers (applyOps std s patched ops) ↔
      ∀ s' document op, Applies std s patched ops s' document op → op.Defined std s' document := by
  induction ops generalizing s patched with
  | nil =>
    apply iff_of_true
    · exact ⟨s, patched, rfl, .inr hd.value⟩
    · intro s' document op h
      cases h
  | cons op ops ih =>
    rw [List.forall_mem_cons] at hops
    have happly : Returns (op.Defined std s patched) (.top :: valueTokens) s
        (op.apply std s patched) := apply_total hd hops.1
    rw [applyOps]
    by_cases hok : op.Defined std s patched
    · obtain ⟨heap, result, happly, houtcome⟩ := happly.1 hok
      simp only [happly, Option.bind_eq_bind, Option.bind_some]
      rcases houtcome with herror | ⟨hvalue, -, hkept⟩
      · have herror' : Store.isError { s with heap } result = true := decide_eq_true herror
        rw [if_pos herror']
        apply iff_of_true
        · exact ⟨_, result, rfl, .inl herror'⟩
        · intro s' document op' h
          cases h with
          | here => exact hok
          | later happly' hno =>
            rw [happly] at happly'
            cases happly'
            exact absurd herror' (Bool.eq_false_iff.1 hno)
      · have hstore : IsValue (Store.mk heap s.symbols).heap result := hvalue
        obtain ⟨s₂, hbuild, hheap, hloaded⟩ := hstore.built
        have hno : Store.isError { s with heap } result = false := decide_eq_false hvalue.noError
        rw [hno, if_neg Bool.false_ne_true, hbuild, Option.bind_some]
        rw [ih hloaded fun op' hop' => (hops.2 op' hop').mono (by rw [hheap]; exact hkept)]
        constructor
        · intro h s' document op' happlies
          cases happlies with
          | here => exact hok
          | later happly' _ hbuild' happlies =>
            rw [happly] at happly'
            cases happly'
            rw [hbuild] at hbuild'
            cases hbuild'
            exact h s' document op' happlies
        · exact fun h s' document op' happlies => h s' document op' (.later happly hno hbuild happlies)
    · rw [happly.2 hok]
      exact iff_of_false not_delivers fun h => hok (h s patched op .here)

def ReadsOps (s : Store) (r : Option (Store × Except Node (List Op))) : Prop :=
  ∃ heap, Heap.Frame s.heap.nodes.length s.heap heap ∧
    ((∃ e, r = some ({ s with heap }, .error e) ∧ (heap.get e).type = .error) ∨
      ∃ ops, r = some ({ s with heap }, .ok ops) ∧
        ∀ op ∈ ops, op.type ∉ [.error, .test] ∧ op.Carries { s with heap })

theorem ReadsOps.frame {heap : Heap} (h : ReadsOps { s with heap } r)
    (hf : Heap.Frame s.heap.nodes.length s.heap heap) : ReadsOps s r := by
  obtain ⟨heap', hf', hr⟩ := h
  exact ⟨heap', frame_trans hf hf' hf.length, hr⟩

/-- The operation that was read goes before those that the rest of the loop returns. -/
theorem ReadsOps.cons (h : ReadsOps s r) (hs : TablesInHeap s) (htype : op.type ∉ [.error, .test])
    (hop : op.Carries s) :
    ReadsOps s (r.bind fun r => some (r.1, r.2.map (op :: ·))) := by
  obtain ⟨heap, hf, ⟨e, rfl, herror⟩ | ⟨ops, rfl, hops⟩⟩ := h
  · exact ⟨heap, hf, .inl ⟨e, rfl, herror⟩⟩
  · refine ⟨heap, hf, .inr ⟨op :: ops, rfl, ?_⟩⟩
    rw [List.forall_mem_cons]
    exact ⟨⟨htype, hop.frame hs hf⟩, hops⟩

theorem readOps_total {nodes : List Node} (std : StdLib α) (hs : TablesInHeap s) (hd : Loaded s document)
    (hnodes : ∀ n ∈ nodes, Loaded s n ∧ (s.heap.get n).type ∈ valueTokens) :
    ((∀ s' op, Reads std document s nodes s' op → op.Defined std s' document) →
      ReadsOps s (readOps std s document nodes)) ∧
    (¬ (∀ s' op, Reads std document s nodes s' op → op.Defined std s' document) →
      readOps std s document nodes = none) := by
  induction nodes generalizing s with
  | nil =>
    have hnone : ∀ s' op, Reads std document s [] s' op → op.Defined std s' document := by
      intro s' op h
      cases h
    refine ⟨fun _ => ⟨s.heap, .refl (.length s.heap), .inr ⟨[], rfl, ?_⟩⟩, fun h => absurd hnone h⟩
    intro op hop
    cases hop
  | cons node rest ih =>
    rw [List.forall_mem_cons] at hnodes
    obtain ⟨⟨hnode, hntype⟩, hrest⟩ := hnodes
    have hnext : ∀ {heap : Heap}, Heap.Frame s.heap.nodes.length s.heap heap →
        ∀ n ∈ rest, Loaded { s with heap } n ∧ (heap.get n).type ∈ valueTokens := by
      intro heap hf n hn
      obtain ⟨hloaded, hntype⟩ := hrest n hn
      refine ⟨hloaded.frame hs hf, ?_⟩
      rw [hf.type n (hloaded.value.lt .refl)]
      exact hntype
    obtain ⟨heap, op, hfrom, hf, hopnode, hcarries⟩ := fromNode_total std hs hnode hntype
    have hunique : ∀ {s₁ op'}, Op.fromNode std s node = some (s₁, op') →
        s₁ = { s with heap } ∧ op' = op := by
      intro s₁ op' hfrom'
      rw [hfrom] at hfrom'
      cases hfrom'
      exact ⟨rfl, rfl⟩
    rw [readOps]
    simp only [hfrom, Option.bind_eq_bind, Option.bind_some]
    by_cases herror : op.type = .error
    · have hvacuous : ∀ s' op', Reads std document s (node :: rest) s' op' →
          op'.Defined std s' document := by
        intro s' op' h
        cases h with
        | here hfrom' htest | passed hfrom' htest =>
          obtain ⟨-, rfl⟩ := hunique hfrom'
          rw [herror] at htest
          cases htest
        | later hfrom' hedit =>
          obtain ⟨-, rfl⟩ := hunique hfrom'
          exact absurd (herror ▸ .head _) hedit
      rw [if_pos herror]
      refine ⟨fun _ => ?_, fun h => absurd hvacuous h⟩
      obtain ⟨t, ht⟩ := hnode.value.tree
      obtain ⟨heap', e, he, hf', htype⟩ := err_total (ht.frame hf) op.path.view
      refine ⟨heap', frame_trans hf hf' hf.length, .inl ⟨e, ?_, htype⟩⟩
      rw [hopnode, Store.err, he]
      rfl
    rw [if_neg herror]
    have hs₁ := hs.frame hf
    have hd₁ := hd.frame hs hf
    by_cases htest : op.type = .test
    · rw [if_pos htest]
      obtain ⟨hdefined, hthrows⟩ := test_total std hs₁ hd₁ htest hcarries
      by_cases hok : op.Defined std { s with heap } document
      · obtain ⟨heap₂, result, happly, hf₂⟩ := hdefined hok
        have hf₂ := frame_trans hf hf₂ hf.length
        simp only [happly, Option.bind_some]
        by_cases hresult : Store.isError { s with heap := heap₂ } result = true
        · have hvacuous : ∀ s' op', Reads std document s (node :: rest) s' op' →
              op'.Defined std s' document := by
            intro s' op' h
            cases h with
            | here hfrom' =>
              obtain ⟨rfl, rfl⟩ := hunique hfrom'
              exact hok
            | passed hfrom' _ happly' hno =>
              obtain ⟨rfl, rfl⟩ := hunique hfrom'
              rw [happly] at happly'
              cases happly'
              exact absurd hresult (Bool.eq_false_iff.1 hno)
            | later hfrom' hedit =>
              obtain ⟨-, rfl⟩ := hunique hfrom'
              exact absurd (htest ▸ .tail _ (.head _)) hedit
          rw [if_pos hresult]
          exact ⟨fun _ => ⟨heap₂, hf₂, .inl ⟨result, rfl, of_decide_eq_true hresult⟩⟩,
            fun h => absurd hvacuous h⟩
        · rw [if_neg hresult]
          have hiff : (∀ s' op', Reads std document s (node :: rest) s' op' →
              op'.Defined std s' document) ↔ ∀ s' op',
                Reads std document { s with heap := heap₂ } rest s' op' →
                  op'.Defined std s' document := by
            constructor
            · intro h s' op' hreads
              exact h s' op' (.passed hfrom htest happly (Bool.eq_false_iff.2 hresult) hreads)
            · intro h s' op' hreads
              cases hreads with
              | here hfrom' =>
                obtain ⟨rfl, rfl⟩ := hunique hfrom'
                exact hok
              | passed hfrom' _ happly' _ hreads =>
                obtain ⟨rfl, rfl⟩ := hunique hfrom'
                rw [happly] at happly'
                cases happly'
                exact h s' op' hreads
              | later hfrom' hedit =>
                obtain ⟨-, rfl⟩ := hunique hfrom'
                exact absurd (htest ▸ .tail _ (.head _)) hedit
          rw [hiff]
          obtain ⟨hreturns, hthrows⟩ := ih (hs.frame hf₂) (hd.frame hs hf₂) (hnext hf₂)
          exact ⟨fun h => (hreturns h).frame hf₂, hthrows⟩
      · rw [hthrows hok]
        refine ⟨fun h => absurd (h _ op (.here hfrom htest)) hok, fun _ => rfl⟩
    · rw [if_neg htest]
      have hedit : op.type ∉ [.error, .test] := by
        rw [List.mem_cons, List.mem_singleton]
        exact not_or.2 ⟨herror, htest⟩
      have hiff : (∀ s' op', Reads std document s (node :: rest) s' op' →
          op'.Defined std s' document) ↔ ∀ s' op',
            Reads std document { s with heap } rest s' op' → op'.Defined std s' document := by
        constructor
        · exact fun h s' op' hreads => h s' op' (.later hfrom hedit hreads)
        · intro h s' op' hreads
          cases hreads with
          | here hfrom' htest' | passed hfrom' htest' =>
            obtain ⟨-, rfl⟩ := hunique hfrom'
            exact absurd htest' htest
          | later hfrom' _ hreads =>
            obtain ⟨rfl, rfl⟩ := hunique hfrom'
            exact h s' op' hreads
      rw [hiff]
      obtain ⟨hreturns, hthrows⟩ := ih hs₁ hd₁ (hnext hf)
      exact ⟨fun h => ((hreturns h).cons hs₁ hedit hcarries).frame hf, fun h => by rw [hthrows h]; rfl⟩

end Patch
end Patch

section Patch
variable [BEq α] {std : StdLib α} {s : Store} {document operations : Node}

/-- A patch returns if all operations that it comes to are defined, and throws if not. -/
theorem patch_iff (hs : TablesInHeap s) (hd : Loaded s document) (hp : Loaded s operations) :
    Patch.Delivers (patch std s document operations) ↔
      ∀ s' document' op, Patch.Comes std s document operations s' document' op →
        op.Defined std s' document' := by
  rw [patch]
  by_cases harray : (s.heap.get operations).type = .jsonArray
  · rw [if_neg (not_not.2 harray)]
    by_cases hempty : (s.heap.get operations).children = []
    · rw [if_pos hempty]
      apply iff_of_true
      · exact ⟨s, document, rfl, .inr hd.value⟩
      · intro s' document' op hcomes
        cases hcomes with
        | test _ h =>
          rw [hempty] at h
          cases h
        | edit _ hread _ _ h =>
          rw [hempty] at hread
          cases hread
          cases h
    rw [if_neg hempty]
    have hnodes : ∀ n ∈ (s.heap.get operations).children,
        Loaded s n ∧ (s.heap.get n).type ∈ valueTokens := by
      intro n hn
      have hvalue : ValueIn s.heap operations n :=
        ⟨.single hn, (hp.value.proper operations .refl).values (by rw [harray]; decide) n hn⟩
      exact ⟨hp.sub hvalue, hvalue.2⟩
    obtain ⟨hreads, hthrows⟩ := Patch.readOps_total std hs hd hnodes
    by_cases hok : ∀ s' op, Patch.Reads std document s (s.heap.get operations).children s' op →
        op.Defined std s' document
    · obtain ⟨heap, hf, ⟨e, hread, herror⟩ | ⟨ops, hread, hops⟩⟩ := hreads hok
      · simp only [hread, Option.bind_eq_bind, Option.bind_some]
        apply iff_of_true
        · exact ⟨_, e, rfl, .inl (decide_eq_true herror)⟩
        · intro s' document' op hcomes
          cases hcomes with
          | test _ h => exact hok s' op h
          | edit _ hread' =>
            rw [hread] at hread'
            cases hread'
      · have hd₁ := hd.frame hs hf
        obtain ⟨s₂, s₃, copy, hclone, hbuild, hloaded, hkept⟩ := hd₁.value.cloned
        have hedits : ∀ op ∈ ops, op.Edits s₃ := by
          intro op hop
          obtain ⟨htype, hcarries⟩ := hops op hop
          exact (Patch.Op.Carries.edits hcarries htype).mono hkept
        simp only [hread, Option.bind_eq_bind, Option.bind_some, hclone, hbuild]
        rw [Patch.applyOps_iff hloaded hedits]
        constructor
        · intro h s' document' op hcomes
          cases hcomes with
          | test _ h => exact hok s' op h
          | edit _ hread' hclone' hbuild' happlies =>
            rw [hread] at hread'
            cases hread'
            rw [hclone] at hclone'
            cases hclone'
            rw [hbuild] at hbuild'
            cases hbuild'
            exact h s' document' op happlies
        · intro h s' document' op happlies
          exact h s' document' op (.edit harray hread hclone hbuild happlies)
    · rw [hthrows hok]
      apply iff_of_false Patch.not_delivers
      exact fun h => hok fun s' op hreads => h s' document op (.test harray hreads)
  · rw [if_pos harray]
    obtain ⟨t, ht⟩ := hp.value.tree
    apply iff_of_true
    · exact .of_outcome (.err [] ⟨t, ht⟩ _)
    · intro s' document' op hcomes
      cases hcomes with
      | test h | edit h => exact absurd h harray

end Patch

end Trieste.Json
