import Trieste.Bindings.BuildSt

namespace Trieste.Bindings
set_option autoImplicit true
open Library Relation

/-- A node has as many children as its shape requires. -/
def Shape.Counts (h : Heap) (n : Node) : Shape → Prop
  | .sequence q => q.minLen ≤ (h.get n).children.length ∧ (h.get n).children.length ≤ q.maxLen
  | .fields f => (h.get n).children.length = f.fields.length

def Fields.Looked (f : Fields) (h : Heap) (n c : Node) : Prop :=
  f.binding ≠ .invalid ∧ ∃ field, (field, c) ∈ f.fields.zip (h.get n).children ∧
    field.name = f.binding

/-- The reports have a missing binding exactly for some nodes and children. -/
def Misses (reports : Option (List Report)) (missing : Node → Node → Prop) : Prop :=
  ∃ rs, reports = some rs ∧ ∀ n c, .missingBinding n c ∈ rs ↔ missing n c

theorem Misses.congr {missing missing' : Node → Node → Prop} (h : Misses reports missing)
    (hiff : ∀ n c, missing n c ↔ missing' n c) : Misses reports missing' := by
  obtain ⟨rs, hrs, h⟩ := h
  exact ⟨rs, hrs, fun n c => (h n c).trans (hiff n c)⟩

theorem checkChoice_misses (h : Heap) (choice : Wf.Choice) (child n c : Node) :
    .missingBinding n c ∉ checkChoice h choice child := by
  unfold checkChoice
  split <;> simp

theorem checkSequence_misses (h : Heap) (q : Wf.Sequence) (p n c : Node) :
    .missingBinding n c ∉ checkSequence h q p := by
  have hchoice : ∀ child, .missingBinding n c ∉ checkChoice h q.choice child :=
    fun child => checkChoice_misses h q.choice child n c
  unfold checkSequence
  simp only [List.mem_append, List.mem_flatMap, not_or, not_exists, not_and]
  refine ⟨⟨fun child _ => hchoice child, ?_⟩, ?_⟩
  · split <;> simp
  · split <;> simp

theorem checkParents_misses (h : Heap) (p n c : Node) :
    .missingBinding n c ∉ checkParents h p := by
  simp [checkParents]

namespace Fields
variable {s : Scopes}

theorem checkBinding_misses (f : Fields) (n : Node) (field : Field) (child : Node)
    (hscope : f.binding ≠ .invalid ∧ field.name = f.binding → ∃ st, s.scope n = some st) :
    Misses (f.checkBinding s n field child) fun m c => m = n ∧ c = child ∧
      (f.binding ≠ .invalid ∧ field.name = f.binding) ∧
        ∀ st, s.scope n = some st → n ∉ s.look st (s.heap.get child).location := by
  unfold Fields.checkBinding
  split
  · next hb =>
    obtain ⟨st, hst⟩ := hscope hb
    rw [hst, Option.map_some]
    refine ⟨_, rfl, fun m c => ?_⟩
    split
    · next hmem =>
      apply iff_of_false List.not_mem_nil
      intro h
      exact h.2.2.2 st rfl hmem
    · next hmem =>
      rw [List.mem_singleton, Report.missingBinding.injEq]
      apply and_congr_right
      intro _
      rw [and_iff_left]
      refine ⟨hb, fun st' hst' => ?_⟩
      cases hst'
      exact hmem
  · next hb =>
    refine ⟨[], rfl, fun m c => ?_⟩
    apply iff_of_false List.not_mem_nil
    intro h
    exact hb h.2.2.1

theorem checkFrom_misses (f : Fields) (n : Node) {fields : List Field} {children : List Node}
    (herror : ∀ c ∈ children, (s.heap.get c).type ≠ .error)
    (hscope : ∀ p ∈ fields.zip children, f.binding ≠ .invalid ∧ p.1.name = f.binding →
      ∃ st, s.scope n = some st) :
    Misses (f.checkFrom s n fields children) fun m c => m = n ∧
      ∃ field, (field, c) ∈ fields.zip children ∧
        (f.binding ≠ .invalid ∧ field.name = f.binding) ∧
          ∀ st, s.scope n = some st → n ∉ s.look st (s.heap.get c).location := by
  induction fields generalizing children with
  | nil =>
    refine ⟨[], ?_, fun m c => by simp⟩
    cases children <;> rfl
  | cons field fields ih =>
    cases children with
    | nil => exact ⟨[], rfl, fun m c => by simp⟩
    | cons child children =>
      rw [List.zip_cons_cons, List.forall_mem_cons] at hscope
      rw [List.forall_mem_cons] at herror
      obtain ⟨missing, hmissing, hfirst⟩ := f.checkBinding_misses n field child hscope.1
      obtain ⟨reports, hreports, hrest⟩ := ih herror.2 hscope.2
      refine ⟨checkChoice s.heap field.choice child ++ missing ++ reports, ?_, fun m c => ?_⟩
      · rw [Fields.checkFrom, if_neg herror.1, hmissing, hreports]
        rfl
      · rw [List.mem_append, List.mem_append, or_iff_right (checkChoice_misses s.heap field.choice child m c),
          hfirst, hrest, List.zip_cons_cons]
        constructor
        · intro h
          rcases h with ⟨hm, rfl, h⟩ | ⟨hm, field', hmem, h⟩
          · exact ⟨hm, field, .head _, h⟩
          · exact ⟨hm, field', .tail _ hmem, h⟩
        · intro h
          obtain ⟨hm, field', hmem, h⟩ := h
          rcases List.mem_cons.1 hmem with heq | hmem
          · obtain ⟨rfl, rfl⟩ := Prod.mk.inj heq
            exact .inl ⟨hm, rfl, h⟩
          · exact .inr ⟨hm, field', hmem, h⟩

theorem check_misses (f : Fields) (n : Node)
    (herror : ∀ c ∈ (s.heap.get n).children, (s.heap.get c).type ≠ .error)
    (hscope : ∀ c, f.Looked s.heap n c → ∃ st, s.scope n = some st) :
    Misses (f.check s n) fun m c => m = n ∧ f.Looked s.heap n c ∧
      ∀ st, s.scope n = some st → n ∉ s.look st (s.heap.get c).location := by
  have hlooked : ∀ p ∈ f.fields.zip (s.heap.get n).children,
      f.binding ≠ .invalid ∧ p.1.name = f.binding → ∃ st, s.scope n = some st := by
    intro p hp hb
    exact hscope p.2 ⟨hb.1, p.1, hp, hb.2⟩
  obtain ⟨reports, hreports, h⟩ := f.checkFrom_misses n herror hlooked
  rw [Fields.check, hreports]
  refine ⟨_, rfl, fun m c => ?_⟩
  rw [List.mem_append, or_iff_left (by split <;> simp), h]
  apply and_congr_right
  intro _
  constructor
  · intro h
    obtain ⟨field, hmem, hb, hst⟩ := h
    exact ⟨⟨hb.1, field, hmem, hb.2⟩, hst⟩
  · intro h
    obtain ⟨⟨hb, field, hmem, hname⟩, hst⟩ := h
    exact ⟨field, hmem, ⟨hb, hname⟩, hst⟩

end Fields

namespace Wellformed
variable {wf : Wellformed} {s s' : Scopes}

theorem checkChildren_misses {check : Node → Option (List Report)} {children : List Node}
    {missing : Node → Node → Node → Prop}
    (h : ∀ child ∈ children, Misses (check child) (missing child)) :
    Misses (checkChildren check children) fun n c => ∃ child ∈ children, missing child n c := by
  induction children with
  | nil => exact ⟨[], rfl, fun n c => by simp⟩
  | cons child children ih =>
    rw [List.forall_mem_cons] at h
    obtain ⟨reports, hreports, hfirst⟩ := h.1
    obtain ⟨below, hbelow, hrest⟩ := ih h.2
    refine ⟨reports ++ below, ?_, fun n c => ?_⟩
    · rw [checkChildren, hreports, hbelow]
      rfl
    · rw [List.mem_append, hfirst, hrest]
      exact (List.exists_mem_cons_iff (fun x => missing x n c) child children).symm

def Unbound (wf : Wellformed) (s : Scopes) (n c : Node) : Prop :=
  s.heap.flag n .error = false ∧ ∃ f, wf.find (s.heap.get n).type = some (.fields f) ∧
    f.Looked s.heap n c ∧
      ∀ st, s.scope n = some st → n ∉ s.look st (s.heap.get c).location

theorem checkFrom_misses (hw : Whole s.heap root) (hin : s.heap.InTree root n)
    (hcounts : ∀ m, s.heap.InTree root m → wf.find (s.heap.get m).type = none →
      (s.heap.get m).children = [])
    (hscope : ∀ m f c, s.heap.InTree root m → wf.find (s.heap.get m).type = some (.fields f) →
      f.Looked s.heap m c → ∃ st, s.scope m = some st)
    (ht : s.heap.Represents n t) (hdepth : t.depth ≤ fuel) :
    Misses (wf.checkFrom s fuel n) fun m c => s.heap.InTree n m ∧ wf.Unbound s m c := by
  induction fuel generalizing n t with
  | zero =>
    cases t with
    | node type location trees =>
      rw [Tree.depth] at hdepth
      exact absurd hdepth (Nat.not_succ_le_zero _)
  | succ fuel ih =>
    have hchildren : Misses (checkChildren (wf.checkFrom s fuel) (s.heap.get n).children)
        fun m c => ∃ child ∈ (s.heap.get n).children,
          s.heap.InTree child m ∧ wf.Unbound s m c := by
      apply checkChildren_misses
      intro child hc
      obtain ⟨t', ht', hlt⟩ := ht.child hc
      exact ih (hin.tail hc) ht' (Nat.le_of_lt_succ (Nat.lt_of_lt_of_le hlt hdepth))
    have hbelow : ∀ m c, (∃ child ∈ (s.heap.get n).children,
        s.heap.InTree child m ∧ wf.Unbound s m c) →
          s.heap.InTree n m ∧ wf.Unbound s m c := by
      intro m c h
      obtain ⟨child, hc, hm, hunbound⟩ := h
      exact ⟨.head hc hm, hunbound⟩
    rw [checkFrom, if_neg (hw.noError n hin)]
    split
    · next hflag =>
      apply hchildren.congr
      intro m c
      refine ⟨hbelow m c, fun h => ?_⟩
      rcases h.1.cases_head with rfl | ⟨child, hc, hm⟩
      · exact absurd hflag (by rw [h.2.1]; decide)
      · exact ⟨child, hc, hm, h.2⟩
    · next hflag =>
      have hflag : s.heap.flag n .error = false := Bool.eq_false_iff.2 hflag
      split
      · next hnone =>
        refine ⟨_, rfl, fun m c => ?_⟩
        rw [if_pos (hcounts n hin hnone)]
        apply iff_of_false List.not_mem_nil
        intro h
        rcases h.1.cases_head with rfl | ⟨child, hc, -⟩
        · obtain ⟨-, f, hf, -⟩ := h.2
          rw [hnone] at hf
          cases hf
        · rw [Heap.HasChild, hcounts n hin hnone] at hc
          cases hc
      · next shape hshape =>
        have hown : Misses (checkShape s n shape) fun m c => m = n ∧ wf.Unbound s n c := by
          cases shape with
          | sequence q =>
            refine ⟨_, rfl, fun m c => ?_⟩
            apply iff_of_false (checkSequence_misses s.heap q n m c)
            intro h
            obtain ⟨-, -, f, hf, -⟩ := h
            rw [hshape] at hf
            cases hf
          | fields f =>
            have hmisses := f.check_misses n
              (fun c hc => hw.noError c (hin.tail hc)) fun c => hscope n f c hin hshape
            apply hmisses.congr
            intro m c
            apply and_congr_right
            intro _
            constructor
            · intro h
              exact ⟨hflag, f, hshape, h⟩
            · intro h
              obtain ⟨-, f', hf', h⟩ := h
              rw [hshape] at hf'
              cases hf'
              exact h
        obtain ⟨reports, hreports, howned⟩ := hown
        obtain ⟨below, hbelow', hchild⟩ := hchildren
        refine ⟨reports ++ checkParents s.heap n ++ below, ?_, fun m c => ?_⟩
        · rw [hreports, hbelow']
          rfl
        · rw [List.mem_append, List.mem_append, or_iff_left (checkParents_misses s.heap n m c),
            howned, hchild]
          constructor
          · intro h
            rcases h with ⟨rfl, h⟩ | h
            · exact ⟨.refl, h⟩
            · exact hbelow m c h
          · intro h
            rcases h.1.cases_head with heq | ⟨child, hc, hm⟩
            · rw [← heq] at h
              exact .inl ⟨heq.symm, h.2⟩
            · exact .inr ⟨child, hc, hm, h.2⟩

theorem buildChildren_mem {build : Scopes → Node → Option (Scopes × Bool)}
    {children : List Node} {result result' : Scopes × Bool}
    (hheap : ∀ (t t' : Scopes) built, ∀ c ∈ children, t.heap = heap → build t c = some (t', built) →
      t'.heap = heap)
    (hresult : result.1.heap = heap) (h : buildChildren build children result = some result') :
    ∀ c ∈ children, ∃ (t : Scopes) (r : Scopes × Bool), t.heap = heap ∧ build t c = some r := by
  induction children generalizing result with
  | nil =>
    intro c hc
    cases hc
  | cons child children ih =>
    obtain ⟨t, ok⟩ := result
    obtain ⟨r, hr, hrest⟩ := Option.bind_eq_some_iff.1 h
    intro c hc
    rcases List.mem_cons.1 hc with rfl | hc
    · exact ⟨t, r, hresult, hr⟩
    · apply ih _ _ hrest c hc
      · intro t t' built c' hc'
        exact hheap t t' built c' (.tail _ hc')
      · exact hheap t r.1 r.2 child (.head _) hresult hr

theorem bindShape_returned (hw : Whole s.heap root) (hin : s.heap.InTree root n)
    (h : wf.buildStFrom fuel s n = some result) (hm : s.heap.InTree n m) :
    ∃ (t : Scopes) (r : Scopes × Bool), t.heap = s.heap ∧ wf.bindShape t m = some r := by
  induction fuel generalizing s n result with
  | zero => cases h
  | succ fuel ih =>
    rw [buildStFrom, if_neg (hw.noError n hin)] at h
    obtain ⟨r, hr, hchildren⟩ := Option.bind_eq_some_iff.1 h
    have hheap : r.1.heap = s.heap := (bindShape_binds hr).1
    rcases hm.cases_head with rfl | ⟨c, hc, hm⟩
    · exact ⟨s.clearSymbols n, r, rfl, hr⟩
    · have hkept : ∀ (t t' : Scopes) built, ∀ c ∈ (s.heap.get n).children, t.heap = s.heap →
          wf.buildStFrom fuel t c = some (t', built) → t'.heap = s.heap := by
        intro t t' built c hc ht hbuild
        have hwhole : Whole t.heap root := by rwa [ht]
        have hbuilt := buildStFrom_built hwhole (by rw [ht]; exact hin.tail hc) hbuild
        exact hbuilt.1.trans ht
      obtain ⟨t, r', ht, hbuild⟩ := buildChildren_mem hkept hheap hchildren c hc
      rw [← ht] at hw hin hm hc ⊢
      exact ih hw (hin.tail hc) hbuild hm

theorem looked_scope {f : Fields} {t : Scopes} (hf : wf.find (t.heap.get n).type = some (.fields f))
    (hlooked : f.Looked t.heap n c) (h : wf.bindShape t n = some result) :
    ∃ st, t.scope n = some st := by
  obtain ⟨hvalid, field, hmem, hname⟩ := hlooked
  rw [bindShape, hf] at h
  simp only [Fields.buildSt, if_neg hvalid] at h
  split at h
  · obtain ⟨t', ht', -⟩ := Option.map_eq_some_iff.1 h
    obtain ⟨st, hst, -⟩ := Option.map_eq_some_iff.1 ht'
    exact ⟨st, hst⟩
  · obtain ⟨i, hi⟩ := List.mem_iff_getElem?.1 hmem
    rw [List.getElem?_zip_eq_some] at hi
    split at h
    · next hindex =>
      rw [Fields.index, List.findIdx?_eq_none_iff] at hindex
      have hfield := hindex field (List.mem_of_getElem? hi.1)
      exact absurd hname (by simpa using hfield)
    · next index hindex =>
      split at h
      · next hchild =>
        have hle := Fields.index_le hindex hi.1 hname
        obtain ⟨hlen, -⟩ := List.getElem?_eq_some_iff.1 hi.2
        rw [List.getElem?_eq_none_iff] at hchild
        exact absurd (Nat.lt_of_le_of_lt hle hlen) (Nat.not_lt.2 hchild)
      · obtain ⟨st, hst, -⟩ := Option.map_eq_some_iff.1 h
        exact ⟨st, hst⟩

/-- The children that are looked up have the name that their node is bound to. -/
def NamedAlike (wf : Wellformed) (h : Heap) (root : Node) : Prop :=
  ∀ n, h.InTree root n → h.flag n .error = false →
    ∀ f c, wf.find (h.get n).type = some (.fields f) → f.Looked h n c →
      ∃ key, wf.key h n = some key ∧ (h.get c).location.view = (h.get key).location.view

theorem look_built (hw : Whole s.heap root) (h : wf.buildSt s root = some (s', ok))
    (hin : s.heap.InTree root n) (hst : s.scope n = some st) (name : Location) :
    n ∈ s'.look st name ↔
      ∃ key, wf.key s.heap n = some key ∧ name.view = (s.heap.get key).location.view := by
  obtain ⟨-, hsymbols⟩ := buildSt_symbols hw h
  obtain ⟨hroot, -⟩ := hw.scope_eq hin hst
  rw [Scopes.look, List.mem_map]
  simp only [List.mem_filter, decide_eq_true_eq]
  constructor
  · intro hb
    obtain ⟨b, ⟨hb, rfl, hname⟩, rfl⟩ := hb
    obtain ⟨m, -, -, hnode, key, hkey, hview⟩ := (hsymbols b hroot).1 hb
    rw [hnode]
    exact ⟨key, hkey, hname.symm.trans hview⟩
  · intro hkey
    obtain ⟨key, hkey, hview⟩ := hkey
    refine ⟨⟨st, name.view, n⟩, ⟨?_, rfl, rfl⟩, rfl⟩
    exact (hsymbols _ hroot).2 ⟨n, hin, hst, rfl, key, hkey, hview⟩

/-- A node has as many children as its shape requires, and none without a shape. -/
def Counts (wf : Wellformed) (h : Heap) (n : Node) : Prop :=
  match wf.find (h.get n).type with
  | none => (h.get n).children = []
  | some shape => shape.Counts h n

theorem Counts.none (h : wf.Counts heap n) (hnone : wf.find (heap.get n).type = none) :
    (heap.get n).children = [] := by
  rwa [Counts, hnone] at h

/-- The check of a tree whose symbol tables have been built misses no binding exactly where all the
children under the name of a binding have the same text. -/
theorem check_built_iff (hw : Whole s.heap root)
    (hcounts : ∀ n, s.heap.InTree root n → wf.Counts s.heap n)
    (h : wf.buildSt s root = some (s', true)) :
    ∃ reports, wf.check s' root = some reports ∧
      ((∀ n c, .missingBinding n c ∉ reports) ↔ wf.NamedAlike s.heap root) := by
  obtain ⟨hheap, -⟩ := buildSt_symbols hw h
  have hscope : ∀ m f c, s.heap.InTree root m → wf.find (s.heap.get m).type = some (.fields f) →
      f.Looked s.heap m c → ∃ st, s.scope m = some st := by
    intro m f c hm hf hlooked
    obtain ⟨t, r, ht, hr⟩ := bindShape_returned hw .refl h hm
    obtain ⟨st, hst⟩ := looked_scope (by rwa [ht]) (by rwa [ht]) hr
    exact ⟨st, by rwa [Scopes.scope, ht] at hst⟩
  rw [check]
  split
  · next hempty =>
    refine ⟨[], rfl, iff_of_true (fun _ _ => List.not_mem_nil) ?_⟩
    intro n hn hflag f c hf
    rw [find, hempty] at hf
    cases hf
  · obtain ⟨t, ht⟩ := hw.tree
    have hsame (n : Node) : s'.scope n = s.scope n := congrArg (Json.Store.scope · n) hheap
    have hfuel : t.depth ≤ s'.heap.nodes.length + 1 := by
      rw [hheap]
      exact Nat.le_succ_of_le ht.depth_le
    have hscope' : ∀ m f c, s'.heap.InTree root m →
        wf.find (s'.heap.get m).type = some (.fields f) → f.Looked s'.heap m c →
          ∃ st, s'.scope m = some st := by
      simp only [hheap, hsame]
      exact hscope
    have hempty' : ∀ m, s'.heap.InTree root m → wf.find (s'.heap.get m).type = none →
        (s'.heap.get m).children = [] := by
      rw [hheap]
      intro m hm hnone
      exact (hcounts m hm).none hnone
    obtain ⟨reports, hreports, hmissing⟩ :=
      checkFrom_misses (by rwa [hheap]) .refl hempty' hscope' (by rwa [hheap]) hfuel
    refine ⟨reports, hreports, ?_⟩
    simp only [hmissing, Unbound, hheap, hsame]
    constructor
    · intro hnone n hn hflag f c hf hlooked
      apply Classical.byContradiction
      intro hkey
      refine hnone n c ⟨hn, hflag, f, hf, hlooked, fun st hst hmem => ?_⟩
      exact hkey ((look_built hw h hn hst _).1 hmem)
    · intro halike n c hmiss
      obtain ⟨hn, hflag, f, hf, hlooked, hnot⟩ := hmiss
      obtain ⟨st, hst⟩ := hscope n f c hn hf hlooked
      exact hnot st hst ((look_built hw h hn hst _).2 (halike n hn hflag f c hf hlooked))

/-- `Top <<= Pair` and `Pair <<= (Ident * Ident)[Ident]`. -/
def pairs : Wellformed where
  shapes := [
    (.top, .fields { fields := [⟨⟨⟨"pair", 0⟩, ⟨[⟨"pair", 0⟩]⟩⟩, false⟩], apart := by decide }),
    (⟨"pair", 0⟩, .fields {
      fields := [⟨⟨⟨"ident", Flag.print⟩, ⟨[⟨"ident", Flag.print⟩]⟩⟩, false⟩,
        ⟨⟨⟨"ident", Flag.print⟩, ⟨[⟨"ident", Flag.print⟩]⟩⟩, false⟩]
      binding := ⟨"ident", Flag.print⟩
      apart := by decide })]
  distinct := by decide

def pairOf (first second : String) : Heap where
  nodes := [
    { type := .top, children := [1] },
    { type := ⟨"pair", 0⟩, parent := some 0, children := [2, 3] },
    { type := ⟨"ident", Flag.print⟩, location := .ofString first, parent := some 1 },
    { type := ⟨"ident", Flag.print⟩, location := .ofString second, parent := some 1 }]

theorem pairOf_lt (h : (pairOf first second).InTree 0 n) : n < 4 := by
  induction h with
  | refl => exact Nat.zero_lt_succ _
  | @tail p c _ hc ih =>
    rw [Heap.HasChild] at hc
    interval_cases p <;> simp [pairOf, Heap.get] at hc
    · rw [hc]
      decide
    · rcases hc with rfl | rfl <;> decide

theorem pairOf_whole (first second : String) : Whole (pairOf first second) 0 := by
  refine ⟨?_, fun n c hn hc => ?_, fun n hn => ?_, rfl, fun n hn => ?_⟩
  · refine ⟨.node .top {} [.node ⟨"pair", 0⟩ {} [.node ⟨"ident", Flag.print⟩ (.ofString first) [],
      .node ⟨"ident", Flag.print⟩ (.ofString second) []]], ?_⟩
    simp [Heap.Represents, Heap.RepresentsAll, pairOf, Heap.get]
  · have hlt := pairOf_lt hn
    rw [Heap.HasChild] at hc
    interval_cases n <;> simp [pairOf, Heap.get] at hc
    · rw [hc]
      rfl
    · rcases hc with rfl | rfl <;> rfl
  · have hlt := pairOf_lt hn
    interval_cases n <;> simp [pairOf, Heap.get]
  · have hlt := pairOf_lt hn
    interval_cases n <;> simp [pairOf, Heap.get, Token.error, Token.top]

theorem pairOf_counts (hn : (pairOf first second).InTree 0 n) :
    pairs.Counts (pairOf first second) n := by
  have hlt := pairOf_lt hn
  interval_cases n
  · exact (rfl : 1 = 1)
  · exact (rfl : 2 = 2)
  · exact (rfl : ([] : List Node) = [])
  · exact (rfl : ([] : List Node) = [])

theorem check_built_pair : ∃ reports, pairs.check
    { heap := pairOf "a" "a", symbols := [⟨0, "a", 1⟩] } 0 = some reports ∧
      ((∀ n c, .missingBinding n c ∉ reports) ↔ pairs.NamedAlike (pairOf "a" "a") 0) :=
  check_built_iff (s := { heap := pairOf "a" "a" }) (pairOf_whole "a" "a")
    (fun _ hn => pairOf_counts hn) rfl

/-- Only the first identifier of the pair is bound. -/
theorem check_built_missing : Whole (pairOf "a" "b") 0 ∧
    (∀ n, (pairOf "a" "b").InTree 0 n → pairs.Counts (pairOf "a" "b") n) ∧
    pairs.buildSt { heap := pairOf "a" "b" } 0 =
      some ({ heap := pairOf "a" "b", symbols := [⟨0, "a", 1⟩] }, true) ∧
    pairs.check { heap := pairOf "a" "b", symbols := [⟨0, "a", 1⟩] } 0 =
      some [.missingBinding 1 3] :=
  ⟨pairOf_whole "a" "b", fun _ hn => pairOf_counts hn, rfl, rfl⟩

end Wellformed

end Trieste.Bindings
