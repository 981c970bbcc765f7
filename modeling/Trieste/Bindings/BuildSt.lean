import Trieste.Ast.Trees
import Trieste.Bindings
import Trieste.Library.Acyclic

namespace Trieste.Bindings
set_option autoImplicit true
open Library Relation

/-- A tree that is no part of another one, without errors. -/
structure Whole (h : Heap) (root : Node) : Prop where
  tree : ∃ t, h.Represents root t
  parent : ∀ n c, h.InTree root n → h.HasChild n c → (h.get c).parent = some n
  nodup : ∀ n, h.InTree root n → (h.get n).children.Nodup
  top : (h.get root).parent = none
  noError : ∀ n, h.InTree root n → (h.get n).type ≠ .error

namespace Whole

/-- A child that is looked at from the root. -/
def Below (h : Heap) (root p c : Node) : Prop := h.InTree root p ∧ h.HasChild p c

theorem forest (hw : Whole heap root) : Forest (Below heap root) := by
  intro p q c hp hq
  have hparent := hw.parent p c hp.1 hp.2
  rw [hw.parent q c hq.1 hq.2] at hparent
  exact (Option.some.inj hparent).symm

theorem reaches (hin : Heap.InTree heap root n) (h : heap.InTree n m) :
    ReflTransGen (Below heap root) n m := by
  induction h with
  | refl => exact .refl
  | tail hab hbc ih => exact ih.tail ⟨hin.trans hab, hbc⟩

theorem not_below (hw : Whole heap root) (hin : heap.InTree root n) (hc : heap.HasChild n c) :
    ¬ heap.InTree c n := by
  obtain ⟨t, ht⟩ := hw.tree
  obtain ⟨t', ht', -⟩ := ht.inTree hin
  exact ht'.not_below hc

/-- The trees of two children have no node in common. -/
theorem siblings (hw : Whole heap root) (hin : heap.InTree root n) (ha : heap.HasChild n a)
    (hb : heap.HasChild n b) (ham : heap.InTree a m) (hbm : heap.InTree b m) : a = b := by
  have hinA : heap.InTree root a := hin.tail ha
  have hinB : heap.InTree root b := hin.tail hb
  have habove : ∀ a b, heap.InTree root a → heap.HasChild n a → heap.HasChild n b →
      ReflTransGen (Below heap root) a b → a = b := by
    intro a b hinA ha hb hab
    rcases hab.cases_tail with heq | ⟨q, haq, hqb⟩
    · exact heq.symm
    · have hq : q = n := hw.forest q n b hqb ⟨hin, hb⟩
      rw [hq] at haq
      have hbelow : heap.InTree a n := ReflTransGen.mono (fun _ _ h => h.2) _ _ haq
      exact absurd hbelow (hw.not_below hin ha)
  rcases hw.forest.total (reaches hinA ham) (reaches hinB hbm) with hab | hba
  · exact habove a b hinA ha hb hab
  · exact (habove b a hinB hb ha hba).symm

theorem scopeFrom_eq (hw : Whole heap root) (hin : heap.InTree root p)
    (h : Json.Store.scopeFrom heap fuel (some p) = some st) :
    heap.InTree root st ∧ heap.InTree st p := by
  induction fuel generalizing p with
  | zero => cases h
  | succ fuel ih =>
    rw [Json.Store.scopeFrom] at h
    split at h
    · obtain rfl := Option.some.inj h
      exact ⟨hin, .refl⟩
    · rcases hin.cases_tail with heq | ⟨q, hq, hc⟩
      · rw [heq, hw.top] at h
        cases fuel <;> cases h
      · rw [hw.parent q p hq hc] at h
        obtain ⟨hst, hup⟩ := ih hq h
        exact ⟨hst, hup.tail hc⟩

theorem scope_eq (hw : Whole heap root) (hin : heap.InTree root n)
    (h : Json.Store.scope heap n = some st) :
    heap.InTree root st ∧ ∃ p, heap.InTree root p ∧ heap.HasChild p n ∧ heap.InTree st p := by
  rw [Json.Store.scope] at h
  rcases hin.cases_tail with heq | ⟨q, hq, hc⟩
  · rw [heq, hw.top] at h
    cases h
  · rw [hw.parent q n hq hc] at h
    obtain ⟨hst, hup⟩ := hw.scopeFrom_eq hq h
    exact ⟨hst, q, hq, hc, hup⟩

theorem scope_above (hw : Whole heap root) (hin : heap.InTree root n)
    (h : Json.Store.scope heap n = some st) : ¬ heap.InTree n st := by
  obtain ⟨-, p, hp, hc, hup⟩ := hw.scope_eq hin h
  intro hbelow
  exact hw.not_below hp hc (hbelow.trans hup)

end Whole

/-- The index of a name is that of the first field with the name. -/
theorem Fields.index_le {f : Fields} {field : Field} (h : f.index name = some k)
    (hfield : f.fields[i]? = some field) (hname : field.name = name) : k ≤ i := by
  rw [Fields.index, List.findIdx?_eq_some_iff_getElem] at h
  obtain ⟨hlt, hfound, hfirst⟩ := h
  apply Nat.le_of_not_lt
  intro hi
  have hnot := hfirst i hi
  obtain ⟨hlen, hget⟩ := List.getElem?_eq_some_iff.1 hfield
  rw [hget] at hnot
  exact hnot (decide_eq_true hname)

/-- The child that a shape binds its node to. -/
def Shape.key (h : Heap) (n : Node) : Shape → Option Node
  | .sequence _ => none
  | .fields f =>
    if f.binding = .invalid ∨ f.binding = includeToken then none
    else (f.index f.binding).bind ((h.get n).children[·]?)

namespace Wellformed
variable {wf : Wellformed} {s s' : Scopes}

def key (wf : Wellformed) (h : Heap) (n : Node) : Option Node :=
  (wf.find (h.get n).type).bind (Shape.key h n)

def Binds (wf : Wellformed) (h : Heap) (n : Node) (b : Json.Binding) : Prop :=
  Json.Store.scope h n = some b.scope ∧ b.node = n ∧
    ∃ key, wf.key h n = some key ∧ b.name = (h.get key).location.view

theorem not_binds (h : wf.key heap n = none) : ¬ wf.Binds heap n b := by
  intro hb
  obtain ⟨-, -, key, hkey, -⟩ := hb
  rw [h] at hkey
  cases hkey

theorem key_fields (h : wf.find (Heap.get heap n).type = some (.fields f)) :
    wf.key heap n = if f.binding = .invalid ∨ f.binding = includeToken then none
      else (f.index f.binding).bind ((heap.get n).children[·]?) := by
  rw [key, h, Option.bind_some, Shape.key]

theorem bind_binds (h : s.bind n name = some (s', ok)) (hkey : wf.key s.heap n = some c)
    (hname : (s.heap.get c).location = name) :
    s'.heap = s.heap ∧ ∀ b, b ∈ s'.symbols ↔ b ∈ s.symbols ∨ wf.Binds s.heap n b := by
  obtain ⟨st, hst, hs⟩ := Option.map_eq_some_iff.1 h
  obtain ⟨rfl, -⟩ := Prod.mk.inj hs
  refine ⟨rfl, fun b => ?_⟩
  rw [List.mem_append, List.mem_singleton]
  apply or_congr Iff.rfl
  constructor
  · intro hb
    subst hb
    exact ⟨hst, rfl, c, hkey, congrArg Location.view hname.symm⟩
  · intro hb
    obtain ⟨hscope, hnode, key', hkey', hview⟩ := hb
    rw [hkey] at hkey'
    cases hkey'
    cases b
    cases hscope.symm.trans hst
    cases hnode
    rw [hname] at hview
    cases hview
    rfl

theorem bindShape_binds (h : wf.bindShape s n = some (s', ok)) :
    s'.heap = s.heap ∧ ∀ b, b ∈ s'.symbols ↔ b ∈ s.symbols ∨ wf.Binds s.heap n b := by
  have hnone (hkey : wf.key s.heap n = none) (hheap : s'.heap = s.heap)
      (hsymbols : s'.symbols = s.symbols) :
      s'.heap = s.heap ∧ ∀ b, b ∈ s'.symbols ↔ b ∈ s.symbols ∨ wf.Binds s.heap n b := by
    refine ⟨hheap, fun b => ?_⟩
    rw [hsymbols, or_iff_left (not_binds hkey)]
  rw [bindShape] at h
  split at h
  · next f hf =>
    have hkey := key_fields hf
    rw [Fields.buildSt] at h
    split at h
    · next hinvalid =>
      cases h
      rw [if_pos (.inl hinvalid)] at hkey
      exact hnone hkey rfl rfl
    · next hinvalid =>
      split at h
      · next hinclude =>
        obtain ⟨s₁, hs₁, hs⟩ := Option.map_eq_some_iff.1 h
        cases hs
        obtain ⟨st, -, rfl⟩ := Option.map_eq_some_iff.1 hs₁
        rw [if_pos (.inr hinclude)] at hkey
        exact hnone hkey rfl rfl
      · next hinclude =>
        rw [if_neg (not_or.2 ⟨hinvalid, hinclude⟩)] at hkey
        split at h
        · next hindex =>
          cases h
          rw [hindex] at hkey
          exact hnone hkey rfl rfl
        · next index hindex =>
          rw [hindex, Option.bind_some] at hkey
          split at h
          · next hchild =>
            cases h
            exact hnone (hkey.trans hchild) rfl rfl
          · next child hchild => exact bind_binds h (hkey.trans hchild) rfl
  · next hother =>
    cases h
    refine hnone ?_ rfl rfl
    rw [key]
    cases hfind : wf.find (s.heap.get n).type with
    | none => rfl
    | some shape =>
      cases shape with
      | sequence q => rfl
      | fields f => exact absurd hfind (hother f)

/-- The symbol tables once the trees of some nodes have been built, where those outside are kept. -/
def Built (wf : Wellformed) (s s' : Scopes) (ns : List Node) : Prop :=
  s'.heap = s.heap ∧ ∀ b, b ∈ s'.symbols ↔
    (b ∈ s.symbols ∧ ∀ n ∈ ns, ¬ s.heap.InTree n b.scope) ∨
      ∃ n ∈ ns, ∃ m, s.heap.InTree n m ∧ wf.Binds s.heap m b

theorem Built.nil (wf : Wellformed) (s : Scopes) : wf.Built s s [] := by
  refine ⟨rfl, fun b => ?_⟩
  simp

/-- Trees that are built later keep what was bound, where no scope of it is in them. -/
theorem Built.cons (h : wf.Built s s₁ [c]) (h' : wf.Built s₁ s' cs)
    (hapart : ∀ m b, s.heap.InTree c m → wf.Binds s.heap m b →
      ∀ c' ∈ cs, ¬ s.heap.InTree c' b.scope) : wf.Built s s' (c :: cs) := by
  have hrest := h'.2
  rw [h.1] at hrest
  refine ⟨h'.1.trans h.1, fun b => ?_⟩
  rw [hrest b, h.2 b]
  simp only [List.mem_singleton, forall_eq, exists_eq_left, List.forall_mem_cons,
    List.exists_mem_cons_iff]
  constructor
  · intro hb
    rcases hb with ⟨⟨hb, hc⟩ | hb, hcs⟩ | hb
    · exact .inl ⟨hb, hc, hcs⟩
    · exact .inr (.inl hb)
    · exact .inr (.inr hb)
  · intro hb
    rcases hb with ⟨hb, hc, hcs⟩ | ⟨m, hm, hb⟩ | hb
    · exact .inl ⟨.inl ⟨hb, hc⟩, hcs⟩
    · exact .inl ⟨.inr ⟨m, hm, hb⟩, hapart m b hm hb⟩
    · exact .inr hb

/-- The scope of what is bound in the tree of a child is not in the tree of another child. -/
theorem Binds.apart (hw : Whole heap root) (hin : heap.InTree root n) (hc : heap.HasChild n c)
    (hc' : heap.HasChild n c') (hne : c ≠ c') (hm : heap.InTree c m)
    (hb : wf.Binds heap m b) : ¬ heap.InTree c' b.scope := by
  intro hscope
  have hroot : heap.InTree root m := (hin.tail hc).trans hm
  obtain ⟨-, p, -, hpm, hup⟩ := hw.scope_eq hroot hb.1
  exact hne (hw.siblings hin hc hc' hm (hscope.trans (hup.tail hpm)))

theorem buildChildren_built (hw : Whole s.heap root) (hin : s.heap.InTree root n)
    {build : Scopes → Node → Option (Scopes × Bool)}
    (hbuild : ∀ c (t t' : Scopes) built, heap = t.heap → heap.HasChild n c →
      build t c = some (t', built) → wf.Built t t' [c])
    {children : List Node} (hsub : ∀ c ∈ children, s.heap.HasChild n c) (hnodup : children.Nodup)
    (hheap : heap = s.heap)
    (h : buildChildren build children (s, ok) = some (s', ok')) : wf.Built s s' children := by
  induction children generalizing s ok with
  | nil =>
    cases h
    exact .nil wf _
  | cons c children ih =>
    obtain ⟨hfresh, hnodup⟩ := List.nodup_cons.1 hnodup
    obtain ⟨hc, hsub⟩ := List.forall_mem_cons.1 hsub
    obtain ⟨r, hr, hrest⟩ := Option.bind_eq_some_iff.1 h
    have hfirst := hbuild c s r.1 r.2 hheap (by rwa [hheap]) hr
    have hkept : r.1.heap = s.heap := hfirst.1
    have hothers := ih (by rwa [hkept]) (by rwa [hkept]) (by rwa [hkept]) hnodup
      (hheap.trans hkept.symm) hrest
    refine hfirst.cons hothers ?_
    intro m b hm hb c' hc'
    apply hb.apart hw hin hc (hsub c' hc') _ hm
    rintro rfl
    exact hfresh hc'

theorem built_node (hw : Whole s.heap root) (hin : s.heap.InTree root n)
    (hshape : wf.bindShape (s.clearSymbols n) n = some (s₁, ok))
    (hchildren : wf.Built s₁ s' (s.heap.get n).children) : wf.Built s s' [n] := by
  obtain ⟨hheap, hbinds⟩ := bindShape_binds hshape
  have hheap : s₁.heap = s.heap := hheap
  have hbelow := hchildren.2
  rw [hheap] at hbelow
  refine ⟨hchildren.1.trans hheap, fun b => ?_⟩
  have hclear : b ∈ (s.clearSymbols n).symbols ↔ b ∈ s.symbols ∧ b.scope ≠ n := by
    simp [Scopes.clearSymbols]
  have hbinds : b ∈ s₁.symbols ↔ (b ∈ s.symbols ∧ b.scope ≠ n) ∨ wf.Binds s.heap n b := by
    rw [hbinds b, hclear]
    rfl
  rw [hbelow b, hbinds]
  simp only [List.mem_singleton, forall_eq, exists_eq_left]
  constructor
  · intro hb
    rcases hb with ⟨⟨hb, hne⟩ | hb, hcs⟩ | ⟨c, hc, m, hm, hb⟩
    · refine .inl ⟨hb, fun hscope => ?_⟩
      rcases hscope.cases_head with heq | ⟨c, hc, hscope⟩
      · exact hne heq.symm
      · exact hcs c hc hscope
    · exact .inr ⟨n, .refl, hb⟩
    · exact .inr ⟨m, .head hc hm, hb⟩
  · intro hb
    rcases hb with ⟨hb, hout⟩ | ⟨m, hm, hb⟩
    · refine .inl ⟨.inl ⟨hb, ?_⟩, fun c hc hscope => hout (.head hc hscope)⟩
      rintro rfl
      exact hout .refl
    · rcases hm.cases_head with rfl | ⟨c, hc, hm⟩
      · refine .inl ⟨.inr hb, fun c hc hscope => ?_⟩
        exact hw.scope_above hin hb.1 (.head hc hscope)
      · exact .inr ⟨c, hc, m, hm, hb⟩

theorem buildStFrom_built (hw : Whole s.heap root) (hin : s.heap.InTree root n)
    (h : wf.buildStFrom fuel s n = some (s', ok)) : wf.Built s s' [n] := by
  induction fuel generalizing s n s' ok with
  | zero => cases h
  | succ fuel ih =>
    rw [buildStFrom, if_neg (hw.noError n hin)] at h
    obtain ⟨r, hr, hchildren⟩ := Option.bind_eq_some_iff.1 h
    have hheap : r.1.heap = s.heap := (bindShape_binds hr).1
    apply built_node hw hin hr
    have hwhole : Whole r.1.heap root := by rwa [hheap]
    have hsub : ∀ c ∈ (s.heap.get n).children, r.1.heap.HasChild n c := by
      intro c hc
      rwa [hheap]
    apply buildChildren_built hwhole (by rwa [hheap]) _ hsub (hw.nodup n hin) hheap.symm hchildren
    intro c t t' built ht hc hbuild
    rw [ht] at hw hin hc
    exact ih hw (hin.tail hc) hbuild

/-- Once a tree has been built, its symbol tables hold what its nodes bind. -/
theorem buildSt_symbols (hw : Whole s.heap root) (h : wf.buildSt s root = some (s', ok)) :
    s'.heap = s.heap ∧ ∀ b, s.heap.InTree root b.scope →
      (b ∈ s'.symbols ↔ ∃ m, s.heap.InTree root m ∧ wf.Binds s.heap m b) := by
  have hbuilt := buildStFrom_built hw .refl h
  refine ⟨hbuilt.1, fun b hb => ?_⟩
  rw [hbuilt.2 b]
  simp [hb]

end Wellformed

end Trieste.Bindings
