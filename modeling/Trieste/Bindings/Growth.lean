import Trieste.Bindings.Location
import Trieste.Bindings.Steps

namespace Trieste.Bindings
set_option autoImplicit true
open Library Relation Wf

/-- The heap after a node of the type was added to the children of another one. -/
def addChild (h : Heap) (n : Node) (type : Token) : Heap :=
  (h.create type {}).1.pushBack n (some h.nodes.length)

def Scopes.added (s : Scopes) (n : Node) (type : Token) : Scopes :=
  { s with heap := addChild s.heap n type }

/-- The heap after a choice of a type and a location. -/
def chosen (h : Heap) (n : Node) (type : Token) (location : Location) : Heap :=
  setLocation (addChild h n type) h.nodes.length location

theorem length_addChild (h : Heap) (n : Node) (type : Token) :
    (addChild h n type).nodes.length = h.nodes.length + 1 := by
  rw [addChild, Heap.length_pushBack, Heap.length_create]

theorem type_addChild (h : Heap) (n : Node) (type : Token) (q : Node) :
    ((addChild h n type).get q).type = if q = h.nodes.length then type else (h.get q).type := by
  rw [addChild, Heap.type_pushBack, Heap.get_create]
  split <;> rfl

theorem parent_addChild (h : Heap) (n : Node) (type : Token) (q : Node) :
    ((addChild h n type).get q).parent =
      if q = h.nodes.length then some n else (h.get q).parent := by
  rw [addChild, Heap.parent_pushBack, Heap.length_create, Heap.get_create]
  by_cases hq : q = h.nodes.length
  · rw [if_pos ⟨hq.symm, Nat.lt_succ_self _⟩, if_pos hq]
  · rw [if_neg fun h => hq h.1.symm, if_neg hq, if_neg hq]

theorem children_addChild {h : Heap} (hn : n < h.nodes.length) (type : Token) (q : Node) :
    ((addChild h n type).get q).children =
      if n = q then (h.get n).children ++ [h.nodes.length] else (h.get q).children := by
  have hcreate (q : Node) : ((h.create type {}).1.get q).children = (h.get q).children := by
    rw [Heap.get_create]
    split
    · next hq => rw [hq, Heap.get_of_le h (Nat.le_refl _)]
    · rfl
  have hlt : n < (h.create type {}).1.nodes.length := by
    rw [Heap.length_create]
    exact Nat.lt_succ_of_lt hn
  rw [addChild, Heap.children_pushBack _ hlt, hcreate, hcreate]

theorem location_addChild (h : Heap) (n : Node) (type : Token) (q : Node) :
    ((addChild h n type).get q).location = (h.get q).location := by
  rw [addChild, Heap.location_pushBack, Heap.get_create]
  split
  · next hq => rw [hq, Heap.get_of_le h (Nat.le_refl _)]
  · rfl

theorem length_chosen (h : Heap) (n : Node) (type : Token) (location : Location) :
    (chosen h n type location).nodes.length = h.nodes.length + 1 := by
  rw [chosen, setLocation, Heap.modify, List.length_modify, length_addChild]

theorem type_chosen (h : Heap) (n : Node) (type : Token) (location : Location) (q : Node) :
    ((chosen h n type location).get q).type =
      if q = h.nodes.length then type else (h.get q).type := by
  rw [chosen, ← type_addChild h n type q]
  exact Heap.proj_modify (π := NodeDef.type) _ _ q _ fun _ => rfl

theorem parent_chosen (h : Heap) (n : Node) (type : Token) (location : Location) (q : Node) :
    ((chosen h n type location).get q).parent =
      if q = h.nodes.length then some n else (h.get q).parent := by
  rw [chosen, ← parent_addChild h n type q]
  exact Heap.proj_modify (π := NodeDef.parent) _ _ q _ fun _ => rfl

theorem children_chosen {h : Heap} (hn : n < h.nodes.length) (type : Token) (location : Location)
    (q : Node) : ((chosen h n type location).get q).children =
      if n = q then (h.get n).children ++ [h.nodes.length] else (h.get q).children := by
  rw [chosen, ← children_addChild hn type q]
  exact Heap.proj_modify (π := NodeDef.children) _ _ q _ fun _ => rfl

theorem location_chosen (h : Heap) (n : Node) (type : Token) (location : Location) (q : Node) :
    ((chosen h n type location).get q).location =
      if q = h.nodes.length then location else (h.get q).location := by
  rw [chosen, setLocation, Heap.get_modify, length_addChild]
  by_cases hq : q = h.nodes.length
  · rw [if_pos ⟨hq.symm, Nat.lt_succ_self _⟩, if_pos hq]
  · rw [if_neg fun h => hq h.1.symm, if_neg hq, location_addChild]

namespace Generator
variable (g : Generator) (gloc : FreshLocations) (draws : Draws)

def childLocation (n : Node) (s : Scopes) (type : Token) (j : Nat) : Except Failure Location :=
  g.location (s.added n type) (gloc (s.added n type).heap s.heap.nodes.length draws (j + 1)).1 n
    s.heap.nodes.length (draws j)

/-- The number of results that are used up after the location. -/
def afterChild (n : Node) (s : Scopes) (type : Token) (j : Nat) : Nat :=
  if (g.selected (s.added n type) n s.heap.nodes.length (draws j)).isSome then j + 1
  else (gloc (s.added n type).heap s.heap.nodes.length draws (j + 1)).2

theorem genChoice_eq (c : Wf.Choice) (depth : Nat) (n : Node) (s : Scopes) (i : Nat) :
    g.genChoice gloc draws c depth n s i =
      (g.choose c.types depth (s.heap.get n).type draws i).mapError .choice >>= fun r =>
        (g.childLocation gloc draws n s r.1 r.2).map fun location =>
          ({ s with heap := chosen s.heap n r.1 location },
            g.afterChild gloc draws n s r.1 r.2) := rfl

variable {g gloc draws}

theorem genChoice_ok {r : Scopes × Nat} : g.genChoice gloc draws c depth n s i = .ok r ↔
    ∃ type j location, g.choose c.types depth (s.heap.get n).type draws i = .ok (type, j) ∧
      g.childLocation gloc draws n s type j = .ok location ∧
      r = ({ s with heap := chosen s.heap n type location },
        g.afterChild gloc draws n s type j) := by
  rw [genChoice_eq]
  cases g.choose c.types depth (s.heap.get n).type draws i with
  | error e =>
    constructor
    · intro h
      cases h
    · intro h
      obtain ⟨_, _, _, h, _⟩ := h
      cases h
  | ok choice =>
    rw [Except.mapError, ok_bind, map_eq_ok]
    constructor
    · intro h
      obtain ⟨location, hlocation, rfl⟩ := h
      exact ⟨choice.1, choice.2, location, rfl, hlocation, rfl⟩
    · intro h
      obtain ⟨type, j, location, hchoice, hlocation, rfl⟩ := h
      cases hchoice
      exact ⟨location, hlocation, rfl⟩

theorem genChoice_error (h : g.genChoice gloc draws c depth n s i = .error e) :
    (∃ e', g.choose c.types depth (s.heap.get n).type draws i = .error e') ∨
      ∃ type j, g.choose c.types depth (s.heap.get n).type draws i = .ok (type, j) ∧
        g.childLocation gloc draws n s type j = .error e := by
  rw [genChoice_eq] at h
  cases hchoose : g.choose c.types depth (s.heap.get n).type draws i with
  | error e' => exact .inl ⟨e', rfl⟩
  | ok choice =>
    rw [hchoose, Except.mapError, ok_bind] at h
    refine .inr ⟨choice.1, choice.2, rfl, ?_⟩
    cases hlocation : g.childLocation gloc draws n s choice.1 choice.2 with
    | error e' =>
      rw [hlocation] at h
      cases h
      rfl
    | ok location =>
      rw [hlocation] at h
      cases h

end Generator

/-- A tree under a top node whose nodes are created below their parents. -/
structure Rooted (h : Heap) : Prop where
  linked : h.Linked
  nodup : ∀ n, (h.get n).children.Nodup
  top : 0 < h.nodes.length ∧ (h.get 0).type = .top
  orphan : (h.get 0).parent = none
  parent : ∀ n < h.nodes.length, n ≠ 0 → ∃ p < n, (h.get n).parent = some p

namespace Rooted
variable {h : Heap}

theorem topOnly : Rooted topOnly.heap := by
  refine ⟨fun n c hc => ?_, fun n => ?_, ⟨Nat.one_pos, rfl⟩, rfl, fun n hn hne => ?_⟩
  · cases n <;> cases hc
  · cases n <;> exact List.nodup_nil
  · exact absurd (Nat.lt_one_iff.1 hn) hne

theorem chosen (hr : Rooted h) (hn : n < h.nodes.length) (type : Token) (location : Location) :
    Rooted (chosen h n type location) := by
  have hnew (q : Node) : h.nodes.length ∉ (h.get q).children :=
    fun hq => Nat.lt_irrefl _ (hr.linked.lt hq)
  refine ⟨fun q c hc => ?_, fun q => ?_, ⟨?_, ?_⟩, ?_, fun q hq hne => ?_⟩
  · rw [children_chosen hn] at hc
    rw [parent_chosen]
    split at hc
    · next heq =>
      rcases List.mem_append.1 hc with hc | hc
      · rw [if_neg (Nat.ne_of_lt (hr.linked.lt hc)), hr.linked n c hc, heq]
      · rw [if_pos (List.mem_singleton.1 hc), heq]
    · rw [if_neg (Nat.ne_of_lt (hr.linked.lt hc)), hr.linked q c hc]
  · rw [children_chosen hn]
    split
    · rw [← List.concat_eq_append]
      exact (hr.nodup n).concat (hnew n)
    · exact hr.nodup q
  · rw [length_chosen]
    exact Nat.succ_pos _
  · rw [type_chosen, if_neg (Nat.ne_of_lt hr.top.1), hr.top.2]
  · rw [parent_chosen, if_neg (Nat.ne_of_lt hr.top.1), hr.orphan]
  · rw [length_chosen] at hq
    rw [parent_chosen]
    split
    · next heq => exact ⟨n, heq ▸ hn, rfl⟩
    · next hlt => exact hr.parent q (Nat.lt_of_le_of_ne (Nat.le_of_lt_succ hq) hlt) hne

/-- Below the top node there is a scope. -/
theorem scope (hr : Rooted h) (hn : n < h.nodes.length) (hne : n ≠ 0) :
    ∃ st, Json.Store.scope h n = some st := by
  have hfrom (fuel p : Nat) (hp : p < fuel) (hlt : p < h.nodes.length) :
      ∃ st, Json.Store.scopeFrom h fuel (some p) = some st := by
    induction fuel generalizing p with
    | zero => cases hp
    | succ fuel ih =>
      rw [Json.Store.scopeFrom]
      split
      · exact ⟨p, rfl⟩
      · next hsymtab =>
        have hp' : p ≠ 0 := by
          rintro rfl
          rw [hr.top.2] at hsymtab
          exact hsymtab (by decide)
        obtain ⟨q, hq, hparent⟩ := hr.parent p hlt hp'
        rw [hparent]
        exact ih q (Nat.lt_of_lt_of_le hq (Nat.le_of_lt_succ hp)) (Nat.lt_trans hq hlt)
  obtain ⟨p, hp, hparent⟩ := hr.parent n hn hne
  rw [Json.Store.scope, hparent]
  have hlt := Nat.lt_trans hp hn
  exact hfrom _ p (Nat.lt_succ_of_lt hlt) hlt

end Rooted

/-- The second heap has new children of the types below a node. -/
structure Adds (n : Node) (ts : List Token) (h h' : Heap) : Prop where
  length : h.nodes.length ≤ h'.nodes.length
  type : ∀ m < h.nodes.length, (h'.get m).type = (h.get m).type
  others : ∀ m, m ≠ n → (h'.get m).children = (h.get m).children
  children : ∃ new, (h'.get n).children = (h.get n).children ++ new ∧ new.Nodup ∧
    new.map (fun c => (h'.get c).type) = ts ∧
    ∀ c ∈ new, h.nodes.length ≤ c ∧ c < h'.nodes.length

namespace Adds
variable {h h' : Heap}

theorem refl (n : Node) (h : Heap) : Adds n [] h h :=
  ⟨Nat.le_refl _, fun _ _ => rfl, fun _ _ => rfl,
    ⟨[], (List.append_nil _).symm, List.nodup_nil, rfl, fun _ hc => absurd hc List.not_mem_nil⟩⟩

theorem trans (h₁ : Adds n ts h h') (h₂ : Adds n us h' h'') : Adds n (ts ++ us) h h'' := by
  obtain ⟨new₁, hchildren₁, hnodup₁, htypes₁, hnew₁⟩ := h₁.children
  obtain ⟨new₂, hchildren₂, hnodup₂, htypes₂, hnew₂⟩ := h₂.children
  refine ⟨Nat.le_trans h₁.length h₂.length, fun m hm => ?_, fun m hm => ?_, new₁ ++ new₂, ?_, ?_,
    ?_, fun c hc => ?_⟩
  · exact (h₂.type m (Nat.lt_of_lt_of_le hm h₁.length)).trans (h₁.type m hm)
  · exact (h₂.others m hm).trans (h₁.others m hm)
  · rw [hchildren₂, hchildren₁, List.append_assoc]
  · refine List.Nodup.append hnodup₁ hnodup₂ fun c hc hc' => ?_
    exact Nat.not_le.2 (hnew₁ c hc).2 (hnew₂ c hc').1
  · rw [List.map_append, ← htypes₁, ← htypes₂, List.append_left_inj]
    exact List.map_congr_left fun c hc => h₂.type c (hnew₁ c hc).2
  · rcases List.mem_append.1 hc with hc | hc
    · exact ⟨(hnew₁ c hc).1, Nat.lt_of_lt_of_le (hnew₁ c hc).2 h₂.length⟩
    · exact ⟨Nat.le_trans h₁.length (hnew₂ c hc).1, (hnew₂ c hc).2⟩

theorem chosen (hn : n < h.nodes.length) (type : Token) (location : Location) :
    Adds n [type] h (chosen h n type location) := by
  refine ⟨?_, fun m hm => ?_, fun m hm => ?_, [h.nodes.length], ?_, List.nodup_singleton _, ?_,
    fun c hc => ?_⟩
  · rw [length_chosen]
    exact Nat.le_succ _
  · rw [type_chosen, if_neg (Nat.ne_of_lt hm)]
  · rw [children_chosen hn, if_neg (Ne.symm hm)]
  · rw [children_chosen hn, if_pos rfl]
  · rw [List.map_singleton, type_chosen, if_pos rfl]
  · rw [List.mem_singleton.1 hc, length_chosen]
    exact ⟨Nat.le_refl _, Nat.lt_succ_self _⟩

theorem children_le (ha : Adds n ts h h') (m : Node) :
    (h.get m).children.length ≤ (h'.get m).children.length := by
  by_cases hm : m = n
  · obtain ⟨new, hnew, -⟩ := ha.children
    rw [hm, hnew, List.length_append]
    exact Nat.le_add_right ..
  · rw [ha.others m hm]

end Adds

namespace Task

def target : Task → Node
  | .node _ n | .choice _ _ n | .bind n | .more _ _ n _ | .children _ n => n

/-- The number of children that a task adds to a node by itself. -/
def adds : Task → Node → Nat
  | .choice _ _ n, m => if n = m then 1 else 0
  | _, _ => 0

/-- The choices are those of the shapes, and a node is bound by its own shape. -/
def Fits (wf : Wellformed) (h : Heap) : Task → Prop
  | .choice c _ _ | .more c _ _ _ => ∃ type shape, wf.plain.find type = some shape ∧
      c ∈ shape.choices
  | .bind n => ∃ f, wf.find (h.get n).type = some (.fields f) ∧
      ∃ field ∈ f.fields, f.binding = field.name
  | _ => True

/-- A node that is bound has its key, with the children that come before. -/
def Bound (wf : Wellformed) (h : Heap) (extra : Node → Nat) : Task → Prop
  | .bind n => ∀ keys, wf.keys (h.get n).type = some keys →
      keys.2 < (h.get n).children.length + extra n
  | _ => True

/-- The nodes are bound after their keys are there. -/
def Ready (wf : Wellformed) (h : Heap) : (Node → Nat) → List Task → Prop
  | _, [] => True
  | extra, t :: tasks => t.Bound wf h extra ∧ Ready wf h (fun n => extra n + t.adds n) tasks

variable {wf : Wellformed} {h h' : Heap} {extra extra' : Node → Nat} {tasks : List Task}

theorem Fits.mono {t : Task} (ht : t.Fits wf h)
    (htype : (h'.get t.target).type = (h.get t.target).type) : t.Fits wf h' := by
  cases t with
  | bind n =>
    rw [target] at htype
    rw [Fits, htype]
    exact ht
  | _ => exact ht

theorem Bound.mono {t : Task} (ht : t.Bound wf h extra)
    (htype : (h'.get t.target).type = (h.get t.target).type)
    (hle : ∀ n, (h.get n).children.length + extra n ≤ (h'.get n).children.length + extra' n) :
    t.Bound wf h' extra' := by
  cases t with
  | bind n =>
    intro keys hkeys
    rw [target] at htype
    rw [htype] at hkeys
    exact Nat.lt_of_lt_of_le (ht keys hkeys) (hle n)
  | _ => exact ht

theorem Ready.mono (hr : Ready wf h extra tasks)
    (htype : ∀ t ∈ tasks, (h'.get t.target).type = (h.get t.target).type)
    (hle : ∀ n, (h.get n).children.length + extra n ≤ (h'.get n).children.length + extra' n) :
    Ready wf h' extra' tasks := by
  induction tasks generalizing extra extra' with
  | nil => trivial
  | cons t tasks ih =>
    rw [List.forall_mem_cons] at htype
    refine ⟨hr.1.mono htype.1 hle, ih hr.2 htype.2 fun n => ?_⟩
    rw [← Nat.add_assoc, ← Nat.add_assoc]
    exact Nat.add_le_add_right (hle n) _

theorem Ready.append {tasks' : List Task} (hr : Ready wf h extra tasks)
    (hr' : Ready wf h extra tasks') : Ready wf h extra (tasks ++ tasks') := by
  induction tasks generalizing extra with
  | nil => exact hr'
  | cons t tasks ih =>
    refine ⟨hr.1, ih hr.2 (hr'.mono (fun _ _ => rfl) fun n => ?_)⟩
    exact Nat.add_le_add_left (Nat.le_add_right _ _) _

theorem ready_fields {f : Fields} {n : Node} (depth : Nat)
    (hkeys : ∀ keys, wf.keys (h.get n).type = some keys → f.index f.binding = some keys.2)
    (hfields : f.fields = done ++ fields)
    (hdone : done.length ≤ (h.get n).children.length + extra n) :
    Ready wf h extra (Generator.fieldTasks f depth n fields) := by
  induction fields generalizing done extra with
  | nil => trivial
  | cons field fields ih =>
    rw [Generator.fieldTasks, List.flatMap_cons]
    have hmore : (done ++ [field]).length ≤ (h.get n).children.length +
        (extra n + adds (.choice field.choice depth n) n) := by
      rw [List.length_append, adds, if_pos rfl, ← Nat.add_assoc]
      exact Nat.succ_le_succ hdone
    have hfields' : f.fields = (done ++ [field]) ++ fields := by
      rw [hfields, List.append_assoc, List.singleton_append]
    have hrest : Ready wf h (fun m => extra m + adds (.choice field.choice depth n) m)
        (Generator.fieldTasks f depth n fields) := ih hfields' hmore
    refine ⟨trivial, Ready.append ?_ hrest⟩
    split
    · next hbinding =>
      refine ⟨fun keys hk => ?_, trivial⟩
      have hfield : f.fields[done.length]? = some field := by
        rw [hfields, List.getElem?_append_right (Nat.le_refl _), Nat.sub_self]
        rfl
      have hle := Fields.index_le (hkeys keys hk) hfield hbinding.symm
      rw [List.length_append] at hmore
      exact Nat.lt_of_le_of_lt hle hmore
    · trivial

theorem ready_of_none {tasks : List Task} (hnone : ∀ t ∈ tasks, ∀ n, t ≠ .bind n) :
    Ready wf h extra tasks := by
  induction tasks generalizing extra with
  | nil => trivial
  | cons t tasks ih =>
    rw [List.forall_mem_cons] at hnone
    refine ⟨?_, ih hnone.2⟩
    cases t with
    | bind n => exact absurd rfl (hnone.1 n)
    | _ => trivial

end Task

theorem Shape.keys_fields {f : Fields} {keys : SymtabKeys} (h : (Shape.fields f).keys = some keys) :
    f.index f.binding = some keys.2 := by
  rw [Shape.keys] at h
  split at h
  · cases h
  · obtain ⟨index, hindex, h⟩ := Option.bind_eq_some_iff.1 h
    obtain ⟨field, -, rfl⟩ := Option.map_eq_some_iff.1 h
    exact hindex

namespace Wellformed
variable {wf : Wellformed} {g : Generator}

theorem plain_find (wf : Wellformed) (type : Token) :
    wf.plain.find type = (wf.find type).map Shape.plain := by
  obtain ⟨shapes, hnodup⟩ := wf
  rw [Trieste.Wellformed.find, find, plain]
  dsimp only
  clear hnodup
  induction shapes with
  | nil => rfl
  | cons entry shapes ih =>
    rw [List.map_cons, List.lookup_cons, List.lookup_cons]
    split
    · rfl
    · exact ih

/-- What holds of the tasks and the tree of a generation. -/
structure Generating (wf : Wellformed) (tasks : List Task) (s : Scopes) : Prop where
  rooted : Rooted s.heap
  bound : ∀ b ∈ s.symbols, b.node < s.heap.nodes.length
  grown : wf.Grown s
  targets : ∀ t ∈ tasks, t.target < s.heap.nodes.length
  fits : ∀ t ∈ tasks, t.Fits wf s.heap
  ready : Task.Ready wf s.heap (fun _ => 0) tasks

theorem next_cases (h : wf.Next g gloc draws k k') :
    ∃ t rest ts s' i', k.tasks = t :: rest ∧
      wf.perform g gloc draws t k.scopes k.index = .ok (ts, s', i') ∧
      k' = ⟨ts ++ rest, s', i'⟩ := by
  rw [Next, step] at h
  split at h
  · cases h
  · next t rest htasks =>
    obtain ⟨r, hr, hk⟩ := map_eq_ok.1 h
    exact ⟨t, rest, r.1, r.2.1, r.2.2, htasks, hr, (Option.some.inj hk).symm⟩

namespace Generating

theorem start (wf : Wellformed) : wf.Generating [.node 0 0] topOnly where
  rooted := .topOnly
  bound := fun _ hb => absurd hb List.not_mem_nil
  grown := fun _ hb => absurd hb List.not_mem_nil
  targets := fun t ht => by
    rw [List.mem_singleton.1 ht]
    exact Nat.one_pos
  fits := fun t ht => by
    rw [List.mem_singleton.1 ht]
    trivial
  ready := ⟨trivial, trivial⟩

/-- Other tasks take the place of one in the same tree. -/
theorem replace (h : wf.Generating (t :: rest) s) (hadds : t.adds = fun _ => 0)
    (htargets : ∀ u ∈ ts, u.target < s.heap.nodes.length) (hfits : ∀ u ∈ ts, u.Fits wf s.heap)
    (hready : Task.Ready wf s.heap (fun _ => 0) ts) : wf.Generating (ts ++ rest) s := by
  have hrest := h.ready.2
  rw [hadds] at hrest
  exact ⟨h.rooted, h.bound, h.grown,
    List.forall_mem_append.2 ⟨htargets, (List.forall_mem_cons.1 h.targets).2⟩,
    List.forall_mem_append.2 ⟨hfits, (List.forall_mem_cons.1 h.fits).2⟩, hready.append hrest⟩

theorem done (h : wf.Generating (t :: rest) s) (hadds : t.adds = fun _ => 0) :
    wf.Generating rest s :=
  @replace wf t rest s [] h hadds (fun _ hu => absurd hu List.not_mem_nil)
    (fun _ hu => absurd hu List.not_mem_nil) trivial

theorem choice (h : wf.Generating (.choice c depth n :: rest) s) (type : Token)
    (location : Location) :
    wf.Generating rest { s with heap := chosen s.heap n type location } := by
  have htargets := (List.forall_mem_cons.1 h.targets).2
  have hn : n < s.heap.nodes.length := (List.forall_mem_cons.1 h.targets).1
  have ha := Adds.chosen hn type location
  have htype : ∀ t ∈ rest, ((chosen s.heap n type location).get t.target).type =
      (s.heap.get t.target).type := fun t ht => ha.type _ (htargets t ht)
  refine ⟨h.rooted.chosen hn type location, fun b hb => ?_, fun b hb keys hkeys => ?_,
    fun t ht => ?_, fun t ht => ?_, h.ready.2.mono htype fun m => ?_⟩
  · exact Nat.lt_of_lt_of_le (h.bound b hb) ha.length
  · rw [ha.type b.node (h.bound b hb)] at hkeys
    exact Nat.lt_of_lt_of_le (h.grown b hb keys hkeys) (ha.children_le b.node)
  · exact Nat.lt_of_lt_of_le (htargets t ht) ha.length
  · exact ((List.forall_mem_cons.1 h.fits).2 t ht).mono (htype t ht)
  · rw [Task.adds]
    split
    · next heq =>
      rw [children_chosen hn, if_pos heq, heq, List.length_append]
      exact Nat.le_refl _
    · exact ha.children_le m

theorem bind (h : wf.Generating (.bind n :: rest) s) (hb : s.bind n name = some (s', ok)) :
    wf.Generating rest s' ∧ s'.heap = s.heap := by
  obtain ⟨st, -, hs⟩ := Option.map_eq_some_iff.1 hb
  obtain ⟨rfl, -⟩ := Prod.mk.inj hs
  have hdone := h.done rfl
  refine ⟨⟨hdone.rooted, fun b hb => ?_, fun b hb keys hkeys => ?_, hdone.targets, hdone.fits,
    hdone.ready⟩, rfl⟩
  · rcases List.mem_append.1 hb with hb | hb
    · exact h.bound b hb
    · rw [List.mem_singleton.1 hb]
      exact (List.forall_mem_cons.1 h.targets).1
  · rcases List.mem_append.1 hb with hb | hb
    · exact h.grown b hb keys hkeys
    · rw [List.mem_singleton.1 hb] at hkeys ⊢
      exact h.ready.1 keys hkeys

theorem node (h : wf.Generating (.node depth n :: rest) s)
    (hshape : wf.find (s.heap.get n).type = some shape) :
    wf.Generating (g.shapeTasks depth n shape ++ [.children depth n] ++ rest) s := by
  have hn : n < s.heap.nodes.length := (List.forall_mem_cons.1 h.targets).1
  have hplain : wf.plain.find (s.heap.get n).type = some shape.plain := by
    rw [plain_find, hshape, Option.map_some]
  cases shape with
  | fields f =>
    have hkeys : ∀ keys, wf.keys (s.heap.get n).type = some keys →
        f.index f.binding = some keys.2 := by
      intro keys hkeys
      rw [Wellformed.keys, hshape, Option.bind_some] at hkeys
      exact Shape.keys_fields hkeys
    have htasks : ∀ u ∈ Generator.fieldTasks f depth n f.fields,
        u.target = n ∧ u.Fits wf s.heap := by
      intro u hu
      obtain ⟨field, hfield, hu⟩ := List.mem_flatMap.1 hu
      rcases List.mem_cons.1 hu with rfl | hu
      · exact ⟨rfl, _, _, hplain, List.mem_map_of_mem (List.mem_map_of_mem hfield)⟩
      · split at hu
        · next hbinding =>
          rw [List.mem_singleton.1 hu]
          exact ⟨rfl, f, hshape, field, hfield, hbinding⟩
        · cases hu
    have hready : Task.Ready wf s.heap (fun _ => 0) (Generator.fieldTasks f depth n f.fields) :=
      Task.ready_fields depth hkeys (List.nil_append _).symm (Nat.zero_le _)
    refine h.replace rfl (fun u hu => ?_) (fun u hu => ?_) (hready.append ⟨trivial, trivial⟩)
    · rcases List.mem_append.1 hu with hu | hu
      · rw [(htasks u hu).1]
        exact hn
      · rw [List.mem_singleton.1 hu]
        exact hn
    · rcases List.mem_append.1 hu with hu | hu
      · exact (htasks u hu).2
      · rw [List.mem_singleton.1 hu]
        trivial
  | sequence q =>
    have hoffers : ∃ type shape, wf.plain.find type = some shape ∧ q.choice ∈ shape.choices :=
      ⟨_, _, hplain, List.mem_singleton_self _⟩
    have htasks : ∀ u ∈ g.shapeTasks depth n (.sequence q),
        u.target = n ∧ u.Fits wf s.heap ∧ ∀ m, u ≠ .bind m := by
      intro u hu
      rcases List.mem_append.1 hu with hu | hu
      · rw [List.eq_of_mem_replicate hu]
        exact ⟨rfl, hoffers, nofun⟩
      · split at hu
        · cases hu
        · rw [List.mem_singleton.1 hu]
          exact ⟨rfl, hoffers, nofun⟩
    refine h.replace rfl (fun u hu => ?_) (fun u hu => ?_)
      ((Task.ready_of_none fun u hu => (htasks u hu).2.2).append ⟨trivial, trivial⟩)
    · rcases List.mem_append.1 hu with hu | hu
      · rw [(htasks u hu).1]
        exact hn
      · rw [List.mem_singleton.1 hu]
        exact hn
    · rcases List.mem_append.1 hu with hu | hu
      · exact (htasks u hu).2.1
      · rw [List.mem_singleton.1 hu]
        trivial

end Generating

/-- A step keeps what holds of a generation. -/
theorem Generating.next (h : wf.Generating k.tasks k.scopes)
    (hnext : wf.Next g gloc draws k k') : wf.Generating k'.tasks k'.scopes := by
  obtain ⟨t, rest, ts, s', i', htasks, hperform, rfl⟩ := next_cases hnext
  rw [htasks] at h
  cases t with
  | node depth n =>
    rw [perform] at hperform
    split at hperform
    · cases hperform
      exact h.done rfl
    · next shape hshape =>
      cases hperform
      exact h.node hshape
  | choice c depth n =>
    obtain ⟨r, hr, hr'⟩ := map_eq_ok.1 hperform
    obtain ⟨type, j, location, -, -, rfl⟩ := Generator.genChoice_ok.1 hr
    cases hr'
    exact h.choice type location
  | bind n =>
    rw [perform] at hperform
    split at hperform
    · cases hperform
    · next hb =>
      cases hperform
      exact (h.bind hb).1
  | more c depth n left =>
    have hn : n < k.scopes.heap.nodes.length := (List.forall_mem_cons.1 h.targets).1
    have hoffers := (List.forall_mem_cons.1 h.fits).1
    cases left with
    | zero =>
      cases hperform
      exact h.done rfl
    | succ left =>
      rw [perform] at hperform
      split at hperform
      · cases hperform
        refine h.replace rfl ?_ ?_ ⟨trivial, trivial, trivial⟩
        · exact List.forall_mem_cons.2 ⟨hn, List.forall_mem_singleton.2 hn⟩
        · exact List.forall_mem_cons.2 ⟨hoffers, List.forall_mem_singleton.2 hoffers⟩
      · cases hperform
        exact h.done rfl
  | children depth n =>
    cases hperform
    refine h.replace rfl (fun u hu => ?_) (fun u hu => ?_) (Task.ready_of_none fun u hu => ?_)
    all_goals obtain ⟨c, hc, rfl⟩ := List.mem_map.1 hu
    · exact h.rooted.linked.lt hc
    · trivial
    · intro n hbind
      cases hbind

/-- A generation asks for the location of a new child, and a result decides about it. -/
inductive Asks (wf : Wellformed) (g : Generator) (gloc : Generator.FreshLocations)
    (draws : Draws) : Scopes → Node → Node → UInt32 → Prop
  | choice (hk : wf.Reached g gloc draws ⟨.choice c depth parent :: rest, s, i⟩)
    (hc : g.choose c.types depth (s.heap.get parent).type draws i = .ok (type, j)) :
    Asks wf g gloc draws (s.added parent type) parent s.heap.nodes.length (draws j)

/-- The configurations of a generation keep a tree whose definitions have their keys. -/
theorem Reached.generating (h : wf.Reached g gloc draws k) : wf.Generating k.tasks k.scopes := by
  induction h with
  | refl => exact .start wf
  | tail _ hn ih => exact ih.next hn

end Wellformed

end Trieste.Bindings
