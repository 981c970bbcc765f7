import Trieste.Bindings.Returns

namespace Trieste.Bindings
set_option autoImplicit true
open Library Relation Wf

/-- The trees are the same but for their locations. -/
structure SameShape (h h' : Heap) : Prop where
  length : h'.nodes.length = h.nodes.length
  type : ∀ n, (h'.get n).type = (h.get n).type
  parent : ∀ n, (h'.get n).parent = (h.get n).parent
  children : ∀ n, (h'.get n).children = (h.get n).children

namespace SameShape
variable {h h' : Heap}

theorem refl (h : Heap) : SameShape h h := ⟨rfl, fun _ => rfl, fun _ => rfl, fun _ => rfl⟩

theorem rooted (hs : SameShape h h') (hr : Rooted h) : Rooted h' where
  linked := fun p c hc => by
    rw [hs.children] at hc
    rw [hs.parent, hr.linked p c hc]
  nodup := fun n => by
    rw [hs.children]
    exact hr.nodup n
  top := by
    rw [hs.length, hs.type]
    exact hr.top
  orphan := (hs.parent 0).trans hr.orphan
  parent := fun n hn hne => by
    rw [hs.length] at hn
    rw [hs.parent]
    exact hr.parent n hn hne

theorem scope (hs : SameShape h h') (n : Node) : Json.Store.scope h' n = Json.Store.scope h n := by
  have hfrom (fuel : Nat) (p : Option Node) :
      Json.Store.scopeFrom h' fuel p = Json.Store.scopeFrom h fuel p := by
    induction fuel generalizing p with
    | zero => rfl
    | succ fuel ih =>
      cases p with
      | none => rfl
      | some p => rw [Json.Store.scopeFrom, Json.Store.scopeFrom, hs.type, hs.parent, ih]
  rw [Json.Store.scope, Json.Store.scope, hs.length, hs.parent, hfrom]

theorem addChild (hs : SameShape h h') (hn : n < h.nodes.length) (type : Token) :
    SameShape (addChild h n type) (addChild h' n type) := by
  refine ⟨?_, fun q => ?_, fun q => ?_, fun q => ?_⟩
  · rw [length_addChild, length_addChild, hs.length]
  · rw [type_addChild, type_addChild, hs.length, hs.type]
  · rw [parent_addChild, parent_addChild, hs.length, hs.parent]
  · rw [children_addChild hn, children_addChild (hs.length ▸ hn), hs.length, hs.children,
      hs.children]

theorem chosen (h : Heap) (n : Node) (type : Token) (location : Location) :
    SameShape (Bindings.addChild h n type) (chosen h n type location) :=
  ⟨List.length_modify .., fun _ => Heap.proj_modify (π := NodeDef.type) _ _ _ _ fun _ => rfl,
    fun _ => Heap.proj_modify (π := NodeDef.parent) _ _ _ _ fun _ => rfl,
    fun _ => Heap.proj_modify (π := NodeDef.children) _ _ _ _ fun _ => rfl⟩

theorem symm (hs : SameShape h h') : SameShape h' h :=
  ⟨hs.length.symm, fun n => (hs.type n).symm, fun n => (hs.parent n).symm,
    fun n => (hs.children n).symm⟩

theorem trans (h₁ : SameShape h h') (h₂ : SameShape h' h'') : SameShape h h'' :=
  ⟨h₂.length.trans h₁.length, fun n => (h₂.type n).trans (h₁.type n),
    fun n => (h₂.parent n).trans (h₁.parent n), fun n => (h₂.children n).trans (h₁.children n)⟩

end SameShape

def Scopes.bindings (s : Scopes) : List (Node × Node) := s.symbols.map fun b => (b.scope, b.node)

/-- The scopes are the same but for the names, and each node has its own location. -/
structure Renamed (s s' : Scopes) : Prop where
  shape : SameShape s.heap s'.heap
  bindings : s'.bindings = s.bindings
  placed : ∀ n < s.heap.nodes.length, n ≠ 0 → (s'.heap.get n).location = place n

namespace Renamed
variable {s s' : Scopes} {wf : Wellformed} {g : Generator}

theorem added (h : Renamed s s') (hn : n < s.heap.nodes.length) (type : Token) :
    SameShape (s.added n type).heap (s'.added n type).heap := h.shape.addChild hn type

theorem choice (h : Renamed s s') (hn : n < s.heap.nodes.length) (type : Token)
    (location : Location) :
    Renamed { s with heap := chosen s.heap n type location }
      { s' with heap := chosen s'.heap n type (place s'.heap.nodes.length) } := by
  have hshape := (SameShape.chosen s.heap n type location).symm.trans
    ((h.added hn type |>.trans (.chosen s'.heap n type (place s'.heap.nodes.length))))
  refine ⟨hshape, h.bindings, fun q hq hne => ?_⟩
  rw [length_chosen] at hq
  dsimp only
  rw [location_chosen, h.shape.length]
  split
  · next heq => rw [heq]
  · next hlt => exact h.placed q (Nat.lt_of_le_of_ne (Nat.le_of_lt_succ hq) hlt) hne

theorem bind (h : Renamed s s') (hb : s.bind n name = some (t, ok)) (name' : Location) :
    ∃ t' ok', s'.bind n name' = some (t', ok') ∧ Renamed t t' := by
  obtain ⟨st, hst, hs⟩ := Option.map_eq_some_iff.1 hb
  obtain ⟨rfl, -⟩ := Prod.mk.inj hs
  have hst' : s'.scope n = some st := (h.shape.scope n).trans hst
  rw [Scopes.bind, hst']
  refine ⟨_, _, rfl, h.shape, ?_, h.placed⟩
  have hbindings := h.bindings
  rw [Scopes.bindings, Scopes.bindings] at hbindings ⊢
  rw [List.map_append, List.map_append, hbindings]
  rfl

theorem location_inj (h : Renamed s s') (n : Node) (type : Token)
    (hp : p < s'.heap.nodes.length + 1) (hp' : p ≠ 0) (hq : q < s'.heap.nodes.length + 1)
    (hq' : q ≠ 0) (heq : ((s'.added n type).heap.get p).location =
      ((s'.added n type).heap.get q).location) : p = q := by
  have hlocation {x : Node} (hx : x < s'.heap.nodes.length + 1) (hx' : x ≠ 0) :
      ((s'.added n type).heap.get x).location.len =
        if x = s'.heap.nodes.length then 0 else x + 1 := by
    rw [Scopes.added, location_addChild]
    split
    · next hnew => rw [hnew, Heap.get_of_le _ (Nat.le_refl _)]
    · next hold =>
      have hlt : x < s.heap.nodes.length :=
        h.shape.length ▸ Nat.lt_of_le_of_ne (Nat.le_of_lt_succ hx) hold
      rw [h.placed x hlt hx', place_len]
  have hlen := congrArg Location.len heq
  rw [hlocation hp hp', hlocation hq hq'] at hlen
  by_cases hpn : p = s'.heap.nodes.length
  · by_cases hqn : q = s'.heap.nodes.length
    · exact hpn.trans hqn.symm
    · rw [if_pos hpn, if_neg hqn] at hlen
      cases hlen
  · rw [if_neg hpn] at hlen
    by_cases hqn : q = s'.heap.nodes.length
    · rw [if_pos hqn] at hlen
      cases hlen
    · rw [if_neg hqn] at hlen
      exact Nat.succ.inj hlen

theorem length_symbols (h : Renamed s s') : s'.symbols.length = s.symbols.length := by
  have hlen := congrArg List.length h.bindings
  rwa [Scopes.bindings, Scopes.bindings, List.length_map, List.length_map] at hlen

end Renamed

namespace Generator
variable {wf : Wellformed} {g : Generator} {s s' : Scopes}

theorem getSymbols_congr (hkeys : ∀ type, g.bindingKeys.lookup type = wf.keys type)
    (hshape : SameShape s.heap s'.heap) (hbindings : s'.bindings = s.bindings)
    (h : symbol ∈ g.getSymbols s childType scope) : symbol ∈ g.getSymbols s' childType scope := by
  obtain ⟨b, hb, hscope, hnode, hlookup, hkey⟩ := (mem_getSymbols hkeys _ _).1 h
  have hmem : (b.scope, b.node) ∈ s'.bindings := hbindings ▸ List.mem_map_of_mem hb
  obtain ⟨b', hb', heq⟩ := List.mem_map.1 hmem
  obtain ⟨hscope', hnode'⟩ := Prod.mk.inj heq
  refine (mem_getSymbols hkeys _ _).2 ⟨b', hb', ?_, hnode'.trans hnode, ?_⟩
  · rw [hscope, hscope']
  · rw [hshape.type]
    exact ⟨hlookup, hkey⟩

theorem length_getSymbols (g : Generator) (s : Scopes) (childType : Token) (scope : Option Node) :
    (g.getSymbols s childType scope).length ≤ s.symbols.length := by
  cases scope with
  | none => exact Nat.zero_le _
  | some st =>
    rw [getSymbols, List.length_map, List.length_mergeSort]
    exact List.length_filter_le _ _

theorem exists_fresh (g : Generator) (hlen : s.symbols.length < 2 ^ 32) (parent child : Node) :
    ∃ result, g.selected s parent child result = none := by
  let symbols := g.getSymbols s (s.heap.get child).type (s.scope parent)
  have hlt : symbols.length < 2 ^ 32 := Nat.lt_of_le_of_lt (g.length_getSymbols s _ _) hlen
  refine ⟨UInt32.ofNat symbols.length, ?_⟩
  rw [selected, UInt32.toNat_ofNat_of_lt' hlt, Nat.mod_eq_of_lt (Nat.lt_succ_self _)]
  split
  · exact List.getElem?_eq_none (Nat.le_refl _)
  · rfl

theorem exists_selects (hlen : s.symbols.length < 2 ^ 32)
    (hgen : g.shouldGenBound s.heap parent (s.heap.get child).type = true)
    (h : symbol ∈ g.getSymbols s (s.heap.get child).type (s.scope parent)) :
    ∃ result, g.selected s parent child result = some symbol := by
  obtain ⟨i, hi, hsymbol⟩ := List.getElem_of_mem h
  have hlt : i < 2 ^ 32 :=
    Nat.lt_of_lt_of_le hi (Nat.le_trans (g.length_getSymbols s _ _) (Nat.le_of_lt hlen))
  refine ⟨UInt32.ofNat i, ?_⟩
  rw [selected, UInt32.toNat_ofNat_of_lt' hlt, Nat.mod_eq_of_lt (Nat.lt_succ_of_lt hi), hgen,
    if_pos rfl, List.getElem?_eq_getElem hi, hsymbol]

theorem shouldGenBound_congr (hshape : SameShape h h') (parent : Node) (childType : Token) :
    g.shouldGenBound h' parent childType = g.shouldGenBound h parent childType := by
  rw [shouldGenBound, shouldGenBound, hshape.type, hshape.children]

theorem choose_before {parent : Token}
    (h : g.choose tokens depth parent draws i = .ok (t, j)) (i' : Nat) (result : UInt32) :
    ∃ draws' j', g.choose tokens depth parent draws' i' = .ok (t, j') ∧ draws' j' = result := by
  rcases Gen.choose_reads h with ⟨-, hsame⟩ | ⟨-, hsame⟩
  · exact ⟨fun _ => result, i', hsame _ _ _, rfl⟩
  · refine ⟨fun x => if x = i' then draws i else result, i' + 1, hsame _ _ _ (if_pos rfl), ?_⟩
    exact if_neg (Nat.succ_ne_self i')

end Generator

namespace Wellformed
variable {wf : Wellformed} {g : Generator}

/-- The second configuration is the first one with other names and locations. -/
structure Simulates (k m : Config) : Prop where
  tasks : m.tasks = k.tasks
  scopes : Renamed k.scopes m.scopes

theorem simulates_start : Simulates ⟨[.node 0 0], topOnly, 0⟩ ⟨[.node 0 0], topOnly, 0⟩ :=
  ⟨rfl, .refl _, rfl, fun _ hn hne => absurd (Nat.lt_one_iff.1 hn) hne⟩

/-- Each step can be taken with fresh locations. -/
theorem Simulates.next (hs : Simulates k m) (hgen : wf.Generating k.tasks k.scopes)
    (hlen : k.scopes.symbols.length < 2 ^ 32) (h : wf.Next g gloc draws k k') :
    ∃ m', Leads (wf.Next g numbered) m m' ∧ Simulates k' m' := by
  obtain ⟨t, rest, ts, s', i', htasks, hperform, rfl⟩ := next_cases h
  obtain ⟨tasks, s, i⟩ := k
  obtain ⟨mtasks, ms, mi⟩ := m
  obtain ⟨rfl, hr⟩ := hs
  dsimp only at *
  subst htasks
  cases t with
  | node depth n =>
    rw [perform] at hperform
    have hnext : ∃ r, wf.perform g numbered (fun _ => 0) (.node depth n) ms mi = .ok r ∧
        r.1 = ts ∧ r.2.1 = ms ∧ s' = s := by
      rw [perform, hr.shape.type]
      split at hperform <;> cases hperform <;> exact ⟨_, rfl, rfl, rfl, rfl⟩
    obtain ⟨⟨_, _, mi'⟩, hr', rfl, rfl, rfl⟩ := hnext
    exact ⟨_, ⟨_, next_perform hr' rest⟩, rfl, hr⟩
  | choice c depth n =>
    have hn : n < s.heap.nodes.length := (List.forall_mem_cons.1 hgen.targets).1
    obtain ⟨r, hr', hresult⟩ := map_eq_ok.1 hperform
    obtain ⟨type, j, location, hchoose, -, rfl⟩ := Generator.genChoice_ok.1 hr'
    cases hresult
    have hlen' : (ms.added n type).symbols.length < 2 ^ 32 := by
      rw [Scopes.added, hr.length_symbols]
      exact hlen
    obtain ⟨result, hresult⟩ := g.exists_fresh hlen' n ms.heap.nodes.length
    obtain ⟨draws', j', hchoose', hdraw⟩ := Generator.choose_before hchoose mi result
    rw [← hr.shape.type] at hchoose'
    have hlocation : g.childLocation numbered draws' n ms type j' =
        .ok (place ms.heap.nodes.length) := by
      rw [Generator.childLocation, Generator.location, hdraw, hresult]
      rfl
    have hperform' : wf.perform g numbered draws' (.choice c depth n) ms mi = .ok _ :=
      map_eq_ok.2 ⟨_, Generator.genChoice_ok.2 ⟨type, j', _, hchoose', hlocation, rfl⟩, rfl⟩
    exact ⟨_, ⟨draws', next_perform hperform' rest⟩, rfl, hr.choice hn type location⟩
  | bind n =>
    rw [perform] at hperform
    split at hperform
    · cases hperform
    · next hb =>
      cases hperform
      obtain ⟨t', ok', hb', hr'⟩ :=
        hr.bind hb (ms.heap.get ((ms.heap.get n).children.getLastD 0)).location
      have hperform' : wf.perform g numbered (fun _ => 0) (.bind n) ms mi = .ok ([], t', mi) := by
        rw [perform, hb']
      exact ⟨_, ⟨_, next_perform hperform' rest⟩, rfl, hr'⟩
  | more c depth n left =>
    cases left with
    | zero =>
      cases hperform
      have hperform' : wf.perform g numbered (fun _ => 0) (.more c depth n 0) ms mi =
          .ok ([], ms, mi) := by rw [perform]
      exact ⟨_, ⟨_, next_perform hperform' rest⟩, rfl, hr⟩
    | succ left =>
      rw [perform] at hperform
      by_cases hodd : (draws i).toNat % 2 = 1
      · rw [if_pos hodd] at hperform
        cases hperform
        have hperform' : wf.perform g numbered (fun _ => draws i) (.more c depth n (left + 1)) ms
            mi = .ok ([.choice c depth n, .more c depth n left], ms, mi + 1) := by
          rw [perform, if_pos hodd]
        exact ⟨_, ⟨_, next_perform hperform' rest⟩, rfl, hr⟩
      · rw [if_neg hodd] at hperform
        cases hperform
        have hperform' : wf.perform g numbered (fun _ => draws i) (.more c depth n (left + 1)) ms
            mi = .ok ([], ms, mi + 1) := by rw [perform, if_neg hodd]
        exact ⟨_, ⟨_, next_perform hperform' rest⟩, rfl, hr⟩
  | children depth n =>
    cases hperform
    refine ⟨_, ⟨fun _ => 0, next_perform rfl rest⟩, ?_, hr⟩
    dsimp only
    rw [hr.shape.children]

theorem symbols_mono (h : wf.Next g gloc draws k k') :
    k.scopes.symbols.length ≤ k'.scopes.symbols.length := by
  obtain ⟨t, rest, ts, s', i', -, hperform, rfl⟩ := next_cases h
  cases t with
  | node depth n =>
    rw [perform] at hperform
    split at hperform <;> cases hperform <;> exact Nat.le_refl _
  | choice c depth n =>
    obtain ⟨r, hr, hr'⟩ := map_eq_ok.1 hperform
    obtain ⟨type, j, location, -, -, rfl⟩ := Generator.genChoice_ok.1 hr
    cases hr'
    exact Nat.le_refl _
  | bind n =>
    rw [perform] at hperform
    split at hperform
    · cases hperform
    · next hb =>
      cases hperform
      obtain ⟨st, -, hs⟩ := Option.map_eq_some_iff.1 hb
      obtain ⟨rfl, -⟩ := Prod.mk.inj hs
      dsimp only
      rw [List.length_append]
      exact Nat.le_add_right _ _
  | more c depth n left =>
    cases left with
    | zero =>
      cases hperform
      exact Nat.le_refl _
    | succ left =>
      rw [perform] at hperform
      split at hperform <;> cases hperform <;> exact Nat.le_refl _
  | children depth n =>
    cases hperform
    exact Nat.le_refl _

theorem Reached.simulates (h : wf.Reached g gloc draws k)
    (hlen : k.scopes.symbols.length < 2 ^ 32) :
    ∃ m, ReflTransGen (Leads (wf.Next g numbered)) ⟨[.node 0 0], topOnly, 0⟩ m ∧
      Simulates k m := by
  induction h with
  | refl => exact ⟨_, .refl, simulates_start⟩
  | tail hk hnext ih =>
    have hlen' := Nat.lt_of_le_of_lt (symbols_mono hnext) hlen
    obtain ⟨m, hm, hs⟩ := ih hlen'
    obtain ⟨m', hlead, hs'⟩ := hs.next (Reached.generating hk) hlen' hnext
    exact ⟨m', hm.tail hlead, hs'⟩

/-- The selected definition has the index of the type of the child, in every tree with fewer
definitions than the bound. -/
def AgreesBelow (wf : Wellformed) (g : Generator) (bound : Nat) : Prop :=
  ∀ gloc draws s parent child result symbol, wf.Asks g gloc draws s parent child result →
    s.symbols.length < bound → g.selected s parent child result = some symbol →
    g.keyIndex (s.heap.get symbol).type = g.keyIndex (s.heap.get child).type

/-- The locations that are taken from symbol tables are those of keys, in every tree with fewer
definitions than the bound. -/
def LocatedBelow (wf : Wellformed) (g : Generator) (bound : Nat) : Prop :=
  ∀ gloc draws s parent child result fresh, wf.Asks g gloc draws s parent child result →
    s.symbols.length < bound → (g.selected s parent child result).isSome →
    ∃ symbol key, wf.Defines s parent child symbol key ∧
      g.location s fresh parent child result = .ok (s.heap.get key).location

theorem Asks.grown (h : wf.Asks g gloc draws s parent child result) :
    wf.Grown s ∧ Rooted s.heap := by
  cases h with
  | @choice c depth _ rest s i type j hk hc =>
    have hgen : wf.Generating rest { s with heap := chosen s.heap parent type {} } :=
      (Reached.generating hk).choice type {}
    have hshape : SameShape (chosen s.heap parent type {}) (s.added parent type).heap :=
      (SameShape.chosen s.heap parent type {}).symm
    refine ⟨fun b hb keys hkeys => ?_, hshape.rooted hgen.rooted⟩
    have hgrown := hgen.grown b hb keys
    rw [hshape.type] at hkeys
    rw [hshape.children]
    exact hgrown hkeys

theorem agrees_located (h : wf.generator base = .ok g)
    (hask : wf.Asks g gloc draws s parent child result)
    (hsymbol : g.selected s parent child result = some symbol)
    (hindex : g.keyIndex (s.heap.get symbol).type = g.keyIndex (s.heap.get child).type)
    (fresh : Location) :
    ∃ key, wf.Defines s parent child symbol key ∧
      g.location s fresh parent child result = .ok (s.heap.get key).location :=
  Generator.location_agrees (wf.generator_eq h).2 (Asks.grown hask).1 hsymbol hindex fresh

theorem Asks.renamed (hkeys : ∀ type, g.bindingKeys.lookup type = wf.keys type)
    (hask : wf.Asks g gloc draws s parent child result) (hlen : s.symbols.length < 2 ^ 32)
    (hsymbol : g.selected s parent child result = some symbol) :
    ∃ s₀ ms draws' type result', Renamed s₀ ms ∧
      wf.Asks g numbered draws' (ms.added parent type) parent child result' ∧
      SameShape s.heap (ms.added parent type).heap ∧
      (ms.added parent type).symbols.length < 2 ^ 32 ∧
      g.selected (ms.added parent type) parent child result' = some symbol := by
  cases hask with
  | @choice c depth _ rest s i type j hk hc =>
    obtain ⟨⟨_, ms, mi⟩, hm, rfl, hr⟩ := Reached.simulates hk hlen
    have hn : parent < s.heap.nodes.length :=
      (List.forall_mem_cons.1 (Reached.generating hk).targets).1
    have hshape : SameShape (s.added parent type).heap (ms.added parent type).heap :=
      hr.added hn type
    have hlen' : (ms.added parent type).symbols.length < 2 ^ 32 := by
      rw [Scopes.added, hr.length_symbols]
      exact hlen
    have hmem := Generator.getSymbols_congr hkeys hshape hr.bindings (Generator.selected_eq hsymbol)
    have hscope : (ms.added parent type).scope parent = (s.added parent type).scope parent :=
      hshape.scope parent
    have hgen : g.shouldGenBound (s.added parent type).heap parent
        ((s.added parent type).heap.get s.heap.nodes.length).type = true := by
      rw [Generator.selected] at hsymbol
      split at hsymbol
      · next hgen => exact hgen
      · cases hsymbol
    rw [← Generator.shouldGenBound_congr hshape, ← hshape.type] at hgen
    rw [← hscope, ← hshape.type] at hmem
    obtain ⟨result', hresult'⟩ := Generator.exists_selects hlen' hgen hmem
    obtain ⟨draws₁, j', hchoose, hdraw⟩ := Generator.choose_before hc mi result'
    obtain ⟨draws', hreach, hrest⟩ := (next_supplied wf g).reaches hm draws₁
    have hle : mi ≤ j' := by
      rcases Gen.choose_reads hchoose with ⟨hj, -⟩ | ⟨hj, -⟩ <;> rw [hj]
      exact Nat.le_succ mi
    have hchoose' : g.choose c.types depth (ms.heap.get parent).type draws' mi =
        .ok (type, j') := by
      rw [hr.shape.type, Gen.choose_congr _ _ _ _ (hrest mi (Nat.le_refl mi))]
      exact hchoose
    have hask' := Asks.choice hreach hchoose'
    rw [hrest j' hle, hdraw, hr.shape.length] at hask'
    exact ⟨s, ms, draws', type, result', hr, hask', hshape, hlen', hresult'⟩

theorem located_agrees (h : wf.generator base = .ok g) (hlocated : wf.LocatedBelow g (2 ^ 32)) :
    wf.AgreesBelow g (2 ^ 32) := by
  intro gloc draws s parent child result symbol hask hlen hsymbol
  obtain ⟨-, hkeys⟩ := wf.generator_eq h
  obtain ⟨s₀, ms, draws', type, result', hr, hask', hshape, hlen', hsymbol'⟩ :=
    hask.renamed hkeys hlen hsymbol
  obtain ⟨symbol', key, hdefines, hlocation⟩ := hlocated numbered draws' _ parent child result' {}
    hask' hlen' (Option.isSome_iff_exists.2 ⟨symbol, hsymbol'⟩)
  obtain ⟨types, index, hkey, -, hchild⟩ := hdefines.key
  have hrooted := hask'.grown.2
  have hlength : (ms.added parent type).heap.nodes.length = ms.heap.nodes.length + 1 :=
    length_addChild ms.heap parent type
  have hmem {p q : Node} (hq : q ∈ ((ms.added parent type).heap.get p).children) :
      q < ms.heap.nodes.length + 1 ∧ q ≠ 0 := by
    refine ⟨hlength ▸ hrooted.linked.lt hq, ?_⟩
    rintro rfl
    cases hrooted.orphan.symm.trans (hrooted.linked p 0 hq)
  rw [Generator.location, hsymbol'] at hlocation
  dsimp only at hlocation
  split at hlocation
  · cases hlocation
  · next q hq =>
    have hq' := hmem (List.mem_of_getElem? hq)
    have hkey' := hmem (List.mem_of_getElem? hchild)
    have hsame := hr.location_inj parent type hq'.1 hq'.2 hkey'.1 hkey'.2
      (Except.ok.inj hlocation)
    have hparent := hrooted.linked _ _ (List.mem_of_getElem? hq)
    rw [hsame, hrooted.linked _ _ (List.mem_of_getElem? hchild)] at hparent
    cases hparent
    obtain ⟨hlt, -⟩ := List.getElem?_eq_some_iff.1 hq
    have hindex := (List.getElem?_inj hlt (hrooted.nodup symbol)).1
      (hq.trans ((congrArg some hsame).trans hchild.symm))
    rw [← hshape.type, ← hshape.type, hindex, Generator.keyIndex, hkeys, hkey]
    rfl

/-- Where the index that is taken is that of the definition, the location is that of its key. Below
2^32 definitions the converse holds of all generations together. -/
theorem location_bound_iff (h : wf.generator base = .ok g) :
    (∀ gloc draws s parent child result symbol fresh,
      wf.Asks g gloc draws s parent child result →
      g.selected s parent child result = some symbol →
      g.keyIndex (s.heap.get symbol).type = g.keyIndex (s.heap.get child).type →
      ∃ key, wf.Defines s parent child symbol key ∧
        g.location s fresh parent child result = .ok (s.heap.get key).location) ∧
    (wf.LocatedBelow g (2 ^ 32) ↔ wf.AgreesBelow g (2 ^ 32)) := by
  refine ⟨fun gloc draws s parent child result symbol fresh hask hsymbol hindex =>
    agrees_located h hask hsymbol hindex fresh, located_agrees h, ?_⟩
  intro hagrees gloc draws s parent child result fresh hask hlen hsome
  obtain ⟨symbol, hsymbol⟩ := Option.isSome_iff_exists.1 hsome
  have hindex := hagrees gloc draws s parent child result symbol hask hlen hsymbol
  obtain ⟨key, hkey⟩ := agrees_located h hask hsymbol hindex fresh
  exact ⟨symbol, key, hkey⟩

/-- `Def <<= (first * second)[Ident]` and `Group <<= Ident` under `Top`. -/
def defining (first second : Token) (h : first ≠ second) : Wellformed where
  shapes := [
    (.top, .fields {
      fields := [⟨⟨⟨"def", Flag.lookup⟩, ⟨[⟨"def", Flag.lookup⟩]⟩⟩, false⟩,
        ⟨⟨.group, ⟨[.group]⟩⟩, false⟩]
      apart := by decide }),
    (⟨"def", Flag.lookup⟩, .fields {
      fields := [⟨⟨first, ⟨[first]⟩⟩, false⟩, ⟨⟨second, ⟨[second]⟩⟩, false⟩]
      binding := ⟨"ident", Flag.print⟩
      apart := by simp [Collide, h] }),
    (.group, .fields {
      fields := [⟨⟨⟨"ident", Flag.print⟩, ⟨[⟨"ident", Flag.print⟩]⟩⟩, false⟩]
      apart := by decide })]
  distinct := (by decide : [Token.top, ⟨"def", Flag.lookup⟩, .group].Nodup)

def definingGen (index : Nat) : Generator where
  tokenTerminalDistance := []
  targetDepth := 5
  bindingKeys := [(⟨"def", Flag.lookup⟩, ([⟨"ident", Flag.print⟩], index))]
  genBoundVars := true

/-- The definitions with the identifier before the type, and after it. -/
def keyFirst : Wellformed := defining ⟨"ident", Flag.print⟩ ⟨"type", Flag.print⟩ (by decide)

def keySecond : Wellformed := defining ⟨"type", Flag.print⟩ ⟨"ident", Flag.print⟩ (by decide)

theorem location_bound_first : keyFirst.LocatedBelow (definingGen 0) (2 ^ 32) := by
  have hgen : keyFirst.generator { tokenTerminalDistance := [], targetDepth := 5 } =
    .ok (definingGen 0) := rfl
  have hindex (type : Token) : (definingGen 0).keyIndex type = 0 := by
    rw [Generator.keyIndex, definingGen, List.lookup_cons, List.lookup_nil]
    split <;> rfl
  exact (location_bound_iff hgen).2.2 fun _ _ _ _ _ _ _ _ _ _ => (hindex _).trans (hindex _).symm

/-- `Top(Def(Type, Ident), Group)` with the definition bound. -/
def bound : Scopes where
  heap := ⟨[
    { type := .top, children := [1, 2] },
    { type := ⟨"def", Flag.lookup⟩, location := place 1, parent := some 0, children := [3, 4] },
    { type := .group, location := place 2, parent := some 0 },
    { type := ⟨"type", Flag.print⟩, location := place 3, parent := some 1 },
    { type := ⟨"ident", Flag.print⟩, location := place 4, parent := some 1 }]⟩
  symbols := [⟨0, (place 4).view, 1⟩]

/-- An identifier in the group gets the location of the type of the definition. -/
theorem location_bound_second :
    keySecond.generator { tokenTerminalDistance := [], targetDepth := 5 } = .ok (definingGen 1) ∧
    keySecond.Asks (definingGen 1) numbered (fun _ => 0) (bound.added 2 ⟨"ident", Flag.print⟩)
      2 5 0 ∧
    (definingGen 1).selected (bound.added 2 ⟨"ident", Flag.print⟩) 2 5 0 = some 1 ∧
    ¬ ∃ symbol key,
      keySecond.Defines (bound.added 2 ⟨"ident", Flag.print⟩) 2 5 symbol key ∧
      (definingGen 1).location (bound.added 2 ⟨"ident", Flag.print⟩) {} 2 5 0 =
        .ok ((bound.added 2 ⟨"ident", Flag.print⟩).heap.get key).location := by
  have hrun : keySecond.run (definingGen 1) numbered (fun _ => 0) 12
      ⟨[.node 0 0], topOnly, 0⟩ =
        some ⟨[.choice ⟨[⟨"ident", Flag.print⟩]⟩ 1 2, .children 1 2], bound, 4⟩ := by
    decide +kernel
  have hselected : (definingGen 1).selected (bound.added 2 ⟨"ident", Flag.print⟩) 2 5 0 =
      some 1 := by decide +kernel
  have hchild : ((bound.added 2 ⟨"ident", Flag.print⟩).heap.get 1).children[0]? = some 3 := by
    decide +kernel
  refine ⟨rfl, .choice (run_reaches hrun) rfl, hselected, fun h => ?_⟩
  obtain ⟨symbol, key, hdefines, hlocation⟩ := h
  obtain ⟨b, hb, -, rfl⟩ := hdefines.bound
  obtain ⟨types, index, hkeys, -, hkey⟩ := hdefines.key
  cases List.mem_singleton.1 hb
  have hkeys' : keySecond.keys ((bound.added 2 ⟨"ident", Flag.print⟩).heap.get 1).type =
      some ([⟨"ident", Flag.print⟩], 1) := by decide +kernel
  cases hkeys'.symm.trans hkeys
  have hlast : ((bound.added 2 ⟨"ident", Flag.print⟩).heap.get 1).children[1]? = some 4 := by
    decide +kernel
  cases hlast.symm.trans hkey
  have hindex : (definingGen 1).keyIndex ((bound.added 2 ⟨"ident", Flag.print⟩).heap.get 5).type =
      0 := by decide +kernel
  rw [Generator.location, hselected] at hlocation
  simp only [hindex, hchild] at hlocation
  have hlen := congrArg Location.len (Except.ok.inj hlocation)
  rw [Scopes.added, location_addChild, location_addChild] at hlen
  exact absurd hlen (by decide)

end Wellformed

end Trieste.Bindings
