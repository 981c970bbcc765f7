import Trieste.Bindings.BuildSt
import Trieste.Bindings.Generator

namespace Trieste.Bindings
set_option autoImplicit true

/-- The types and the index of the key of a shape. -/
def Shape.keys : Shape → Option SymtabKeys
  | .sequence _ => none
  | .fields f =>
    if f.binding = .invalid then none
    else (f.index f.binding).bind fun index =>
      f.fields[index]?.map fun field => (field.choice.types, index)

namespace Wellformed
variable {wf : Wellformed}

def keys (wf : Wellformed) (type : Token) : Option SymtabKeys := (wf.find type).bind Shape.keys

theorem keysOf_lookup {shapes : List (Token × Shape)} (hnodup : (shapes.map Prod.fst).Nodup)
    (h : keysOf shapes = .ok bindingKeys) (type : Token) :
    bindingKeys.lookup type = (shapes.lookup type).bind Shape.keys := by
  induction shapes generalizing bindingKeys with
  | nil =>
    cases h
    rfl
  | cons entry shapes ih =>
    obtain ⟨t, shape⟩ := entry
    rw [List.map_cons, List.nodup_cons] at hnodup
    have hnone (h : keysOf shapes = .ok bindingKeys) (hkeys : shape.keys = none) :
        bindingKeys.lookup type = (((t, shape) :: shapes).lookup type).bind Shape.keys := by
      have hrest := ih hnodup.2 h
      rw [List.lookup_cons]
      by_cases ht : type = t
      · have hlookup : shapes.lookup type = none := by
          rw [List.lookup_eq_none_iff]
          intro p hp
          apply bne_iff_ne.2
          intro heq
          exact hnodup.1 (List.mem_map.2 ⟨p, hp, heq.symm.trans ht⟩)
        rw [hrest, hlookup, beq_iff_eq.2 ht]
        exact hkeys.symm
      · rw [beq_eq_false_iff_ne.2 ht]
        exact hrest
    cases shape with
    | sequence q => exact hnone h rfl
    | fields f =>
      rw [keysOf] at h
      split at h
      · next hinvalid => exact hnone h (if_pos hinvalid)
      · next hinvalid =>
        split at h
        · cases h
        · next index hindex =>
          split at h
          · cases h
          · next field hfield =>
            cases hrest : keysOf shapes with
            | error e =>
              rw [hrest] at h
              cases h
            | ok keys =>
              rw [hrest] at h
              cases h
              have hkeys : (Shape.fields f).keys = some (field.choice.types, index) := by
                rw [Shape.keys, if_neg hinvalid, hindex, Option.bind_some, hfield, Option.map_some]
              rw [List.lookup_cons, List.lookup_cons]
              by_cases ht : type = t
              · rw [beq_iff_eq.2 ht]
                exact hkeys.symm
              · rw [beq_eq_false_iff_ne.2 ht]
                exact ih hnodup.2 hrest

theorem generator_eq {base : Wf.Gen} (h : wf.generator base = .ok g) :
    g.genBoundVars = true ∧ ∀ type, g.bindingKeys.lookup type = wf.keys type := by
  rw [generator] at h
  cases hkeys : wf.populateBindingKeys with
  | error e =>
    rw [hkeys] at h
    cases h
  | ok keys =>
    rw [hkeys] at h
    cases h
    exact ⟨rfl, keysOf_lookup wf.distinct hkeys⟩

/-- The key of the definition is one of its children, and its type admits the child's type. -/
structure Defines (wf : Wellformed) (s : Scopes) (parent child symbol key : Node) : Prop where
  bound : ∃ b ∈ s.symbols, s.scope parent = some b.scope ∧ b.node = symbol
  lookup : (s.heap.get symbol).type.has Flag.lookup = true
  key : ∃ types index, wf.keys (s.heap.get symbol).type = some (types, index) ∧
    (s.heap.get child).type ∈ types ∧ (s.heap.get symbol).children[index]? = some key

/-- A definition that is in a symbol table has its key. -/
def Grown (wf : Wellformed) (s : Scopes) : Prop :=
  ∀ b ∈ s.symbols, ∀ keys, wf.keys (s.heap.get b.node).type = some keys →
    keys.2 < (s.heap.get b.node).children.length

end Wellformed

namespace Generator
variable {wf : Wellformed} {g : Generator} {s : Scopes}

theorem mem_getSymbols (hkeys : ∀ type, g.bindingKeys.lookup type = wf.keys type)
    (childType : Token) (scope : Option Node) :
    symbol ∈ g.getSymbols s childType scope ↔ ∃ b ∈ s.symbols, scope = some b.scope ∧
      b.node = symbol ∧ (s.heap.get symbol).type.has Flag.lookup = true ∧
        ∃ keys, wf.keys (s.heap.get symbol).type = some keys ∧ childType ∈ keys.1 := by
  cases scope with
  | none => simp [getSymbols]
  | some st =>
    have hadmits (type : Token) : g.admits type childType = true ↔
        ∃ keys, wf.keys type = some keys ∧ childType ∈ keys.1 := by
      rw [admits, hkeys]
      cases wf.keys type <;> simp
    rw [getSymbols, List.mem_map]
    simp only [List.mem_mergeSort, List.mem_filter, decide_eq_true_eq, hadmits]
    constructor
    · intro h
      obtain ⟨b, ⟨hb, hscope, hlookup, hkey⟩, rfl⟩ := h
      exact ⟨b, hb, congrArg some hscope.symm, rfl, hlookup, hkey⟩
    · intro h
      obtain ⟨b, hb, hscope, rfl, hlookup, hkey⟩ := h
      exact ⟨b, ⟨hb, (Option.some.inj hscope).symm, hlookup, hkey⟩, rfl⟩

theorem selected_eq (h : g.selected s parent child result = some symbol) :
    symbol ∈ g.getSymbols s (s.heap.get child).type (s.scope parent) := by
  rw [selected] at h
  split at h
  · exact List.mem_of_getElem? h
  · cases h

/-- Without bound variables or without keys no definition is selected. -/
theorem selected_none (h : g.genBoundVars = false ∨ g.bindingKeys = []) :
    g.selected s parent child result = none := by
  have hgen (type : Token) : g.shouldGenBound s.heap parent type = false := by
    rw [shouldGenBound]
    rcases h with h | h
    · rw [h, if_pos (by decide)]
    · simp only [h, List.filter_nil, List.map_nil, if_true, ite_self]
  rw [selected]
  simp only [hgen, Bool.false_eq_true, if_false]

/-- Where the index of the child's type is that of the definition, its key is taken. -/
theorem location_agrees (hkeys : ∀ type, g.bindingKeys.lookup type = wf.keys type)
    (hgrown : wf.Grown s) (h : g.selected s parent child result = some symbol)
    (hindex : g.keyIndex (s.heap.get symbol).type = g.keyIndex (s.heap.get child).type)
    (fresh : Location) :
    ∃ key, wf.Defines s parent child symbol key ∧
      g.location s fresh parent child result = .ok (s.heap.get key).location := by
  obtain ⟨b, hb, hscope, hnode, hlookup, keys, hkey, hmem⟩ :=
    (mem_getSymbols hkeys _ _).1 (selected_eq h)
  have hlt : keys.2 < (s.heap.get symbol).children.length := by
    have hchildren := hgrown b hb keys (by rwa [hnode])
    rwa [hnode] at hchildren
  have hchild := List.getElem?_eq_getElem hlt
  refine ⟨_, ⟨⟨b, hb, hscope, hnode⟩, hlookup, keys.1, keys.2, hkey, hmem, hchild⟩, ?_⟩
  rw [keyIndex, hkeys, hkey, Option.map_some, Option.getD_some] at hindex
  rw [location, h]
  simp only [← hindex, hchild]

end Generator

end Trieste.Bindings
