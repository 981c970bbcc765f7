import Mathlib.Algebra.Ring.Nat
import Trieste.Ast.Frame
import Trieste.Library.Numeral
import Trieste.Json

namespace Trieste.Json
set_option autoImplicit true
open Library

/-- `unescape_key` -/
def unescapeKey : List Char → Option (List Char)
  | [] => some []
  | c :: rest =>
    if c = '~' then
      match rest with
      | [] => none
      | i :: rest =>
        if i = '0' then (unescapeKey rest).map ('~' :: ·)
        else if i = '1' then (unescapeKey rest).map ('/' :: ·)
        else none
    else (unescapeKey rest).map (c :: ·)

/-- `next_key`, with the position behind the key. -/
def nextKey (path : Location) (pos : Nat) : Option (Location × Nat) :=
  let view := path.view.toList
  if view[pos]? = some '/' then
    let text := (view.drop (pos + 1)).takeWhile (· ≠ '/')
    let key : Location := { source := path.source, pos := path.pos + (pos + 1), len := text.length }
    if '~' ∈ text then
      (unescapeKey text).map fun unescaped =>
        (.ofString (.ofList unescaped), pos + 1 + text.length)
    else some (key, pos + 1 + text.length)
  else none

/-- The loop of the constructor of `Pointer`, each round of which moves forward. -/
def pointerKeys (path : Location) : Nat → Nat → Option (List Location)
  | 0, _ => some []
  | fuel + 1, pos =>
    if pos < path.len then
      (nextKey path pos).bind fun (key, pos) => (pointerKeys path fuel pos).map (key :: ·)
    else some []

/-- The keys of `Pointer(path)`, unless it is invalid. -/
def pointer (path : Location) : Option (List Location) := pointerKeys path path.len 0

/-- The digit loop of `array_lookup`, with `size_t` arithmetic: the index so far and whether every
character was a digit. -/
def indexLoop : List Char → Nat → Nat × Bool
  | [], index => (index, true)
  | c :: rest, index =>
    if c.isDigit then indexLoop rest ((index * 10 + (c.toNat - '0'.toNat)) % 2 ^ 64)
    else (index, false)

/-- `array_lookup`: the heap with the error or element that is returned, and the index that the
caller sees. Nothing is returned where the first character of an empty token is read. -/
def arrayLookup (h : Heap) (current : Node) (key : Location) (index : Nat) :
    Option (Heap × Node × Nat) :=
  let children := (h.get current).children
  let indexView := key.view.toList
  if indexView = ['-'] then
    (errAt h .jsonString key ("End-of-array selector `-` cannot appear inside a pointer, only " ++
      "at the end")).map fun (h, e) => (h, e, children.length)
  else
    match indexView with
    | [] => none
    | front :: _ =>
      if front = '-' then
        (errAt h .jsonString key "unable to parse array index (prepended by `-`)").map
          fun (h, e) => (h, e, index)
      else if front = '0' ∧ 1 < indexView.length then
        (errAt h .jsonString key "Leading zeros").map fun (h, e) => (h, e, index)
      else
        match indexLoop indexView 0 with
        | (index, false) =>
          (errAt h .jsonString key "unable to parse array index (not a digit)").map
            fun (h, e) => (h, e, index)
        | (index, true) =>
          match children[index]? with
          | none =>
            (errAt h .jsonNumber key "index is greater than number of items in array").map
              fun (h, e) => (h, e, index)
          | some element => some (h, element, index)

/-- What `err` makes is all new, and its root is an error. -/
theorem err_frame (h : Heap.Above bound heap) (hlen : bound ≤ heap.nodes.length)
    (he : err heap node msg = some (heap', e)) :
    Heap.Frame bound heap heap' ∧ e = heap.nodes.length ∧ (heap'.get e).type = .error := by
  simp only [err, Option.bind_eq_bind, Option.bind_eq_some_iff, Prod.exists] at he
  obtain ⟨heap₄, copy, hclone, he⟩ := he
  cases he
  have h₁ := h.create hlen .error {}
  have hlen₁ := Nat.le_trans hlen h₁.length
  have h₂ := h₁.above.create hlen₁ .errorMsg (.ofString msg)
  have h₂ := h₂.trans (h₂.above.pushBack hlen hlen₁)
  have hlen₂ := Nat.le_trans hlen₁ h₂.length
  have h₃ := h₂.trans (h₂.above.create hlen₂ .errorAst {})
  have hlen₃ := Nat.le_trans hlen₁ h₃.length
  obtain ⟨h₄, rfl⟩ := h₃.above.clone hlen₃ hclone
  have h₅ := (h₃.trans h₄).trans (h₄.above.pushBack hlen₂ hlen₃)
  have h₆ := h₅.trans (h₅.above.pushBack hlen hlen₂)
  refine ⟨h₁.trans h₆, rfl, ?_⟩
  have htype := h₆.type heap.nodes.length (by simp)
  rw [Heap.get_create, if_pos rfl] at htype
  exact htype

theorem clone_leaf (h : Heap) (n fuel : Nat) (hn : (h.get n).children = []) :
    h.clone (fuel + 1) n = some (h.create (h.get n).type (h.get n).location) := by
  simp only [Heap.clone, hn]
  rfl

theorem err_leaf (h : Heap) (node : Node) (msg : String) (hlt : node < h.nodes.length)
    (hn : (h.get node).children = []) : ∃ h' e, err h node msg = some (h', e) := by
  have habove := Heap.Above.length h
  have h₁ := habove.create (Nat.le_refl _) .error {}
  have h₂ := h₁.trans (h₁.above.create h₁.length .errorMsg (.ofString msg))
  have h₂ := h₂.trans (h₂.above.pushBack (Nat.le_refl _) h₁.length)
  have h₃ := h₂.trans (h₂.above.create h₂.length .errorAst {})
  have hchildren := congrArg NodeDef.children (h₃.kept node hlt)
  rw [hn] at hchildren
  simp only [err, Option.bind_eq_bind, Heap.create_node]
  rw [clone_leaf _ node _ hchildren]
  exact ⟨_, _, rfl⟩

def FreshError (h h' : Heap) (e : Node) : Prop :=
  h.nodes.length ≤ e ∧ (h'.get e).type = .error

theorem errAt_fresh (h : Heap) (type : Token) (location : Location) (msg : String) :
    ∃ h' e, errAt h type location msg = some (h', e) ∧ FreshError h h' e := by
  have hget := h.get_create type location h.nodes.length
  rw [if_pos rfl] at hget
  obtain ⟨h', e, he⟩ := err_leaf (h.create type location).1 h.nodes.length msg (by simp)
    (congrArg NodeDef.children hget)
  obtain ⟨-, rfl, htype⟩ := err_frame (.zero _) (Nat.zero_le _) he
  exact ⟨h', _, he, by simp, htype⟩

theorem indexLoop_digits (h : ∀ c ∈ text, c.isDigit = true) (index : Nat) :
    indexLoop text (index % 2 ^ 64) = (Nat.ofDigitChars 10 text index % 2 ^ 64, true) := by
  induction text generalizing index with
  | nil => rfl
  | cons c text ih =>
    rw [indexLoop, if_pos (h c (.head _)), Nat.ofDigitChars_cons,
      ← ih (fun d hd => h d (.tail _ hd))]
    congr 1
    rw [Nat.mul_comm 10, Nat.add_mod, Nat.mod_mul_mod, ← Nat.add_mod]

theorem indexLoop_not_digit (h : ¬ ∀ c ∈ text, c.isDigit = true) (index : Nat) :
    ∃ index', indexLoop text index = (index', false) := by
  induction text generalizing index with
  | nil => exact absurd (fun _ hc => absurd hc List.not_mem_nil) h
  | cons c text ih =>
    by_cases hc : c.isDigit = true
    · rw [indexLoop, if_pos hc]
      apply ih
      intro htext
      apply h
      intro d hd
      rcases List.mem_cons.1 hd with rfl | hd
      · exact hc
      · exact htext d hd
    · exact ⟨index, by rw [indexLoop, if_neg hc]⟩

theorem map_errAt (h : Heap) (type : Token) (location : Location) (msg : String) (index : Nat) :
    ∃ h' e index', (errAt h type location msg).map (fun (h, e) => (h, e, index)) =
      some (h', e, index') ∧ FreshError h h' e := by
  obtain ⟨h', e, he, hfresh⟩ := errAt_fresh h type location msg
  exact ⟨h', e, index, by rw [he]; rfl, hfresh⟩

theorem arrayLookup_not_numeral (hne : key.view.toList ≠ [])
    (h : ¬ IsNumeral key.view.toList) (heap : Heap) (current : Node) (index : Nat) :
    ∃ h' e index', arrayLookup heap current key index = some (h', e, index') ∧
      FreshError heap h' e := by
  rw [arrayLookup]
  split
  · exact map_errAt ..
  split
  · exact absurd ‹_› hne
  rename_i front rest htext
  split
  · exact map_errAt ..
  split
  · exact map_errAt ..
  rename_i hzero
  have hdigits : ¬ ∀ c ∈ key.view.toList, c.isDigit = true := by
    intro hdigits
    apply h
    refine ⟨hne, hdigits, fun hz => ?_⟩
    apply Nat.le_of_not_lt
    intro hlen
    rw [htext] at hz
    exact hzero ⟨Option.some.inj hz, hlen⟩
  obtain ⟨index', hloop⟩ := indexLoop_not_digit hdigits 0
  rw [hloop]
  exact map_errAt ..

/-- The code looks a numeral up by its value in 64 bits. -/
theorem arrayLookup_numeral (h : key.view.toList = Nat.toDigits 10 v) (heap : Heap)
    (current : Node) (index : Nat) :
    arrayLookup heap current key index =
      match (heap.get current).children[v % 2 ^ 64]? with
      | none => (errAt heap .jsonNumber key "index is greater than number of items in array").map
          fun (h, e) => (h, e, v % 2 ^ 64)
      | some element => some (heap, element, v % 2 ^ 64) := by
  have hnum : IsNumeral key.view.toList := h ▸ .of_toDigits v
  have hloop := indexLoop_digits hnum.digits 0
  have hvalue : Nat.ofDigitChars 10 key.view.toList 0 = v := by
    rw [h]
    exact Nat.ofDigitChars_ten_toDigits
  rw [hvalue, Nat.zero_mod] at hloop
  have hminus : '-' ∉ key.view.toList := fun hc => absurd (hnum.digits _ hc) (by decide)
  rw [arrayLookup, if_neg fun hc => hminus (by rw [hc]; exact .head _)]
  split
  · exact absurd ‹_› hnum.ne_nil
  rename_i front rest htext
  have hfront : front ∈ key.view.toList := by
    rw [htext]
    exact .head _
  have hzero : ¬ (front = '0' ∧ 1 < key.view.toList.length) := by
    intro hc
    obtain ⟨hz, hlen⟩ := hc
    exact absurd (hnum.zero (by rw [htext, hz]; rfl)) (Nat.not_le.2 hlen)
  have hfront' : front ≠ '-' := by
    rintro rfl
    exact hminus hfront
  rw [if_neg hfront', if_neg hzero, hloop]

/-- What RFC 6901 asks of an array token: the numeral of an element is resolved to it, and any
other token is an error. -/
structure FollowsRfc (h : Heap) (current : Node) (key : Location) (index : Nat) : Prop where
  resolved : ∀ k element, key.view.toList = Nat.toDigits 10 k →
    (h.get current).children[k]? = some element →
      arrayLookup h current key index = some (h, element, k)
  refused : (∀ k, key.view.toList = Nat.toDigits 10 k → (h.get current).children.length ≤ k) →
    ∃ h' e index', arrayLookup h current key index = some (h', e, index') ∧ FreshError h h' e

theorem not_freshError (h : Heap) (e : Node) : ¬ FreshError h h e := by
  intro hfresh
  obtain ⟨hle, htype⟩ := hfresh
  rw [h.get_of_le hle] at htype
  exact absurd htype (by decide)

namespace FollowsRfc

theorem ne_nil (h : FollowsRfc heap current key index) : key.view.toList ≠ [] := by
  intro hnil
  obtain ⟨h', e, index', he, -⟩ := h.refused fun k hk =>
    absurd (hk.symm.trans hnil) Nat.toDigits_ne_nil
  simp [arrayLookup, hnil] at he

theorem not_wrapped (h : FollowsRfc heap current key index) (hv : 2 ^ 64 ≤ v)
    (hkey : key.view.toList = Nat.toDigits 10 v) :
    (heap.get current).children.length ≤ v % 2 ^ 64 := by
  apply Nat.le_of_not_lt
  intro hlt
  have hlookup := arrayLookup_numeral hkey heap current index
  rw [List.getElem?_eq_getElem hlt] at hlookup
  by_cases hsize : v < (heap.get current).children.length
  · have hresolved := h.resolved v _ hkey (List.getElem?_eq_getElem hsize)
    have hindex : v % 2 ^ 64 = v := congrArg (·.2.2) (Option.some.inj (hlookup.symm.trans hresolved))
    have hmod := Nat.mod_lt v (y := 2 ^ 64) (by decide)
    rw [hindex] at hmod
    exact absurd hv (Nat.not_le.2 hmod)
  · obtain ⟨h', e, index', he, hfresh⟩ := h.refused fun k hk => by
      have hdigits := congrArg (Nat.ofDigitChars 10 · 0) (hk.symm.trans hkey)
      simp only [Nat.ofDigitChars_ten_toDigits] at hdigits
      exact hdigits ▸ Nat.le_of_not_lt hsize
    cases hlookup.symm.trans he
    exact not_freshError heap _ hfresh

end FollowsRfc

/-- Array tokens follow RFC 6901 unless they are empty, or numerals that wrap around to an
element. -/
theorem arrayLookup_follows_iff (h : Heap) (current : Node) (key : Location) (index : Nat) :
    FollowsRfc h current key index ↔ key.view.toList ≠ [] ∧
      ∀ v, 2 ^ 64 ≤ v → key.view.toList = Nat.toDigits 10 v →
        (h.get current).children.length ≤ v % 2 ^ 64 := by
  constructor
  · intro hf
    exact ⟨hf.ne_nil, fun v hv hkey => hf.not_wrapped hv hkey⟩
  · intro hcond
    obtain ⟨hne, hwrap⟩ := hcond
    constructor
    · intro k element hkey helement
      have hlt := (List.getElem?_eq_some_iff.1 helement).1
      have hk : k % 2 ^ 64 = k := by
        apply Nat.mod_eq_of_lt
        apply Nat.lt_of_not_le
        intro hk
        have hle := Nat.le_trans (hwrap k hk hkey) (Nat.mod_le k _)
        exact absurd hlt (Nat.not_lt.2 hle)
      rw [arrayLookup_numeral hkey, hk, helement]
    · intro hrefused
      by_cases hnum : IsNumeral key.view.toList
      · have hkey := hnum.toDigits.symm
        have hsize : (h.get current).children.length ≤
            Nat.ofDigitChars 10 key.view.toList 0 % 2 ^ 64 := by
          rcases Nat.lt_or_ge (Nat.ofDigitChars 10 key.view.toList 0) (2 ^ 64) with hv | hv
          · rw [Nat.mod_eq_of_lt hv]
            exact hrefused _ hkey
          · exact hwrap _ hv hkey
        rw [arrayLookup_numeral hkey, List.getElem?_eq_none hsize]
        exact map_errAt ..
      · exact arrayLookup_not_numeral hne hnum h current index

/-- The array `[null]`. -/
def arrayOfNull : Heap :=
  ⟨[{ type := .jsonArray, children := [1] }, { type := .jsonNull, parent := some 0 }]⟩

/-- An empty token is read out of range, and 2 ^ 64 resolves to the first element. -/
theorem array_tokens_wrong :
    (arrayLookup arrayOfNull 0 (.ofString "") 0 = none ∧
      ¬ FollowsRfc arrayOfNull 0 (.ofString "") 0) ∧
    arrayLookup arrayOfNull 0 (.ofString "18446744073709551616") 0 = some (arrayOfNull, 1, 0) ∧
      ¬ FollowsRfc arrayOfNull 0 (.ofString "18446744073709551616") 0 := by
  have hkey : (Location.ofString "18446744073709551616").view.toList =
      Nat.toDigits 10 (2 ^ 64) := by decide
  refine ⟨⟨by decide, fun h => h.ne_nil (by decide)⟩, by decide, fun h => ?_⟩
  exact absurd (h.not_wrapped (Nat.le_refl _) hkey) (by decide)

end Trieste.Json
