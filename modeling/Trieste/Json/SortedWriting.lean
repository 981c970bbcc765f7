import Mathlib.Algebra.BigOperators.Group.List.Basic
import Mathlib.Data.String.Basic
import Trieste.Json.Tables

namespace Trieste.Json
set_option autoImplicit true
open Library Relation

def valueTokens : List Token :=
  [.jsonObject, .jsonArray, .jsonString, .jsonNumber, .jsonTrue, .jsonFalse, .jsonNull]

/-- The trees that the reader makes, for which its definition of wellformedness holds. -/
structure IsJson (h : Heap) (document : Node) : Prop extends IsDocument h document where
  top : (h.get document).type = .top
  values : ∀ v, h.HasChild document v → (h.get v).type ∈ valueTokens
  nonempty : (h.get document).children ≠ []
  elements : ∀ n v, h.InTree document n → (h.get n).type = .jsonArray → h.HasChild n v →
    (h.get v).type ∈ valueTokens
  pairs : ∀ m key value, h.InTree document m → (h.get m).type = .jsonMember →
    (h.get m).children = [key, value] →
      (h.get key).type = .jsonKey ∧ (h.get value).type ∈ valueTokens
  leaves : ∀ n, h.InTree document n →
    (h.get n).type ∉ [.top, .jsonObject, .jsonArray, .jsonMember] → (h.get n).children = []

/-- No object at or below the node has two members with one key. -/
def DistinctKeys (h : Heap) (n : Node) : Prop :=
  ∀ m, h.InTree n m → (h.get m).type = .jsonObject →
    ((h.get m).children.map (Store.keyText h)).Nodup

namespace WriteSettings
variable (settings : WriteSettings)

def separated (newIndent : String) : List String → String
  | [] => ""
  | [text] => settings.lead newIndent ++ text ++ settings.newline
  | text :: rest =>
    settings.lead newIndent ++ text ++ "," ++ settings.newline ++ separated newIndent rest

def enclosed (indent left right : String) (texts : List String) : String :=
  if texts = [] then left ++ right
  else left ++ (settings.newline ++ settings.separated (indent ++ settings.indent) texts ++
    settings.lead indent) ++ right

/-- The texts behind each other, with the commas that an object of the given size has. -/
def items (newIndent : String) (size : Nat) : Nat → List String → String
  | _, [] => ""
  | i, text :: rest =>
    settings.lead newIndent ++ text ++ (if i < size - 1 then "," else "") ++ settings.newline ++
      items newIndent size (i + 1) rest

def cost (newIndent text : String) : Nat :=
  (settings.lead newIndent).length + text.length + settings.newline.length

variable {settings}

theorem items_separated (h : i + texts.length = size) :
    settings.items newIndent size i texts = settings.separated newIndent texts := by
  induction texts generalizing i with
  | nil => rfl
  | cons text rest ih =>
    rw [List.length_cons] at h
    rw [items, ih (by omega)]
    cases rest with
    | nil =>
      have hlast : ¬ i < size - 1 := by
        rw [List.length_nil] at h
        omega
      rw [if_neg hlast]
      simp [separated]
    | cons text' rest =>
      have hlt : i < size - 1 := by
        rw [List.length_cons] at h
        omega
      rw [if_pos hlt]
      rfl

theorem length_separated (newIndent : String) (texts : List String) :
    (settings.separated newIndent texts).length =
      (texts.map (settings.cost newIndent)).sum + (texts.length - 1) := by
  induction texts with
  | nil => rfl
  | cons text rest ih =>
    cases rest with
    | nil => simp [separated, cost]
    | cons text' rest =>
      rw [separated]
      · simp only [String.length_append, ih, List.map_cons, List.sum_cons, List.length_cons, cost]
        have hcomma : ",".length = 1 := rfl
        omega
      · exact nofun

theorem length_items (newIndent : String) (size i : Nat) (texts : List String) :
    (settings.items newIndent size i texts).length =
      (texts.map (settings.cost newIndent)).sum + min texts.length (size - 1 - i) := by
  induction texts generalizing i with
  | nil => simp [items]
  | cons text rest ih =>
    have hcomma : (if i < size - 1 then "," else "").length = if i < size - 1 then 1 else 0 := by
      split <;> rfl
    simp only [items, String.length_append, ih, hcomma, List.map_cons, List.sum_cons,
      List.length_cons, cost]
    split <;> omega

end WriteSettings

theorem writeItems_eq {settings : WriteSettings} {write : Node → Option String}
    {text : Node → String} (h : ∀ m ∈ ms, write m = some (text m)) (newIndent : String)
    (size i : Nat) : writeItems settings newIndent size write i ms =
      some (settings.items newIndent size i (ms.map text)) := by
  induction ms generalizing i with
  | nil => rfl
  | cons m ms ih =>
    rw [List.forall_mem_cons] at h
    rw [writeItems, h.1, ih h.2]
    rfl

theorem writeItems_isSome {settings : WriteSettings} {write : Node → Option String}
    (h : writeItems settings newIndent size write i ms = some written) :
    ∀ m ∈ ms, write m = some ((write m).getD "") := by
  induction ms generalizing i written with
  | nil => exact nofun
  | cons m ms ih =>
    obtain ⟨text, htext, h⟩ := Option.bind_eq_some_iff.1 h
    obtain ⟨following, hfollowing, -⟩ := Option.bind_eq_some_iff.1 h
    rw [List.forall_mem_cons]
    exact ⟨by rw [htext]; rfl, ih hfollowing⟩

/-- What is to be written for a node: in each object every member once, in the order of the keys. -/
inductive Emits (h : Heap) (settings : WriteSettings) : String → Node → String → Prop
  | atom (ht : (h.get n).type ∈ [.jsonNumber, .jsonString, .jsonTrue, .jsonFalse, .jsonNull]) :
      Emits h settings indent n (viewOf h n)
  | member (ht : (h.get n).type = .jsonMember) (hc : (h.get n).children = [key, value])
      (hv : Emits h settings indent value text) :
      Emits h settings indent n ("\"" ++ viewOf h key ++ "\"" ++ ":" ++ settings.lead " " ++ text)
  | object {members : List Node} {text : Node → String} (ht : (h.get n).type = .jsonObject)
      (hperm : members.Perm (h.get n).children)
      (hsorted : members.Pairwise fun m m' => ¬ Store.keyText h m' < Store.keyText h m)
      (hm : ∀ m ∈ members, Emits h settings (indent ++ settings.indent) m (text m)) :
      Emits h settings indent n (settings.enclosed indent "\x7b" "\x7d" (members.map text))
  | array {text : Node → String} (ht : (h.get n).type = .jsonArray)
      (hv : ∀ v ∈ (h.get n).children, Emits h settings (indent ++ settings.indent) v (text v)) :
      Emits h settings indent n (settings.enclosed indent "[" "]" ((h.get n).children.map text))
  | top (ht : (h.get n).type = .top) (hc : (h.get n).children = [value])
      (hv : Emits h settings indent value text) : Emits h settings indent n text

section Members
variable {s₀ s : Store} {settings : WriteSettings}

def withKey (h : Heap) (object : Node) (text : String) : List Node :=
  (h.get object).children.filter fun m => Store.keyText h m = text

def allWritten (h : Heap) (n : Node) : List Node :=
  (h.get n).children.flatMap fun m => withKey h n (Store.keyText h m)

theorem keyText_eq (hc : (h.get m).children = [key, value]) :
    Store.keyText h m = viewOf h key := by
  rw [Store.keyText, hc]
  rfl

theorem mapM_some {l : List α} {f : α → Option β} {g : α → β} (h : ∀ x ∈ l, f x = some (g x)) :
    l.mapM f = some (l.map g) := by
  induction l with
  | nil => rfl
  | cons x l ih =>
    rw [List.forall_mem_cons] at h
    rw [List.mapM_cons, h.1, ih h.2]
    rfl

theorem pairwise_mergeSort_key (f : β → String) (l : List β) :
    (l.mergeSort fun x y => !decide (f y < f x)).Pairwise fun x y => ¬ f y < f x := by
  have hle : (l.mergeSort fun x y => !decide (f y < f x)).Pairwise
      fun x y => (!decide (f y < f x)) = true := by
    apply List.pairwise_mergeSort
    · intro x y z hxy hyz
      simp only [Bool.not_eq_true', decide_eq_false_iff_not, not_lt] at hxy hyz ⊢
      exact hxy.trans hyz
    · intro x y
      simp only [Bool.or_eq_true, Bool.not_eq_true', decide_eq_false_iff_not, not_lt]
      exact le_total _ _
  apply hle.imp
  intro x y hxy
  rwa [Bool.not_eq_true', decide_eq_false_iff_not] at hxy

theorem membersToWrite_spec (hdoc : IsDocument s.heap document)
    (hbuilt : s₀.buildSt document = some s) (hsort : settings.sortKeys = true)
    (hin : s.heap.InTree document n) (hobject : (s.heap.get n).type = .jsonObject) :
    ∃ members, membersToWrite s settings n = some members ∧
      members.Perm (allWritten s.heap n) ∧
      members.Pairwise fun m m' => ¬ Store.keyText s.heap m' < Store.keyText s.heap m := by
  let location (m : Node) : Location := (s.heap.get ((s.heap.get m).children.headD 0)).location
  have hkeys : ∀ m ∈ (s.heap.get n).children,
      Store.memberKey s.heap m = some ((s.heap.get m).children.headD 0) ∧
        Store.keyText s.heap m = (location m).view := by
    intro m hm
    have hmember := (hdoc.member n m hin hm).2 hobject
    obtain ⟨key, value, hc⟩ := hdoc.fields m (hin.tail hm) hmember
    rw [Store.memberKey, Store.memberField, if_pos hmember, keyText_eq hc]
    dsimp only [location]
    rw [hc]
    exact ⟨rfl, rfl⟩
  let sorted : List Location := ((s.heap.get n).children.map location).mergeSort
    fun x y => !decide (y.view < x.view)
  have hwritten : membersToWrite s settings n = some (sorted.flatMap fun l =>
      withKey s.heap n l.view) := by
    simp only [membersToWrite, hsort, if_true, mapM_some fun m hm => (hkeys m hm).1]
    apply congrArg some
    rw [List.map_map]
    apply List.flatMap_congr
    intro l _
    exact hdoc.lookdown hbuilt hin hobject l
  refine ⟨_, hwritten, ?_, ?_⟩
  · apply ((List.mergeSort_perm _ _).flatMap_right _).trans
    rw [List.flatMap_map]
    apply List.Perm.of_eq
    apply List.flatMap_congr
    intro m hm
    rw [(hkeys m hm).2]
  · rw [List.pairwise_flatMap]
    have htext : ∀ (l : Location), ∀ m ∈ withKey s.heap n l.view,
        Store.keyText s.heap m = l.view := by
      intro l m hm
      exact of_decide_eq_true (List.mem_filter.1 hm).2
    constructor
    · intro l _
      apply List.pairwise_of_forall_mem_list
      intro m hm m' hm'
      rw [htext l m hm, htext l m' hm']
      exact lt_irrefl _
    · apply (pairwise_mergeSort_key Location.view _).imp
      intro x y hxy m hm m' hm'
      rwa [htext x m hm, htext y m' hm']

theorem mem_withKey (hm : m ∈ (h.get n).children) : m ∈ withKey h n (Store.keyText h m) :=
  List.mem_filter.2 ⟨hm, decide_eq_true rfl⟩

theorem allWritten_distinct (h : ((heap.get n).children.map (Store.keyText heap)).Nodup) :
    allWritten heap n = (heap.get n).children := by
  have hone : ∀ m ∈ (heap.get n).children, withKey heap n (Store.keyText heap m) = [m] := by
    intro m hm
    have hsame : withKey heap n (Store.keyText heap m) =
        (heap.get n).children.filter fun m' => m' = m := by
      apply List.filter_congr
      intro m' hm'
      apply decide_eq_decide.2
      exact ⟨List.inj_on_of_nodup_map h hm' hm, congrArg _⟩
    rw [hsame, List.filter_eq, List.count_eq_one_of_mem (.of_map _ h) hm]
    rfl
  rw [allWritten, List.flatMap_congr hone, List.flatMap_singleton']

theorem allWritten_extra (hnodup : (heap.get n).children.Nodup) :
    ∃ extra, (allWritten heap n).Perm ((heap.get n).children ++ extra) := by
  have hsub : (heap.get n).children ⊆ allWritten heap n := by
    intro m hm
    exact List.mem_flatMap_of_mem hm (mem_withKey hm)
  obtain ⟨l, hl, hsublist⟩ := List.subperm_of_subset hnodup hsub
  obtain ⟨extra, hextra⟩ := hsublist.exists_perm_append
  exact ⟨extra, hextra.trans (hl.append_right extra)⟩

theorem distinct_of_allWritten (hnodup : (heap.get n).children.Nodup)
    (h : (allWritten heap n).Perm (heap.get n).children) :
    ((heap.get n).children.map (Store.keyText heap)).Nodup := by
  have hdisjoint := (List.nodup_flatMap.1 (h.nodup_iff.2 hnodup)).2
  rw [List.Nodup, List.pairwise_map]
  apply hdisjoint.imp_of_mem
  intro m m' hm _ hd heq
  have hin := mem_withKey hm
  apply hd hin
  rwa [heq] at hin

end Members

section Values
variable {s₀ s : Store} {settings : WriteSettings}

/-- What `write_object` writes for a member. -/
def writeMember (s : Store) (settings : WriteSettings) (fuel : Nat) (newIndent : String)
    (member : Node) : Option String := do
  let key ← Store.memberKey s.heap member
  let value ← Store.memberValue s.heap member
  let key ← writeValue s settings fuel newIndent key
  let value ← writeValue s settings fuel newIndent value
  return key ++ ":" ++ settings.lead " " ++ value

theorem writeValue_atom
    (ht : (s.heap.get n).type ∈ [.jsonNumber, .jsonString, .jsonTrue, .jsonFalse, .jsonNull])
    (fuel : Nat) (indent : String) :
    writeValue s settings (fuel + 1) indent n = some (viewOf s.heap n) := by
  rw [writeValue, if_pos ht]

theorem writeValue_key (ht : (s.heap.get n).type = .jsonKey) (fuel : Nat) (indent : String) :
    writeValue s settings (fuel + 1) indent n = some ("\"" ++ viewOf s.heap n ++ "\"") := by
  rw [writeValue, ht, if_neg (by decide), if_pos rfl]

theorem writeValue_object (ht : (s.heap.get n).type = .jsonObject) (fuel : Nat) (indent : String) :
    writeValue s settings (fuel + 1) indent n =
      if (s.heap.get n).children = [] then some "\x7b\x7d"
      else do
        let members ← membersToWrite s settings n
        let text ← writeContainer settings indent (s.heap.get n).children.length
          (writeMember s settings fuel) members
        return "\x7b" ++ text ++ "\x7d" := by
  rw [writeValue, ht, if_neg (by decide), if_neg (by decide), if_pos rfl]
  rfl

theorem writeValue_array (ht : (s.heap.get n).type = .jsonArray) (fuel : Nat) (indent : String) :
    writeValue s settings (fuel + 1) indent n =
      if (s.heap.get n).children = [] then some "[]"
      else do
        let text ← writeContainer settings indent (s.heap.get n).children.length
          (writeValue s settings fuel) (s.heap.get n).children
        return "[" ++ text ++ "]" := by
  rw [writeValue, ht, if_neg (by decide), if_neg (by decide), if_neg (by decide), if_pos rfl]

theorem writeValue_top (ht : (s.heap.get n).type = .top) (fuel : Nat) (indent : String) :
    writeValue s settings (fuel + 1) indent n =
      (s.heap.get n).children.head?.bind (writeValue s settings fuel indent) := by
  rw [writeValue, ht, if_neg (by decide), if_neg (by decide), if_neg (by decide),
    if_neg (by decide), if_pos rfl]
  rfl

theorem writeContainer_eq {write : String → Node → Option String} {text : Node → String}
    (h : ∀ m ∈ ms, write (indent ++ settings.indent) m = some (text m)) (size : Nat) :
    writeContainer settings indent size write ms =
      some (settings.newline ++ settings.items (indent ++ settings.indent) size 0 (ms.map text) ++
        settings.lead indent) := by
  rw [writeContainer, writeItems_eq h]
  rfl

theorem writeMember_eq (hjson : IsJson s.heap document) (hin : s.heap.InTree document m)
    (hm : (s.heap.get m).type = .jsonMember) (hc : (s.heap.get m).children = [key, value])
    (fuel : Nat) (newIndent : String) :
    writeMember s settings fuel newIndent m = (writeValue s settings fuel newIndent value).map
      ("\"" ++ viewOf s.heap key ++ "\"" ++ ":" ++ settings.lead " " ++ ·) := by
  have hkey := (hjson.pairs m key value hin hm hc).1
  rw [writeMember, Store.memberKey, Store.memberValue, Store.memberField, Store.memberField,
    if_pos hm, if_pos hm, hc]
  cases fuel with
  | zero => rfl
  | succ fuel =>
    change (do
      let key ← writeValue s settings (fuel + 1) newIndent key
      let value ← writeValue s settings (fuel + 1) newIndent value
      some (key ++ ":" ++ settings.lead " " ++ value)) = _
    rw [writeValue_key hkey]
    cases writeValue s settings (fuel + 1) newIndent value <;> rfl

theorem writeContainer_emits {write : String → Node → Option String} (hne : ms ≠ [])
    (hsize : ms.length = size)
    (h : ∀ m ∈ ms, ∃ text, write (indent ++ settings.indent) m = some text ∧
      Emits heap settings (indent ++ settings.indent) m text) (left right : String) :
    ∃ (inside : String) (text : Node → String),
      writeContainer settings indent size write ms = some inside ∧
      left ++ inside ++ right = settings.enclosed indent left right (ms.map text) ∧
      ∀ m ∈ ms, Emits heap settings (indent ++ settings.indent) m (text m) := by
  have hwritten : ∀ m ∈ ms, write (indent ++ settings.indent) m =
      some ((write (indent ++ settings.indent) m).getD "") ∧
      Emits heap settings (indent ++ settings.indent) m
        ((write (indent ++ settings.indent) m).getD "") := by
    intro m hm
    obtain ⟨text, htext, hemits⟩ := h m hm
    rw [htext]
    exact ⟨rfl, hemits⟩
  refine ⟨_, _, writeContainer_eq (fun m hm => (hwritten m hm).1) size, ?_,
    fun m hm => (hwritten m hm).2⟩
  rw [WriteSettings.enclosed, if_neg (by simpa using hne),
    WriteSettings.items_separated (by rw [Nat.zero_add, List.length_map, hsize])]

theorem writeValue_emits (hjson : IsJson s.heap document) (hbuilt : s₀.buildSt document = some s)
    (hsort : settings.sortKeys = true) (hin : s.heap.InTree document n)
    (hn : (s.heap.get n).type ∈ valueTokens) (hdistinct : DistinctKeys s.heap n)
    (ht : s.heap.Represents n t) (hdepth : t.depth ≤ fuel) (indent : String) :
    ∃ text, writeValue s settings fuel indent n = some text ∧
      Emits s.heap settings indent n text := by
  induction fuel generalizing indent n t with
  | zero =>
    cases t with
    | node type location trees =>
      rw [Tree.depth] at hdepth
      exact absurd hdepth (Nat.not_succ_le_zero _)
  | succ fuel ih =>
    have hbelow : ∀ c, s.heap.HasChild n c → ∃ t', s.heap.Represents c t' ∧ t'.depth ≤ fuel := by
      intro c hc
      obtain ⟨t', ht', hlt⟩ := ht.child hc
      exact ⟨t', ht', Nat.le_of_lt_succ (hlt.trans_le hdepth)⟩
    have hkeep : ∀ c, s.heap.InTree n c → DistinctKeys s.heap c :=
      fun c hc m hm => hdistinct m (hc.trans hm)
    rw [valueTokens, List.mem_cons, List.mem_cons] at hn
    rcases hn with hobject | harray | hatom
    · rw [writeValue_object hobject]
      obtain ⟨members, hmembers, hperm, hsorted⟩ :=
        membersToWrite_spec hjson.toIsDocument hbuilt hsort hin hobject
      rw [allWritten_distinct (hdistinct n .refl hobject)] at hperm
      split
      · next hempty =>
        have hperm : ([] : List Node).Perm (s.heap.get n).children := by rw [hempty]
        have hemits : Emits s.heap settings indent n
            (settings.enclosed indent "\x7b" "\x7d" ([].map fun _ => "")) :=
          .object hobject hperm .nil (fun _ hm => by cases hm)
        exact ⟨_, rfl, hemits⟩
      · next hne =>
        have hm : ∀ m ∈ members, ∃ text,
            writeMember s settings fuel (indent ++ settings.indent) m = some text ∧
              Emits s.heap settings (indent ++ settings.indent) m text := by
          intro m hm
          have hc := hperm.mem_iff.1 hm
          have hmember := (hjson.member n m hin hc).2 hobject
          obtain ⟨key, value, hfields⟩ := hjson.fields m (hin.tail hc) hmember
          have hvalue : s.heap.HasChild m value := by simp [Heap.HasChild, hfields]
          obtain ⟨t', ht', hdepth'⟩ := hbelow m hc
          obtain ⟨t'', ht'', hlt⟩ := ht'.child hvalue
          obtain ⟨text, htext, hemits⟩ := ih ((hin.tail hc).tail hvalue)
            (hjson.pairs m key value (hin.tail hc) hmember hfields).2
            (hkeep value (.tail (.single hc) hvalue)) ht'' (hlt.le.trans hdepth')
            (indent ++ settings.indent)
          rw [writeMember_eq hjson (hin.tail hc) hmember hfields, htext]
          exact ⟨_, rfl, .member hmember hfields hemits⟩
        have hne' : members ≠ [] := by
          rintro rfl
          exact hne hperm.nil_eq.symm
        obtain ⟨inside, text, hwrite, henclosed, hemits⟩ :=
          writeContainer_emits hne' hperm.length_eq hm "\x7b" "\x7d"
        refine ⟨"\x7b" ++ inside ++ "\x7d", ?_, ?_⟩
        · rw [hmembers, Option.bind_eq_bind, Option.bind_some, hwrite]
          rfl
        · rw [henclosed]
          exact .object hobject hperm hsorted hemits
    · rw [writeValue_array harray]
      split
      · next hempty =>
        have hemits : Emits s.heap settings indent n
            (settings.enclosed indent "[" "]" ((s.heap.get n).children.map fun _ => "")) :=
          .array harray (by simp [hempty])
        rw [hempty] at hemits
        exact ⟨_, rfl, hemits⟩
      · next hne =>
        have hv : ∀ v ∈ (s.heap.get n).children, ∃ text,
            writeValue s settings fuel (indent ++ settings.indent) v = some text ∧
              Emits s.heap settings (indent ++ settings.indent) v text := by
          intro v hv
          obtain ⟨t', ht', hdepth'⟩ := hbelow v hv
          exact ih (hin.tail hv) (hjson.elements n v hin harray hv) (hkeep v (.single hv)) ht'
            hdepth' _
        obtain ⟨inside, text, hwrite, henclosed, hemits⟩ :=
          writeContainer_emits hne rfl hv "[" "]"
        refine ⟨"[" ++ inside ++ "]", ?_, ?_⟩
        · rw [hwrite]
          rfl
        · rw [henclosed]
          exact .array harray hemits
    · have hatom' : (s.heap.get n).type ∈
          [.jsonNumber, .jsonString, .jsonTrue, .jsonFalse, .jsonNull] := by
        simp only [List.mem_cons, List.not_mem_nil, or_false] at hatom ⊢
        tauto
      exact ⟨_, writeValue_atom hatom' fuel indent, .atom hatom'⟩

theorem sum_map_le {f g : α → Nat} {l : List α} (h : ∀ x ∈ l, f x ≤ g x) :
    (l.map f).sum ≤ (l.map g).sum ∧ ((l.map f).sum = (l.map g).sum → ∀ x ∈ l, f x = g x) := by
  induction l with
  | nil => exact ⟨le_refl _, fun _ => nofun⟩
  | cons x l ih =>
    rw [List.forall_mem_cons] at h
    obtain ⟨hle, heq⟩ := ih h.2
    have hx := h.1
    simp only [List.map_cons, List.sum_cons, List.forall_mem_cons]
    refine ⟨Nat.add_le_add hx hle, fun hsum => ⟨by omega, heq (by omega)⟩⟩

theorem Emits.member_inv (h : Emits heap settings indent m text)
    (hm : (heap.get m).type = .jsonMember) : ∃ key value rest,
      (heap.get m).children = [key, value] ∧ Emits heap settings indent value rest ∧
      text = "\"" ++ viewOf heap key ++ "\"" ++ ":" ++ settings.lead " " ++ rest := by
  cases h with
  | atom ht =>
    rw [hm] at ht
    exact absurd ht (by decide)
  | member ht hc hv => exact ⟨_, _, _, hc, hv, rfl⟩
  | object ht | array ht | top ht =>
    rw [hm] at ht
    exact absurd ht (by decide)

/-- What is written for a node is at least as long as what is to be written, and longer where an
object has two members with one key. -/
def AtLeast (h : Heap) (n : Node) (text written : String) : Prop :=
  text.length ≤ written.length ∧ (text.length = written.length → DistinctKeys h n)

theorem distinctKeys_leaf (hjson : IsJson heap document) (hin : heap.InTree document n)
    (ht : (heap.get n).type ∉ [.top, .jsonObject, .jsonArray, .jsonMember]) :
    DistinctKeys heap n := by
  intro m hm hobject
  rcases hm.cases_head with rfl | ⟨c, hc, -⟩
  · rw [hobject] at ht
    exact absurd (by decide) ht
  · rw [Heap.HasChild, hjson.leaves n hin ht] at hc
    cases hc

theorem distinctKeys_children (hn : (heap.get n).type ≠ .jsonObject)
    (h : ∀ c, heap.HasChild n c → DistinctKeys heap c) : DistinctKeys heap n := by
  intro m hm hobject
  rcases hm.cases_head with rfl | ⟨c, hc, hcm⟩
  · exact absurd hobject hn
  · exact h c hc m hcm hobject

theorem writeMember_atLeast (hjson : IsJson s.heap document) (hin : s.heap.InTree document m)
    (hm : (s.heap.get m).type = .jsonMember)
    (hwritten : writeMember s settings fuel newIndent m = some written)
    (h : Emits s.heap settings newIndent m text)
    (ih : ∀ value rest written, s.heap.HasChild m value →
      writeValue s settings fuel newIndent value = some written →
      Emits s.heap settings newIndent value rest → AtLeast s.heap value rest written) :
    AtLeast s.heap m text written ∧ 0 < written.length := by
  obtain ⟨key, value, rest, hc, hv, rfl⟩ := h.member_inv hm
  have hvalue : s.heap.HasChild m value := by simp [Heap.HasChild, hc]
  have hkey : s.heap.HasChild m key := by simp [Heap.HasChild, hc]
  rw [writeMember_eq hjson hin hm hc] at hwritten
  obtain ⟨value', hwrite, rfl⟩ := Option.map_eq_some_iff.1 hwritten
  obtain ⟨hle, heq⟩ := ih value rest value' hvalue hwrite hv
  have hcolon : ":".length = 1 := rfl
  rw [AtLeast]
  simp only [String.length_append, hcolon]
  refine ⟨⟨by omega, fun hlength => ?_⟩, by omega⟩
  apply distinctKeys_children
  · rw [hm]
    decide
  · intro c hchild
    rw [Heap.HasChild, hc] at hchild
    simp only [List.mem_cons, List.not_mem_nil, or_false] at hchild
    rcases hchild with rfl | rfl
    · apply distinctKeys_leaf hjson (hin.tail hkey)
      rw [(hjson.pairs m c value hin hm hc).1]
      decide
    · exact heq (by omega)

theorem writeContainer_inv {write : String → Node → Option String}
    (h : writeContainer settings indent size write ms = some inside) : ∃ w : Node → String,
      (∀ m ∈ ms, write (indent ++ settings.indent) m = some (w m)) ∧
      inside = settings.newline ++ settings.items (indent ++ settings.indent) size 0 (ms.map w) ++
        settings.lead indent := by
  obtain ⟨text, htext, -⟩ := Option.bind_eq_some_iff.1 h
  have hall := writeItems_isSome htext
  rw [writeContainer_eq hall] at h
  exact ⟨_, hall, (Option.some.inj h).symm⟩

theorem container_atLeast {cs ms members extra : List Node} {text w : Node → String}
    (hms : ms.Perm (cs ++ extra)) (hmembers : members.Perm cs) (hne : cs ≠ [])
    (hle : ∀ c ∈ cs, (text c).length ≤ (w c).length) (hpos : ∀ e ∈ extra, 0 < (w e).length)
    (indent left right : String) :
    (settings.enclosed indent left right (members.map text)).length ≤
      (left ++ (settings.newline ++ settings.items (indent ++ settings.indent) cs.length 0
        (ms.map w) ++ settings.lead indent) ++ right).length ∧
    ((settings.enclosed indent left right (members.map text)).length =
      (left ++ (settings.newline ++ settings.items (indent ++ settings.indent) cs.length 0
        (ms.map w) ++ settings.lead indent) ++ right).length →
          extra = [] ∧ ∀ c ∈ cs, (text c).length = (w c).length) := by
  have hlen : 0 < cs.length := List.length_pos_of_ne_nil hne
  have hmembers_ne : members.map text ≠ [] := by
    intro hnil
    rw [List.map_eq_nil_iff.1 hnil] at hmembers
    exact hne hmembers.nil_eq.symm
  let cost (t : Node → String) (m : Node) : Nat :=
    settings.cost (indent ++ settings.indent) (t m)
  have hsum : ((members.map text).map (settings.cost (indent ++ settings.indent))).sum =
      (cs.map (cost text)).sum := by
    rw [List.map_map]
    exact (hmembers.map _).sum_eq
  have hsum' : ((ms.map w).map (settings.cost (indent ++ settings.indent))).sum =
      (cs.map (cost w)).sum + (extra.map (cost w)).sum := by
    rw [List.map_map, ← List.sum_append, ← List.map_append]
    exact (hms.map _).sum_eq
  obtain ⟨hsum_le, hsum_eq⟩ := sum_map_le (f := cost text) (g := cost w) (l := cs) fun c hc => by
    have := hle c hc
    simp only [cost, WriteSettings.cost]
    omega
  have hcommas : min ms.length (cs.length - 1 - 0) = cs.length - 1 := by
    rw [hms.length_eq, List.length_append]
    omega
  rw [WriteSettings.enclosed, if_neg hmembers_ne]
  simp only [String.length_append, WriteSettings.length_items, WriteSettings.length_separated,
    List.length_map, hsum, hsum', hcommas, hmembers.length_eq]
  refine ⟨by omega, fun heq => ⟨?_, ?_⟩⟩
  · cases extra with
    | nil => rfl
    | cons e extra =>
      have hcost := hpos e List.mem_cons_self
      simp only [List.map_cons, List.sum_cons, cost, WriteSettings.cost] at heq hsum_le
      omega
  · intro c hc
    have hcost := hsum_eq (by omega) c hc
    simp only [cost, WriteSettings.cost] at hcost
    omega

theorem writeValue_atLeast (hjson : IsJson s.heap document) (hbuilt : s₀.buildSt document = some s)
    (hsort : settings.sortKeys = true) (hin : s.heap.InTree document n)
    (hwritten : writeValue s settings fuel indent n = some written)
    (h : Emits s.heap settings indent n text) : AtLeast s.heap n text written := by
  induction fuel generalizing indent n text written with
  | zero => cases hwritten
  | succ fuel ih =>
    cases h with
    | atom ht =>
      rw [writeValue_atom ht] at hwritten
      cases hwritten
      have hleaf : ∀ type ∈ [Token.jsonNumber, .jsonString, .jsonTrue, .jsonFalse, .jsonNull],
          type ∉ [Token.top, .jsonObject, .jsonArray, .jsonMember] := by decide
      exact ⟨le_refl _, fun _ => distinctKeys_leaf hjson hin (hleaf _ ht)⟩
    | member ht =>
      rw [writeValue, ht, if_neg (by decide), if_neg (by decide), if_neg (by decide),
        if_neg (by decide), if_neg (by decide)] at hwritten
      cases hwritten
    | @object _ _ members text hobject hperm hsorted hm =>
      rw [writeValue_object hobject] at hwritten
      split at hwritten
      · next hempty =>
        cases hwritten
        rw [hempty] at hperm
        rw [hperm.eq_nil]
        refine ⟨le_refl _, fun _ m hm _ => ?_⟩
        rcases hm.cases_head with rfl | ⟨c, hc, -⟩
        · rw [hempty]
          exact .nil
        · rw [Heap.HasChild, hempty] at hc
          cases hc
      · next hne =>
        obtain ⟨members', hmembers', hwritten⟩ := Option.bind_eq_some_iff.1 hwritten
        obtain ⟨inside, hinside, hwritten⟩ := Option.bind_eq_some_iff.1 hwritten
        obtain ⟨w, hw, rfl⟩ := writeContainer_inv hinside
        cases hwritten
        obtain ⟨items, hitems, hperm', -⟩ :=
          membersToWrite_spec hjson.toIsDocument hbuilt hsort hin hobject
        rw [hmembers'] at hitems
        cases hitems
        have hnodup := hjson.nodup n hin
        obtain ⟨extra, hextra⟩ := allWritten_extra hnodup
        have hlengths : ∀ m ∈ (s.heap.get n).children,
            AtLeast s.heap m (text m) (w m) ∧ 0 < (w m).length := by
          intro m hc
          have hmem : m ∈ members' := by
            rw [hperm'.mem_iff, hextra.mem_iff]
            exact List.mem_append_left _ hc
          apply writeMember_atLeast hjson (hin.tail hc) ((hjson.member n m hin hc).2 hobject)
            (hw m hmem) (hm m (hperm.mem_iff.2 hc))
          intro value rest written hvalue hwrite hemits
          exact ih ((hin.tail hc).tail hvalue) hwrite hemits
        have hpos : ∀ e ∈ extra, 0 < (w e).length := by
          intro e he
          have hmem : e ∈ allWritten s.heap n := hextra.mem_iff.2 (List.mem_append_right _ he)
          obtain ⟨m, -, hmem⟩ := List.mem_flatMap.1 hmem
          exact (hlengths e (List.mem_of_mem_filter hmem)).2
        obtain ⟨hle, heq⟩ := container_atLeast (hperm'.trans hextra) hperm hne
          (fun c hc => (hlengths c hc).1.1) hpos indent "\x7b" "\x7d"
        refine ⟨hle, fun hlength => ?_⟩
        obtain ⟨rfl, hall⟩ := heq hlength
        rw [List.append_nil] at hextra
        intro m hm hobject'
        rcases hm.cases_head with rfl | ⟨c, hc, hcm⟩
        · exact distinct_of_allWritten hnodup hextra
        · exact (hlengths c hc).1.2 (hall c hc) m hcm hobject'
    | @array _ _ text harray hv =>
      rw [writeValue_array harray] at hwritten
      have hkeys (h : ∀ c ∈ (s.heap.get n).children, DistinctKeys s.heap c) :
          DistinctKeys s.heap n := distinctKeys_children (by rw [harray]; decide) h
      split at hwritten
      · next hempty =>
        cases hwritten
        rw [hempty]
        refine ⟨le_refl _, fun _ => hkeys ?_⟩
        rw [hempty]
        exact fun _ hm => by cases hm
      · next hne =>
        obtain ⟨inside, hinside, hwritten⟩ := Option.bind_eq_some_iff.1 hwritten
        obtain ⟨w, hw, rfl⟩ := writeContainer_inv hinside
        cases hwritten
        have hlengths : ∀ c ∈ (s.heap.get n).children, AtLeast s.heap c (text c) (w c) :=
          fun c hc => ih (hin.tail hc) (hw c hc) (hv c hc)
        have hms : (s.heap.get n).children.Perm ((s.heap.get n).children ++ []) := by
          rw [List.append_nil]
        obtain ⟨hle, heq⟩ := container_atLeast hms (.refl _) hne
          (fun c hc => (hlengths c hc).1) (fun _ hm => by cases hm) indent "[" "]"
        exact ⟨hle, fun hlength => hkeys fun c hc => (hlengths c hc).2 ((heq hlength).2 c hc)⟩
    | @top _ value _ _ ht hc hv =>
      rw [writeValue_top ht, hc] at hwritten
      have hchild : s.heap.HasChild n value := by
        rw [Heap.HasChild, hc]
        exact List.mem_singleton_self _
      obtain ⟨hle, heq⟩ := ih (hin.tail hchild) hwritten hv
      refine ⟨hle, fun hlength => distinctKeys_children (by rw [ht]; decide) ?_⟩
      intro c hchild'
      rw [Heap.HasChild, hc, List.mem_singleton] at hchild'
      rw [hchild']
      exact heq hlength

end Values

/-- With sorted keys, a document is written with every member once exactly where it holds one value
and no object has two members with one key. -/
theorem write_sorted_iff {s₀ s : Store} {settings : WriteSettings}
    (hjson : IsJson s.heap document) (hbuilt : s₀.buildSt document = some s)
    (hsort : settings.sortKeys = true) :
    (∃ text, toString s settings document = some text ∧
      Emits s.heap settings "" document text) ↔
        (s.heap.get document).children.length = 1 ∧ DistinctKeys s.heap document := by
  constructor
  · intro h
    obtain ⟨text, htext, hemits⟩ := h
    refine ⟨?_, (writeValue_atLeast hjson hbuilt hsort .refl htext hemits).2 rfl⟩
    cases hemits with
    | top ht hc => rw [hc, List.length_singleton]
    | atom ht =>
      rw [hjson.top] at ht
      exact absurd ht (by decide)
    | member ht | object ht | array ht =>
      rw [hjson.top] at ht
      exact absurd ht (by decide)
  · intro h
    obtain ⟨value, hc⟩ := List.length_eq_one_iff.1 h.1
    have hchild : s.heap.HasChild document value := by
      rw [Heap.HasChild, hc]
      exact List.mem_singleton_self _
    obtain ⟨t, ht⟩ := hjson.tree
    obtain ⟨t', ht', -⟩ := ht.child hchild
    have hdistinct : DistinctKeys s.heap value := fun m hm => h.2 m (.head hchild hm)
    obtain ⟨text, htext, hemits⟩ := writeValue_emits hjson hbuilt hsort (.tail .refl hchild)
      (hjson.values value hchild) hdistinct ht' ht'.depth_le ""
    refine ⟨text, ?_, .top hjson.top hc hemits⟩
    rw [toString, writeValue_top hjson.top, hc]
    exact htext

def pairDocument (first second : String) : Heap where
  nodes := [
    { type := .top, children := [1] },
    { type := .jsonObject, parent := some 0, children := [2, 5] },
    { type := .jsonMember, parent := some 1, children := [3, 4] },
    { type := .jsonKey, location := .ofString first, parent := some 2 },
    { type := .jsonNumber, location := .ofString "1", parent := some 2 },
    { type := .jsonMember, parent := some 1, children := [6, 7] },
    { type := .jsonKey, location := .ofString second, parent := some 5 },
    { type := .jsonNumber, location := .ofString "2", parent := some 5 }]

theorem pairDocument_isJson (first second : String) : IsJson (pairDocument first second) 0 := by
  have hlt : ∀ n, (pairDocument first second).InTree 0 n → n < 8 := by
    intro n hn
    induction hn with
    | refl => decide
    | @tail p c _ hc ih =>
      have hchildren : ∀ p < 8, ∀ c ∈ ((pairDocument first second).get p).children, c < 8 :=
        of_decide_eq_true rfl
      exact hchildren p ih c hc
  have hparent : ∀ n < 8, ∀ c ∈ ((pairDocument first second).get n).children,
      ((pairDocument first second).get c).parent = some n := of_decide_eq_true rfl
  have hnodup : ∀ n < 8, ((pairDocument first second).get n).children.Nodup := of_decide_eq_true rfl
  have hmember : ∀ n < 8, ∀ c ∈ ((pairDocument first second).get n).children,
      (((pairDocument first second).get c).type = .jsonMember ↔
        ((pairDocument first second).get n).type = .jsonObject) := of_decide_eq_true rfl
  have hmembers : ∀ n < 8, ((pairDocument first second).get n).type = .jsonMember →
      n = 2 ∨ n = 5 := of_decide_eq_true rfl
  have harray : ∀ n < 8, ((pairDocument first second).get n).type ≠ .error ∧
      ((pairDocument first second).get n).type ≠ .jsonArray := of_decide_eq_true rfl
  have hleaf : ∀ n < 8, ((pairDocument first second).get n).type ∉
      [.top, .jsonObject, .jsonArray, .jsonMember] →
        ((pairDocument first second).get n).children = [] := of_decide_eq_true rfl
  exact {
    tree := by
      let leaf (type : Token) (text : String) : Tree := .node type (.ofString text) []
      refine ⟨.node .top {} [.node .jsonObject {} [
        .node .jsonMember {} [leaf .jsonKey first, leaf .jsonNumber "1"],
        .node .jsonMember {} [leaf .jsonKey second, leaf .jsonNumber "2"]]], ?_⟩
      simp [Heap.Represents, Heap.RepresentsAll, pairDocument, Heap.get, leaf]
    parent := fun n c hn => hparent n (hlt n hn) c
    nodup := fun n hn => hnodup n (hlt n hn)
    member := fun n c hn => hmember n (hlt n hn) c
    fields := by
      intro m hm ht
      rcases hmembers m (hlt m hm) ht with rfl | rfl
      · exact ⟨3, 4, rfl⟩
      · exact ⟨6, 7, rfl⟩
    noError := fun n hn => (harray n (hlt n hn)).1
    root := of_decide_eq_true rfl
    top := rfl
    values := (of_decide_eq_true rfl : ∀ v ∈ ((pairDocument first second).get 0).children,
      ((pairDocument first second).get v).type ∈ valueTokens)
    nonempty := of_decide_eq_true rfl
    elements := fun n _ hn ht => absurd ht (harray n (hlt n hn)).2
    pairs := by
      intro m key value hm ht hc
      rcases hmembers m (hlt m hm) ht with rfl | rfl
      · cases hc
        exact of_decide_eq_true rfl
      · cases hc
        exact of_decide_eq_true rfl
    leaves := fun n hn => hleaf n (hlt n hn) }

def pairBuilt (first second : String) : Store :=
  ⟨pairDocument first second, [⟨1, first, 2⟩, ⟨1, second, 5⟩]⟩

def sortedKeys : WriteSettings := { prettyprint := false, sortKeys := true, indent := "  " }

theorem write_sorted_distinct :
    (∃ text, toString (pairBuilt "b" "a") sortedKeys 0 = some text ∧
      Emits (pairBuilt "b" "a").heap sortedKeys "" 0 text) ↔
        ((pairBuilt "b" "a").heap.get 0).children.length = 1 ∧
          DistinctKeys (pairBuilt "b" "a").heap 0 := by
  have hbuilt : Store.buildSt ⟨pairDocument "b" "a", []⟩ 0 = some (pairBuilt "b" "a") := rfl
  exact write_sorted_iff (pairDocument_isJson "b" "a") hbuilt rfl

/-- Two members with one key are written twice each, and a comma is missing. -/
theorem write_sorted_repeated :
    IsJson (pairBuilt "a" "a").heap 0 ∧
    Store.buildSt ⟨pairDocument "a" "a", []⟩ 0 = some (pairBuilt "a" "a") ∧
    toString (pairBuilt "a" "a") sortedKeys 0 =
      some "\x7b\"a\":1,\"a\":2\"a\":1\"a\":2\x7d" ∧
    ¬ ∃ text, toString (pairBuilt "a" "a") sortedKeys 0 = some text ∧
      Emits (pairBuilt "a" "a").heap sortedKeys "" 0 text := by
  have hjson := pairDocument_isJson "a" "a"
  have hbuilt : Store.buildSt ⟨pairDocument "a" "a", []⟩ 0 = some (pairBuilt "a" "a") := rfl
  have hmembers : membersToWrite (pairBuilt "a" "a") sortedKeys 1 = some [2, 5, 2, 5] := by
    let key : Location := .ofString "a"
    have hsort : [key, key].mergeSort (fun x y => !decide (y.view < x.view)) = [key, key] :=
      List.mergeSort_of_pairwise (by decide)
    exact congrArg (fun keys => some (keys.flatMap ((pairBuilt "a" "a").lookdown 1))) hsort
  refine ⟨hjson, hbuilt, ?_, ?_⟩
  · rw [toString, writeValue_top rfl]
    change writeValue (pairBuilt "a" "a") sortedKeys 8 "" 1 = _
    rw [writeValue_object rfl, hmembers]
    decide +kernel
  intro h
  obtain ⟨text, htext, hemits⟩ := h
  have hdistinct := (writeValue_atLeast hjson hbuilt rfl .refl htext hemits).2 rfl
  have hnodup := hdistinct 1 (.single (.head [])) rfl
  exact absurd hnodup (by decide)

end Trieste.Json
