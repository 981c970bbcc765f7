import Mathlib.Data.List.TakeWhile
import Trieste.Json.Pointer

namespace Trieste
set_option autoImplicit true

/-- A location that lies in its source as a whole, and the text there. -/
structure Location.Spans (l : Location) (text : List Char) : Prop where
  view : l.view.toList = text
  len : l.len = text.length
  offset : ∀ source, l.source = some source → source.offset ≤ l.pos

/-- A part of a location shows the same part of its text. -/
theorem Location.Spans.part {l : Location} {pos : Nat} (h : l.Spans text)
    (hle : pos + n ≤ text.length) :
    Location.view { source := l.source, pos := l.pos + pos, len := n } =
      .ofList ((text.drop pos).take n) := by
  cases l with
  | mk source start len =>
    have hview := h.view
    have hlen : len = text.length := h.len
    cases source with
    | none =>
      have hnil : text = [] := hview.symm.trans (by simp [Location.view])
      simp [Location.view, hnil]
    | some source =>
      have hoffset : source.offset ≤ start := h.offset source rfl
      have hstart : start + pos - source.offset = start - source.offset + pos := by omega
      simp only [Location.view, String.toList_ofList] at hview ⊢
      rw [hstart, ← hview, List.drop_take, List.take_take, List.drop_drop]
      congr 2
      omega

namespace Json

/-- A key with `~0` for `~` and `~1` for `/`. -/
def encodeKey (key : List Char) : List Char :=
  key.flatMap fun c => if c = '~' then ['~', '0'] else if c = '/' then ['~', '1'] else [c]

def encodePointer (keys : List String) : List Char :=
  keys.flatMap fun key => '/' :: encodeKey key.toList

/-- Some `~` has no `0` or `1` behind it. -/
def StrayTilde : List Char → Prop
  | [] => False
  | c :: rest => (c = '~' ∧ rest.head? ≠ some '0' ∧ rest.head? ≠ some '1') ∨ StrayTilde rest

/-- What the loop of the constructor of `Pointer` comes to, if it ends. -/
inductive PointerLoop (path : Location) : Nat → Option (List Location) → Prop
  | done : path.len ≤ pos → PointerLoop path pos (some [])
  | invalid : pos < path.len → nextKey path pos = none → PointerLoop path pos none
  | key : pos < path.len → nextKey path pos = some (key, pos') → PointerLoop path pos' keys →
      PointerLoop path pos (keys.map (key :: ·))

theorem nextKey_forward (h : nextKey path pos = some (key, pos')) : pos < pos' := by
  simp only [nextKey] at h
  split at h
  · split at h
    · obtain ⟨unescaped, -, heq⟩ := Option.map_eq_some_iff.1 h
      cases heq
      omega
    · cases h
      omega
  · cases h

theorem pointerLoop (path : Location) (h : path.len ≤ pos + fuel) :
    PointerLoop path pos (pointerKeys path fuel pos) := by
  induction fuel generalizing pos with
  | zero => exact .done h
  | succ fuel ih =>
    rw [pointerKeys]
    split
    · rename_i hpos
      cases hkey : nextKey path pos with
      | none => exact .invalid hpos hkey
      | some next =>
        obtain ⟨key, pos'⟩ := next
        have hforward := nextKey_forward hkey
        exact .key hpos hkey (ih (by omega))
    · exact .done (by omega)

theorem unescapeKey_cons (h : c ≠ '~') (rest : List Char) :
    unescapeKey (c :: rest) = (unescapeKey rest).map (c :: ·) := by
  rw [unescapeKey.eq_def]
  exact if_neg h

theorem unescapeKey_encodeKey (key : List Char) : unescapeKey (encodeKey key) = some key := by
  induction key with
  | nil => rfl
  | cons c key ih =>
    rw [encodeKey, List.flatMap_cons]
    change unescapeKey (_ ++ encodeKey key) = _
    by_cases htilde : c = '~'
    · simp [htilde, unescapeKey, ih]
    by_cases hslash : c = '/'
    · simp [hslash, unescapeKey, ih]
    rw [if_neg htilde, if_neg hslash, List.singleton_append, unescapeKey_cons htilde, ih]
    rfl

theorem slash_not_mem_encodeKey (key : List Char) : '/' ∉ encodeKey key := by
  intro h
  rw [encodeKey, List.mem_flatMap] at h
  obtain ⟨c, -, hc⟩ := h
  by_cases htilde : c = '~'
  · simp [htilde] at hc
  by_cases hslash : c = '/'
  · simp [hslash] at hc
  rw [if_neg htilde, if_neg hslash, List.mem_singleton] at hc
  exact hslash hc.symm

theorem unescapeKey_of_not_mem (h : '~' ∉ text) : unescapeKey text = some text := by
  induction text with
  | nil => rfl
  | cons c text ih =>
    rw [unescapeKey_cons (fun hc => h (hc ▸ .head _)), ih (fun hc => h (.tail _ hc))]
    rfl

theorem StrayTilde.cons_iff (h : c ≠ '~') : StrayTilde (c :: rest) ↔ StrayTilde rest := by
  simp [StrayTilde, h]

theorem StrayTilde.escape_iff (h : c = '0' ∨ c = '1') :
    StrayTilde ('~' :: c :: rest) ↔ StrayTilde rest := by
  rcases h with rfl | rfl <;> simp [StrayTilde]

theorem unescapeKey_eq_none_iff (text : List Char) :
    unescapeKey text = none ↔ StrayTilde text := by
  induction text using unescapeKey.induct with
  | case1 => simp [unescapeKey, StrayTilde]
  | case2 => simp [unescapeKey, StrayTilde]
  | case3 rest ih => simp [unescapeKey, StrayTilde.escape_iff, ih]
  | case4 rest _ ih => simp [unescapeKey, StrayTilde.escape_iff, ih]
  | case5 i rest h0 h1 => simp [unescapeKey, StrayTilde, h0, h1]
  | case6 c rest hc ih => simp [unescapeKey_cons hc, StrayTilde.cons_iff hc, ih]

/-- No escape reaches across the end of a key. -/
theorem StrayTilde.append_iff (hrest : rest.head?.all (· == '/') = true) :
    StrayTilde (text ++ rest) ↔ StrayTilde text ∨ StrayTilde rest := by
  have hhead : rest.head? ≠ some '0' ∧ rest.head? ≠ some '1' := by
    constructor
    · intro h
      simp [h] at hrest
    · intro h
      simp [h] at hrest
  induction text with
  | nil => simp [StrayTilde]
  | cons c text ih =>
    have hfirst : (c = '~' ∧ (text ++ rest).head? ≠ some '0' ∧ (text ++ rest).head? ≠ some '1') ↔
        (c = '~' ∧ text.head? ≠ some '0' ∧ text.head? ≠ some '1') := by
      cases text with
      | nil => simp [hhead]
      | cons d text => rfl
    exact (or_congr hfirst ih).trans or_assoc.symm

theorem nextKey_eq_none {path : Location} (h : path.Spans text)
    (hslash : (text.drop pos).head? ≠ some '/') : nextKey path pos = none := by
  rw [List.head?_drop, ← h.view] at hslash
  simp only [nextKey]
  rw [if_neg hslash]

theorem nextKey_view {path : Location} (h : path.Spans text) (hdrop : text.drop pos = '/' :: rest) :
    (nextKey path pos).map (fun next => (next.1.view, next.2)) =
      (unescapeKey (rest.takeWhile (· ≠ '/'))).map fun key =>
        (String.ofList key, pos + 1 + (rest.takeWhile (· ≠ '/')).length) := by
  have hslash : path.view.toList[pos]? = some '/' := by
    rw [h.view, ← List.head?_drop, hdrop]
    rfl
  have hrest : text.drop (pos + 1) = rest := by
    rw [← List.drop_drop, hdrop]
    rfl
  simp only [nextKey]
  rw [if_pos hslash, h.view, hrest]
  split
  · rw [Option.map_map]
    congr 1
    funext key
    simp [Location.view, Location.ofString]
  · rename_i htilde
    have hfront := List.takeWhile_prefix (l := rest) (· ≠ '/')
    have hlen := congrArg List.length hrest
    have hle := hfront.length_le
    rw [List.length_drop] at hlen
    have hslashes := congrArg List.length hdrop
    rw [List.length_drop, List.length_cons] at hslashes
    rw [unescapeKey_of_not_mem htilde, Option.map_some, Option.map_some,
      h.part (by omega), hrest, ← List.prefix_iff_eq_take.1 hfront]

theorem drop_behind {text : List Char} (hdrop : text.drop pos = '/' :: rest) :
    text.drop (pos + 1 + (rest.takeWhile (· ≠ '/')).length) = rest.dropWhile (· ≠ '/') := by
  have hrest := List.takeWhile_append_dropWhile (p := (· ≠ '/')) (l := rest)
  rw [← List.drop_drop, ← List.drop_drop, hdrop, List.drop_one, List.tail_cons]
  exact (congrArg (List.drop _) hrest.symm).trans List.drop_left

theorem pointerKeys_done {path : Location} (h : path.Spans text) (hdrop : text.drop pos = []) :
    pointerKeys path fuel pos = some [] := by
  have hle : ¬ pos < path.len := by
    rw [h.len]
    exact Nat.not_lt.2 (List.drop_eq_nil_iff.1 hdrop)
  cases fuel with
  | zero => rfl
  | succ fuel => rw [pointerKeys, if_neg hle]

theorem pointerKeys_slash {path : Location} (h : path.Spans text)
    (hdrop : text.drop pos = '/' :: rest) :
    (pointerKeys path (fuel + 1) pos).map (·.map Location.view) =
      (unescapeKey (rest.takeWhile (· ≠ '/'))).bind fun key =>
        ((pointerKeys path fuel (pos + 1 + (rest.takeWhile (· ≠ '/')).length)).map
          (·.map Location.view)).map (.ofList key :: ·) := by
  have hpos : pos < path.len := by
    rw [h.len]
    apply Nat.lt_of_not_le
    intro hle
    rw [List.drop_eq_nil_iff.2 hle] at hdrop
    cases hdrop
  have hview := nextKey_view h hdrop
  rw [pointerKeys, if_pos hpos]
  cases hkey : unescapeKey (rest.takeWhile (· ≠ '/')) with
  | none =>
    rw [hkey, Option.map_none, Option.map_eq_none_iff] at hview
    rw [hview]
    rfl
  | some key =>
    rw [hkey, Option.map_some, Option.map_eq_some_iff] at hview
    obtain ⟨next, hnext, heq⟩ := hview
    obtain ⟨hfirst, hsecond⟩ := Prod.mk.inj heq
    rw [hnext, Option.bind_some, Option.bind_some]
    change ((pointerKeys path fuel next.2).map (next.1 :: ·)).map _ = _
    rw [hsecond, Option.map_map, Option.map_map]
    congr 1
    funext keys
    rw [Function.comp_apply, Function.comp_apply, List.map_cons, hfirst]

theorem takeWhile_encode (key : List Char) (keys : List String) :
    (encodeKey key ++ encodePointer keys).takeWhile (· ≠ '/') = encodeKey key := by
  have hkey : ∀ c ∈ encodeKey key, decide (c ≠ '/') = true := fun c hc =>
    decide_eq_true fun h => slash_not_mem_encodeKey key (h ▸ hc)
  rw [List.takeWhile_append_of_pos hkey]
  cases keys with
  | nil => simp [encodePointer]
  | cons key' keys => simp [encodePointer]

theorem pointerKeys_encode {path : Location} (h : path.Spans text)
    (hdrop : text.drop pos = encodePointer keys) (hfuel : (encodePointer keys).length ≤ fuel) :
    (pointerKeys path fuel pos).map (·.map Location.view) = some keys := by
  induction keys generalizing pos fuel with
  | nil => rw [pointerKeys_done h hdrop]; rfl
  | cons key keys ih =>
    change text.drop pos = '/' :: (encodeKey key.toList ++ encodePointer keys) at hdrop
    have hlen : (encodePointer (key :: keys)).length =
        (encodeKey key.toList).length + (encodePointer keys).length + 1 := by
      simp [encodePointer]
    cases fuel with
    | zero => omega
    | succ fuel =>
      have hbehind := drop_behind hdrop
      have hwhile := List.takeWhile_append_dropWhile (p := (· ≠ '/'))
        (l := encodeKey key.toList ++ encodePointer keys)
      rw [takeWhile_encode] at hwhile hbehind
      rw [pointerKeys_slash h hdrop, takeWhile_encode, unescapeKey_encodeKey, Option.bind_some,
        ih (hbehind.trans (List.append_cancel_left hwhile)) (by omega), Option.map_some,
        String.ofList_toList]

theorem head_dropWhile (rest : List Char) :
    (rest.dropWhile (· ≠ '/')).head?.all (· == '/') = true := by
  cases h : rest.dropWhile (· ≠ '/') with
  | nil => rfl
  | cons c rest' =>
    have hc := List.head?_dropWhile_not (· ≠ '/') rest
    rw [h] at hc
    simpa using hc

theorem pointerKeys_eq_none_iff {path : Location} (h : path.Spans text)
    (hdrop : text.drop pos = rest) (hhead : rest.head?.all (· == '/') = true)
    (hfuel : rest.length ≤ fuel) : pointerKeys path fuel pos = none ↔ StrayTilde rest := by
  induction fuel generalizing pos rest with
  | zero =>
    have hnil := List.length_eq_zero_iff.1 (Nat.le_zero.1 hfuel)
    simp [hnil, pointerKeys, StrayTilde]
  | succ fuel ih =>
    cases rest with
    | nil => simp [pointerKeys_done h hdrop, StrayTilde]
    | cons c rest =>
      obtain rfl : c = '/' := by simpa using hhead
      have hkeys : (pointerKeys path (fuel + 1) pos).map (·.map Location.view) = _ :=
        pointerKeys_slash h hdrop
      have hrest := ih (drop_behind hdrop) (head_dropWhile rest)
        (Nat.le_trans (List.dropWhile_suffix _).length_le (Nat.le_of_succ_le_succ hfuel))
      have hsplit : StrayTilde (rest.takeWhile (· ≠ '/') ++ _) ↔ _ :=
        StrayTilde.append_iff (head_dropWhile rest)
      rw [← hrest, ← unescapeKey_eq_none_iff (rest.takeWhile _),
        List.takeWhile_append_dropWhile] at hsplit
      rw [StrayTilde.cons_iff (by decide), hsplit,
        ← Option.map_eq_none_iff (f := List.map Location.view), hkeys]
      cases unescapeKey (rest.takeWhile (· ≠ '/')) with
      | none => simp
      | some key => simp

/-- The encoding of a list of keys is parsed into these keys, and what is refused is what no list
of keys is encoded to. -/
theorem pointer_text (path : Location) (text : List Char) (h : path.Spans text) :
    PointerLoop path 0 (pointer path) ∧
    (∀ keys, text = encodePointer keys →
      (pointer path).map (·.map Location.view) = some keys) ∧
    (text ≠ [] → (pointer path = none ↔ text.head? ≠ some '/' ∨ StrayTilde text)) := by
  have hlen := h.len
  refine ⟨pointerLoop path (Nat.le_of_eq (Nat.zero_add _).symm), ?_, ?_⟩
  · intro keys hkeys
    exact pointerKeys_encode h hkeys (Nat.le_of_eq (by rw [hlen, hkeys]))
  · intro hne
    by_cases hhead : text.head? = some '/'
    · have hiff : pointerKeys path path.len 0 = none ↔ _ := pointerKeys_eq_none_iff h rfl
        (by rw [List.drop_zero, hhead]; rfl) (Nat.le_of_eq hlen.symm)
      rw [pointer, hiff, List.drop_zero]
      simp [hhead]
    · have hpos : 0 < path.len := by
        rw [hlen]
        exact List.length_pos_iff.2 hne
      obtain ⟨fuel, hfuel⟩ := Nat.exists_eq_succ_of_ne_zero (Nat.ne_of_gt hpos)
      rw [pointer, hfuel, pointerKeys, if_pos hpos, nextKey_eq_none h (by rwa [List.drop_zero])]
      simp [hhead]

theorem spans_ofString (s : String) : (Location.ofString s).Spans s.toList := by
  constructor
  · simp only [Location.view, Location.ofString, Nat.sub_self, List.drop_zero, String.toList_ofList]
    exact List.take_of_length_le (Nat.le_of_eq String.length_toList)
  · exact String.length_toList.symm
  · intro source h
    cases h
    exact Nat.le_refl _

/-- The keys `~1` and the empty string. -/
theorem pointer_text_escaped :
    (pointer (.ofString "/~01/")).map (·.map Location.view) = some ["~1", ""] :=
  (pointer_text (.ofString "/~01/") _ (spans_ofString _)).2.1 ["~1", ""] (by decide)

end Json

end Trieste
