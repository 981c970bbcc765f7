import Trieste.Yaml.LineNodes

namespace Trieste.Yaml
set_option autoImplicit true
open Utf8

/-- `std::string::npos` -/
def npos : Nat := 2 ^ 64 - 1

/-- `Location::view`, which throws where the position is behind the source. -/
def view? (text : Text) (l : Location) : Option Text :=
  if l.pos ≤ text.length then some (viewOf text l) else none

section Model
variable (text : Text) (minIndent : Nat)

/-- `trim_start`, on numbers of 64 bits. -/
def trimStart? (l : Location) : Option Location :=
  (view? text l).map fun view =>
    match findFirstNotOf [0x20] view 0 with
    | none => { l with len := 0 }
    | some indent =>
      let start :=
        if minIndent ≤ indent then (findFirstNotOf [0x20, tab] view indent).getD npos else indent
      { l with pos := (l.pos + start) % 2 ^ 64, len := (l.len + (2 ^ 64 - start)) % 2 ^ 64 }

/-- `trim_end` -/
def trimEnd? (l : Location) : Option Location := (view? text l).map fun _ => trimEnd text l

def trim? (l : Location) : Option Location := (trimStart? text minIndent l).bind (trimEnd? text)

def middleLine? (l : Location) : Option (Bool × Location) :=
  (trim? text minIndent l).map fun line => (decide (line.len = 0 ∧ column text line.pos = 0), line)

def restLines? : List Location → Option (List (Bool × Location))
  | [] => some []
  | [last] => (trimStart? text minIndent last).map fun line => [(false, line)]
  | line :: next :: rest =>
    (middleLine? text minIndent line).bind fun line =>
      (restLines? (next :: rest)).map (line :: ·)

/-- The locations of the lines that `to_lines` returns. -/
def lineNodes? (l : Location) : Option (List (Bool × Location)) :=
  if l.len = 0 then some []
  else
    let inner := ((viewOf text l).drop 1).dropLast
    match placeLines l.source (l.pos + 1) (inner.splitOn newline) with
    | [] => some []
    | [line] => some [(false, line)]
    | first :: next :: rest =>
      (trimEnd? text first).bind fun first =>
        (restLines? text minIndent (next :: rest)).map fun rest =>
          dropFirst ((false, first) :: rest)

end Model

def Within (l l' : Location) : Prop := l'.pos ≤ l.pos ∧ l.pos + l.len ≤ l'.pos + l'.len

/-- What the trimming functions return lies within what they are given. -/
structure Contained (text : Text) (minIndent : Nat) (l : Location) : Prop where
  start : ∃ l', trimStart? text minIndent l = some l' ∧ Within l' l
  stop : ∃ l', trimEnd? text l = some l' ∧ Within l' l
  both : ∃ l', trim? text minIndent l = some l' ∧ Within l' l

def Wraps (minIndent : Nat) (line : Text) : Prop :=
  ∃ spaces blanks, line = spaces ++ tab :: blanks ∧ (∀ c ∈ spaces, c = 0x20) ∧
    (∀ c ∈ blanks, isBlankChar c = true) ∧ minIndent ≤ spaces.length

/-- A scalar with its quotes. -/
structure QuotedToken (text : Text) (l : Location) : Prop where
  inText : l.pos + l.len ≤ text.length
  quotes : ∃ q ∈ [quote, 0x27], ∃ inner, viewOf text l = q :: (inner ++ [q])

/-- The lines lie between the quotes, one behind the other. -/
structure LinesInside (l : Location) (nodes : List (Bool × Location)) : Prop where
  between : ∀ node ∈ nodes, l.pos < node.2.pos ∧ node.2.pos + node.2.len < l.pos + l.len
  ordered : nodes.Pairwise fun a b => a.2.pos + a.2.len ≤ b.2.pos

section Line
variable {text : Text} {minIndent : Nat} {l : Location}

theorem length_viewOf (h : l.pos + l.len ≤ text.length) : (viewOf text l).length = l.len := by
  rw [viewOf, List.length_take, List.length_drop]
  omega

theorem wraps_iff (line : Text) : Wraps minIndent line ↔ line.dropWhile (· = 0x20) ≠ [] ∧
    minIndent ≤ (indentOf line).length ∧ line.dropWhile isBlankChar = [] := by
  constructor
  · rintro ⟨spaces, blanks, rfl, hspaces, hblanks, hle⟩
    have hall : ∀ c ∈ spaces, decide (c = 0x20) = true := fun c hc => decide_eq_true (hspaces c hc)
    have hdrop : (spaces ++ tab :: blanks).dropWhile (· = 0x20) = tab :: blanks := by
      rw [List.dropWhile_append_of_pos hall]
      rfl
    have hindent : indentOf (spaces ++ tab :: blanks) = spaces := by
      rw [indentOf, List.takeWhile_append_of_pos hall]
      exact List.append_nil spaces
    rw [hdrop, hindent]
    refine ⟨List.cons_ne_nil _ _, hle, List.dropWhile_eq_nil_iff.2 fun c hc => ?_⟩
    rcases List.mem_append.1 hc with hc | hc
    · rw [hspaces c hc]
      rfl
    · rcases List.mem_cons.1 hc with rfl | hc
      · rfl
      · exact hblanks c hc
  · rintro ⟨hne, hle, hblank⟩
    have hall := List.dropWhile_eq_nil_iff.1 hblank
    obtain ⟨c, blanks, hc⟩ := List.exists_cons_of_ne_nil hne
    have hsplit := indent_split line
    rw [hc] at hsplit
    rw [← hsplit] at hall
    have hnot : c ≠ 0x20 := of_decide_eq_false (head_dropWhile line c (by rw [hc]; rfl))
    have htab : c = tab := by
      have hcblank := hall c (List.mem_append_right _ (.head _))
      simp only [isBlankChar, Bool.or_eq_true, decide_eq_true_eq] at hcblank
      exact hcblank.resolve_left hnot
    subst htab
    exact ⟨indentOf line, blanks, hsplit.symm, fun c => mem_indentOf,
      fun c hc => hall c (List.mem_append_right _ (.tail _ hc)), hle⟩

theorem findLastNotOf_lt {set view : Text} (h : findLastNotOf set view = some stop) :
    stop < view.length := by
  obtain ⟨i, hi, rfl⟩ := Option.map_eq_some_iff.1 h
  obtain ⟨hlt, -⟩ := List.findIdx?_eq_some_iff_getElem.1 hi
  rw [List.length_reverse] at hlt
  omega

theorem trimEnd_within (h : l.pos + l.len ≤ text.length) : Within (trimEnd text l) l := by
  have hlen := length_viewOf h
  rw [trimEnd]
  dsimp only
  split
  · exact ⟨Nat.le_refl _, Nat.le_add_right _ _⟩
  · next stop hstop =>
    split
    · exact ⟨Nat.le_refl _, Nat.le_refl _⟩
    · next hne =>
      refine ⟨Nat.le_refl _, Nat.add_le_add_left ?_ _⟩
      have hlt := findLastNotOf_lt hstop
      dsimp only
      split
      · next hescaped =>
        obtain ⟨hlt', -⟩ := List.getElem?_eq_some_iff.1 hescaped.2
        exact hlen ▸ hlt'
      · exact hlen ▸ hlt

theorem view?_eq (h : l.pos + l.len ≤ text.length) : view? text l = some (viewOf text l) :=
  if_pos (Nat.le_trans (Nat.le_add_right _ _) h)

theorem trimEnd?_eq (h : l.pos + l.len ≤ text.length) :
    trimEnd? text l = some (trimEnd text l) := by
  rw [trimEnd?, view?_eq h]
  rfl

/-- What `trim_start` skips. -/
def startOf (minIndent : Nat) (view : Text) : Nat :=
  if minIndent ≤ (indentOf view).length then (view.takeWhile isBlankChar).length
  else (indentOf view).length

theorem startOf_le (minIndent : Nat) (view : Text) : startOf minIndent view ≤ view.length := by
  unfold startOf
  split
  · exact (List.takeWhile_prefix _).length_le
  · exact (List.takeWhile_prefix _).length_le

theorem trimStart?_spaces (h : l.pos + l.len ≤ text.length)
    (hnil : (viewOf text l).dropWhile (· = 0x20) = []) :
    trimStart? text minIndent l = some { l with len := 0 } := by
  rw [trimStart?, view?_eq h, Option.map_some, find_indent, if_pos hnil]

theorem trimStart?_wraps (h : l.pos + l.len ≤ text.length)
    (hwraps : Wraps minIndent (viewOf text l)) : trimStart? text minIndent l =
      some { l with pos := (l.pos + npos) % 2 ^ 64, len := (l.len + 1) % 2 ^ 64 } := by
  obtain ⟨hne, hle, hblank⟩ := (wraps_iff _).1 hwraps
  rw [trimStart?, view?_eq h, Option.map_some, find_indent, if_neg hne]
  dsimp only
  rw [if_pos hle, find_blanks, if_pos hblank]
  rfl

theorem trimStart?_text (hsize : text.length < npos) (h : l.pos + l.len ≤ text.length)
    (hne : (viewOf text l).dropWhile (· = 0x20) ≠ [])
    (hwraps : ¬ Wraps minIndent (viewOf text l)) : trimStart? text minIndent l =
      some { l with pos := l.pos + startOf minIndent (viewOf text l)
                    len := l.len - startOf minIndent (viewOf text l) } := by
  have hlen := length_viewOf h
  have hle := startOf_le minIndent (viewOf text l)
  rw [npos] at hsize
  have hmod : ∀ start ≤ l.len, (l.pos + start) % 2 ^ 64 = l.pos + start ∧
      (l.len + (2 ^ 64 - start)) % 2 ^ 64 = l.len - start := by
    intro start hstart
    constructor
    · exact Nat.mod_eq_of_lt (by omega)
    · have hsum : l.len + (2 ^ 64 - start) = l.len - start + 2 ^ 64 := by omega
      rw [hsum, Nat.add_mod_right]
      exact Nat.mod_eq_of_lt (by omega)
  obtain ⟨hpos, hlen'⟩ := hmod _ (hlen ▸ hle)
  have hstart : (if minIndent ≤ (indentOf (viewOf text l)).length then
      (findFirstNotOf [0x20, tab] (viewOf text l) (indentOf (viewOf text l)).length).getD npos
      else (indentOf (viewOf text l)).length) = startOf minIndent (viewOf text l) := by
    rw [startOf]
    split
    · next hindent =>
      have hblank : (viewOf text l).dropWhile isBlankChar ≠ [] :=
        fun hblank => hwraps ((wraps_iff _).2 ⟨hne, hindent, hblank⟩)
      rw [find_blanks, if_neg hblank]
      rfl
    · rfl
  rw [trimStart?, view?_eq h, Option.map_some, find_indent, if_neg hne]
  dsimp only
  rw [hstart, hpos, hlen']

theorem trimStart?_contained (hsize : text.length < npos) (h : l.pos + l.len ≤ text.length)
    (hwraps : ¬ Wraps minIndent (viewOf text l)) :
    ∃ l', trimStart? text minIndent l = some l' ∧ Within l' l := by
  by_cases hne : (viewOf text l).dropWhile (· = 0x20) = []
  · exact ⟨_, trimStart?_spaces h hne, Nat.le_refl _, Nat.le_add_right _ _⟩
  · have hle := startOf_le minIndent (viewOf text l)
    rw [length_viewOf h] at hle
    refine ⟨_, trimStart?_text hsize h hne hwraps, Nat.le_add_right _ _, ?_⟩
    dsimp only
    omega

theorem Within.inText (hwithin : Within l' l) (h : l.pos + l.len ≤ text.length) :
    l'.pos + l'.len ≤ text.length := Nat.le_trans hwithin.2 h

theorem Within.trans {l l' l'' : Location} (h : Within l l') (h' : Within l' l'') : Within l l'' :=
  ⟨Nat.le_trans h'.1 h.1, Nat.le_trans h.2 h'.2⟩

theorem contained_iff (hsize : text.length < npos) (h : l.pos + l.len ≤ text.length) :
    Contained text minIndent l ↔ ¬ Wraps minIndent (viewOf text l) := by
  constructor
  · rintro ⟨⟨l', hstart, hwithin⟩, -, -⟩ hwraps
    rw [trimStart?_wraps h hwraps] at hstart
    cases hstart
    obtain ⟨hpos, hend⟩ := hwithin
    dsimp only [npos] at hpos hend hsize
    have hlen := length_viewOf h
    obtain ⟨spaces, blanks, hview, -⟩ := hwraps
    rw [hview, List.length_append, List.length_cons] at hlen
    omega
  · intro hwraps
    obtain ⟨l', hstart, hwithin⟩ := trimStart?_contained hsize h hwraps
    refine ⟨⟨l', hstart, hwithin⟩, ⟨_, trimEnd?_eq h, trimEnd_within h⟩, ?_⟩
    have h' := hwithin.inText h
    refine ⟨trimEnd text l', ?_, (trimEnd_within h').trans hwithin⟩
    rw [trim?, hstart, Option.bind_some, trimEnd?_eq h']

theorem findFirstNotOf_lt {set view : Text} (h : findFirstNotOf set view start = some i) :
    i < view.length := by
  obtain ⟨k, hk, rfl⟩ := Option.map_eq_some_iff.1 h
  obtain ⟨hlt, -⟩ := List.findIdx?_eq_some_iff_getElem.1 hk
  rw [List.length_drop] at hlt
  omega

theorem trimStart?_eq (minIndent : Nat) (hsize : text.length < npos)
    (h : l.pos + l.len ≤ text.length) (hpos : 0 < l.pos) :
    trimStart? text minIndent l = some (trimStart text minIndent l) := by
  have hlen := length_viewOf h
  have hadd : ∀ start < (viewOf text l).length, (l.pos + start) % 2 ^ 64 = l.pos + start ∧
      (l.len + (2 ^ 64 - start)) % 2 ^ 64 = l.len - start := by
    intro start hstart
    rw [npos] at hsize
    have hsum : l.len + (2 ^ 64 - start) = l.len - start + 2 ^ 64 := by omega
    rw [hsum, Nat.add_mod_right]
    exact ⟨Nat.mod_eq_of_lt (by omega), Nat.mod_eq_of_lt (by omega)⟩
  have hnpos : (l.pos + npos) % 2 ^ 64 = l.pos - 1 ∧
      (l.len + (2 ^ 64 - npos)) % 2 ^ 64 = l.len + 1 := by
    rw [npos] at hsize ⊢
    have hsum : l.pos + (2 ^ 64 - 1) = l.pos - 1 + 2 ^ 64 := by omega
    rw [hsum, Nat.add_mod_right]
    exact ⟨Nat.mod_eq_of_lt (by omega), Nat.mod_eq_of_lt (by omega)⟩
  rw [trimStart?, trimStart, view?_eq h, Option.map_some]
  dsimp only
  cases hindent : findFirstNotOf [0x20] (viewOf text l) 0 with
  | none => rfl
  | some indent =>
    dsimp only
    by_cases hle : minIndent ≤ indent
    · rw [if_pos hle, if_pos hle]
      cases hstart : findFirstNotOf [0x20, tab] (viewOf text l) indent with
      | none =>
        rw [Option.getD_none, hnpos.1, hnpos.2]
      | some start =>
        obtain ⟨hp, hl⟩ := hadd start (findFirstNotOf_lt hstart)
        rw [Option.getD_some, hp, hl]
    · obtain ⟨hp, hl⟩ := hadd indent (findFirstNotOf_lt hindent)
      rw [if_neg hle, if_neg hle, hp, hl]

/-- At most the character in front of the line is taken with it. -/
structure Near (line l : Location) : Prop where
  pos : l.pos ≤ line.pos + 1
  stop : line.pos + line.len ≤ l.pos + l.len

theorem trimStart_near (minIndent : Nat) (h : l.pos + l.len ≤ text.length) (hpos : 0 < l.pos) :
    Near (trimStart text minIndent l) l := by
  have hlen := length_viewOf h
  rw [trimStart]
  dsimp only
  split
  · exact ⟨Nat.le_succ _, Nat.le_add_right _ _⟩
  · next indent hindent =>
    split
    · constructor
      · dsimp only
        omega
      · dsimp only
        omega
    · next start hstart =>
      have hlt : start < (viewOf text l).length := by
        split at hstart
        · exact findFirstNotOf_lt hstart
        · cases hstart
          exact findFirstNotOf_lt hindent
      refine ⟨Nat.le_succ_of_le (Nat.le_add_right _ _), ?_⟩
      dsimp only
      omega

theorem trim?_eq (minIndent : Nat) (hsize : text.length < npos)
    (h : l.pos + l.len ≤ text.length) (hpos : 0 < l.pos) :
    trim? text minIndent l = some (trim text minIndent l) := by
  have hnear := trimStart_near minIndent h hpos
  rw [trim?, trimStart?_eq minIndent hsize h hpos, Option.bind_some,
    trimEnd?_eq (Nat.le_trans hnear.stop h), trim]

theorem trim_near (minIndent : Nat) (h : l.pos + l.len ≤ text.length) (hpos : 0 < l.pos) :
    Near (trim text minIndent l) l := by
  have hnear := trimStart_near minIndent h hpos
  have hwithin := trimEnd_within (Nat.le_trans hnear.stop h)
  exact ⟨Nat.le_trans hnear.pos (Nat.succ_le_succ hwithin.1), Nat.le_trans hwithin.2 hnear.stop⟩

end Line

section Lines
variable {text : Text} {minIndent : Nat} {l : Location}

/-- The nodes lie from one position to another, one behind the other. -/
structure Placed (start stop : Nat) (nodes : List (Bool × Location)) : Prop where
  between : ∀ node ∈ nodes, start ≤ node.2.pos ∧ node.2.pos + node.2.len ≤ stop
  ordered : nodes.Pairwise fun a b => a.2.pos + a.2.len ≤ b.2.pos

theorem Placed.single (hstart : start ≤ node.2.pos) (hstop : node.2.pos + node.2.len ≤ stop) :
    Placed start stop [node] where
  between := List.forall_mem_singleton.2 ⟨hstart, hstop⟩
  ordered := List.pairwise_singleton _ _

theorem Placed.cons (h : Placed mid stop nodes) (hstart : start ≤ node.2.pos)
    (hmid : node.2.pos + node.2.len ≤ mid) (hstop : mid ≤ stop) :
    Placed start stop (node :: nodes) where
  between := by
    refine List.forall_mem_cons.2 ⟨⟨hstart, Nat.le_trans hmid hstop⟩, fun n hn => ?_⟩
    obtain ⟨hle, hle'⟩ := h.between n hn
    exact ⟨by omega, hle'⟩
  ordered := List.pairwise_cons.2
    ⟨fun n hn => Nat.le_trans hmid (h.between n hn).1, h.ordered⟩

theorem Placed.sublist (h : Placed start stop nodes) (hsub : nodes'.Sublist nodes) :
    Placed start stop nodes' :=
  ⟨fun node hn => h.between node (hsub.subset hn), h.ordered.sublist hsub⟩

theorem dropFirst_sublist (lines : List (Bool × Location)) : (dropFirst lines).Sublist lines := by
  unfold dropFirst
  split
  · split
    · exact List.sublist_cons_self _ _
    · exact .refl _
  · exact .refl _

theorem restLines?_placed (hsize : text.length < npos) (source : Option SourceDef)
    {lines : List Text} (hpos : 0 < pos) (hin : pos + (joinLines lines).length ≤ text.length) :
    ∃ nodes, restLines? text minIndent (placeLines source pos lines) = some nodes ∧
      nodes = restLines text minIndent (placeLines source pos lines) ∧
      Placed (pos - 1) (pos + (joinLines lines).length) nodes := by
  induction lines generalizing pos with
  | nil => exact ⟨[], rfl, rfl, List.forall_mem_nil _, List.Pairwise.nil⟩
  | cons line lines ih =>
    cases lines with
    | nil =>
      have hjoin : joinLines [line] = line := List.append_nil line
      rw [hjoin] at hin ⊢
      have hstart := trimStart?_eq (l := ⟨source, pos, line.length⟩) minIndent hsize hin hpos
      have hnear := trimStart_near (l := ⟨source, pos, line.length⟩) minIndent hin hpos
      refine ⟨[(false, trimStart text minIndent ⟨source, pos, line.length⟩)], ?_, rfl,
        .single ?_ hnear.stop⟩
      · rw [placeLines, placeLines, restLines?, hstart]
        rfl
      · exact Nat.sub_le_iff_le_add.2 hnear.pos
    | cons next rest =>
      rw [joinLines_cons, List.length_append, List.length_cons] at hin ⊢
      have hin' : pos + line.length + 1 + (joinLines (next :: rest)).length ≤ text.length := by
        omega
      have hline : pos + line.length ≤ text.length := by omega
      obtain ⟨nodes, hnodes, heq, hplaced⟩ := ih (Nat.succ_pos _) hin'
      have htrim := trim?_eq (l := ⟨source, pos, line.length⟩) minIndent hsize hline hpos
      have hnear := trim_near (l := ⟨source, pos, line.length⟩) minIndent hline hpos
      have hstop : pos + line.length + 1 + (joinLines (next :: rest)).length =
          pos + (line.length + ((joinLines (next :: rest)).length + 1)) := by omega
      have hplaced' : Placed (pos + line.length)
          (pos + (line.length + ((joinLines (next :: rest)).length + 1))) nodes := hstop ▸ hplaced
      refine ⟨middleLine text minIndent ⟨source, pos, line.length⟩ :: nodes, ?_, ?_,
        hplaced'.cons ?_ hnear.stop (by omega)⟩
      · change (middleLine? text minIndent ⟨source, pos, line.length⟩).bind (fun node =>
          (restLines? text minIndent (placeLines source (pos + line.length + 1)
            (next :: rest))).map (node :: ·)) = _
        rw [middleLine?, htrim, hnodes]
        rfl
      · rw [heq]
        rfl
      · exact Nat.sub_le_iff_le_add.2 hnear.pos

theorem lineNodes?_placed (hsize : text.length < npos) (minIndent : Nat)
    (htoken : QuotedToken text l) :
    ∃ nodes, lineNodes? text minIndent l = some nodes ∧ LinesInside l nodes ∧
      (toLines text minIndent l = nodes.map (checkLine text minIndent) ∨
        ∃ line, nodes = [(false, line)] ∧
          toLines text minIndent l = [.block (viewOf text line)]) := by
  obtain ⟨hin, q, -, inner, hview⟩ := htoken
  have hlen := length_viewOf hin
  rw [hview, List.length_cons, List.length_append, List.length_singleton] at hlen
  have hinner : ((viewOf text l).drop 1).dropLast = inner := by
    rw [hview, List.drop_succ_cons, List.drop_zero, List.dropLast_concat]
  have hjoin : joinLines (inner.splitOn newline) = inner := List.intercalate_splitOn newline
  have hlines : inner.splitOn newline ≠ [] := List.splitOn_ne_nil _ _
  rw [lineNodes?, toLines, if_neg (by omega), if_neg (by omega), hinner]
  dsimp only
  generalize inner.splitOn newline = lines at hjoin hlines
  cases lines with
  | nil => exact absurd rfl hlines
  | cons first rest =>
    cases rest with
    | nil =>
      have hfirst : first = inner := (List.append_nil first).symm.trans hjoin
      refine ⟨[(false, ⟨l.source, l.pos + 1, first.length⟩)], rfl,
        ⟨List.forall_mem_singleton.2 ⟨Nat.lt_succ_self _, ?_⟩, List.pairwise_singleton _ _⟩,
        .inr ⟨_, rfl, rfl⟩⟩
      rw [hfirst]
      dsimp only
      omega
    | cons next rest =>
      rw [joinLines_cons] at hjoin
      have hsum := congrArg List.length hjoin
      rw [List.length_append, List.length_cons] at hsum
      have hfirst : l.pos + 1 + first.length ≤ text.length := by omega
      have hrest : l.pos + 1 + first.length + 1 + (joinLines (next :: rest)).length ≤
          text.length := by omega
      obtain ⟨nodes, hnodes, heq, hplaced⟩ :=
        restLines?_placed hsize l.source (Nat.succ_pos _) hrest
      have hwithin := trimEnd_within (l := ⟨l.source, l.pos + 1, first.length⟩) hfirst
      have hplaced' : Placed (l.pos + 1)
          (l.pos + 1 + first.length + 1 + (joinLines (next :: rest)).length)
          ((false, trimEnd text ⟨l.source, l.pos + 1, first.length⟩) :: nodes) :=
        hplaced.cons hwithin.1 hwithin.2 (by omega)
      have hall := hplaced'.sublist (dropFirst_sublist _)
      refine ⟨dropFirst ((false, trimEnd text ⟨l.source, l.pos + 1, first.length⟩) :: nodes), ?_,
        ⟨fun node hn => ?_, hall.ordered⟩, .inl ?_⟩
      · change (trimEnd? text ⟨l.source, l.pos + 1, first.length⟩).bind (fun line =>
          (restLines? text minIndent (placeLines l.source (l.pos + 1 + first.length + 1)
            (next :: rest))).map fun rest => dropFirst ((false, line) :: rest)) = _
        rw [trimEnd?_eq hfirst, hnodes]
        rfl
      · obtain ⟨hle, hle'⟩ := hall.between node hn
        omega
      · rw [heq]
        rfl

/-- Which lines contain what is left of them, and that the lines of a scalar lie between its quotes,
one behind the other. -/
theorem trims_contained_iff (text : Text) (hsize : text.length < npos) (minIndent : Nat) :
    (∀ l, l.pos + l.len ≤ text.length →
      (Contained text minIndent l ↔ ¬ Wraps minIndent (viewOf text l))) ∧
    ∀ l, QuotedToken text l →
      ∃ nodes, lineNodes? text minIndent l = some nodes ∧ LinesInside l nodes := by
  refine ⟨fun l h => contained_iff hsize h, fun l htoken => ?_⟩
  obtain ⟨nodes, hnodes, hinside, -⟩ := lineNodes?_placed hsize minIndent htoken
  exact ⟨nodes, hnodes, hinside⟩

/-- A scalar on three lines, of which the last two are indented, and the location of its middle
line. -/
def indentedLines : Text :=
  [quote, 0x61, newline, 0x20, 0x20, 0x62, tab, newline, 0x20, 0x20, 0x63, quote]

theorem trims_contained_indented :
    Contained indentedLines 2 { pos := 3, len := 4 } ∧
      ∃ nodes, lineNodes? indentedLines 2 { len := 12 } = some nodes ∧
        LinesInside { len := 12 } nodes := by
  obtain ⟨hcontained, hlines⟩ := trims_contained_iff indentedLines (by decide) 2
  have hwraps : ¬ Wraps 2 (viewOf indentedLines { pos := 3, len := 4 }) := by
    rw [wraps_iff]
    decide
  exact ⟨(hcontained _ (by decide)).2 hwraps,
    hlines _ ⟨by decide, quote, .head _, (indentedLines.drop 1).dropLast, by decide⟩⟩

end Lines

/-- The last line of a scalar, a tab, is trimmed to the line break before it and the tab. -/
theorem tab_line_wraps :
    QuotedToken [quote, 0x61, newline, tab, quote] { len := 5 } ∧
      (placeLines none 1 ([0x61, newline, tab].splitOn newline)).getLast? =
        some { pos := 3, len := 1 } ∧
      trimStart? [quote, 0x61, newline, tab, quote] 0 { pos := 3, len := 1 } =
        some { pos := 2, len := 2 } ∧
      ¬ Contained [quote, 0x61, newline, tab, quote] 0 { pos := 3, len := 1 } := by
  have hstart : trimStart? [quote, 0x61, newline, tab, quote] 0 { pos := 3, len := 1 } =
      some { pos := 2, len := 2 } := by decide
  refine ⟨⟨Nat.le_refl 5, quote, .head _, [0x61, newline, tab], rfl⟩, by decide, hstart, ?_⟩
  rintro ⟨⟨l', hl', hwithin⟩, -, -⟩
  rw [hstart] at hl'
  cases hl'
  exact absurd hwithin.1 (by decide)

end Trieste.Yaml
