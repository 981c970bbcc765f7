import Trieste.Excerpt
import Trieste.Library.Transition

namespace Trieste.Excerpt
set_option autoImplicit true
open Library

theorem substr_isSome : (substr text pos count).isSome ↔ pos.toNat ≤ text.length := by
  rw [substr]
  split
  · rename_i h
    exact ⟨fun _ => h, fun _ => rfl⟩
  · rename_i h
    exact ⟨fun hs => absurd hs Bool.false_ne_true, fun hp => absurd hp h⟩

theorem substr_some (h : pos.toNat ≤ text.length) (count : UInt64) :
    ∃ part, substr text pos count = some part :=
  Option.isSome_iff_exists.1 (substr_isSome.2 h)

theorem substr_zero (text : Bytes) (count : UInt64) : ∃ part, substr text 0 count = some part :=
  substr_some (Nat.zero_le _) count

namespace SourceDef
variable {s : SourceDef}

theorem length_toNat (s : SourceDef) : s.contents.length.toUInt64.toNat = s.contents.length :=
  UInt64.toNat_ofNat_of_lt' s.text.2

theorem lines_lt (h : x ∈ s.lines) : x.toNat < s.contents.length := by
  obtain ⟨n, hn, rfl⟩ := List.mem_map.1 h
  have hlt := List.lt_add_of_mem_findIdxs n hn
  rw [Nat.toUInt64, UInt64.toNat_ofNat_of_lt' (Nat.lt_trans hlt s.text.2)]
  exact hlt

theorem lines_succ (h : x ∈ s.lines) : (x + 1).toNat = x.toNat + 1 := by
  have hlt := Nat.lt_of_le_of_lt (lines_lt h) s.text.2
  rw [UInt64.toNat_add, UInt64.toNat_one]
  exact Nat.mod_eq_of_lt hlt

def lineStart (s : SourceDef) : Nat → Option UInt64
  | 0 => some 0
  | line + 1 => s.lines[line]?.map (· + 1)

theorem lineStart_some (h : line ≤ s.lines.length) :
    ∃ start, s.lineStart line = some start ∧ start.toNat ≤ s.contents.length := by
  cases line with
  | zero => exact ⟨0, rfl, Nat.zero_le _⟩
  | succ line =>
    have hm : s.lines[line] ∈ s.lines := List.getElem_mem h
    refine ⟨s.lines[line] + 1, ?_, ?_⟩
    · rw [lineStart, List.getElem?_eq_getElem h]
      rfl
    · rw [lines_succ hm]
      exact lines_lt hm

theorem linepos_some (h : line ≤ s.lines.length) : ∃ start len,
    s.lineStart line = some start ∧ s.linepos line = some (start, len) ∧
      start.toNat ≤ s.contents.length ∧ (start + len).toNat ≤ s.contents.length := by
  obtain ⟨start, hs, hle⟩ := lineStart_some h
  refine ⟨start, (s.lines[line]?).getD s.contents.length.toUInt64 - start, hs, ?_, hle, ?_⟩
  · rw [linepos, if_neg (Nat.not_lt.2 h)]
    cases line with
    | zero =>
      cases hs
      rfl
    | succ line =>
      rw [lineStart] at hs
      simp only [hs]
      rfl
  · rw [UInt64.add_comm, UInt64.sub_add_cancel]
    cases hl : s.lines[line]? with
    | none => exact Nat.le_of_eq s.length_toNat
    | some x => exact Nat.le_of_lt (lines_lt (List.mem_of_getElem? hl))

theorem linecol_some (s : SourceDef) (pos : UInt64) : ∃ line col start,
    s.linecol pos = some (line, col) ∧ line ≤ s.lines.length ∧
      s.lineStart line = some start ∧ start ≤ pos := by
  rw [linecol]
  cases hi : s.lines.findIdx (pos ≤ ·) with
  | zero => exact ⟨0, pos, 0, rfl, Nat.zero_le _, rfl, UInt64.zero_le⟩
  | succ line =>
    have hlen : line + 1 ≤ s.lines.length := hi ▸ List.findIdx_le_length
    have hbefore : ¬ pos ≤ s.lines[line] := by
      have hlt : line < s.lines.findIdx (pos ≤ ·) := hi.symm ▸ Nat.lt_succ_self line
      simpa using List.not_of_lt_findIdx hlt
    have hm : s.lines[line] ∈ s.lines := List.getElem_mem hlen
    refine ⟨line + 1, pos - (s.lines[line] + 1), s.lines[line] + 1, ?_, hlen, ?_, ?_⟩
    · simp only [List.getElem?_eq_getElem hlen, Option.map_some]
    · rw [lineStart, List.getElem?_eq_getElem hlen]
      rfl
    · rw [UInt64.le_iff_toNat_le, lines_succ hm]
      exact UInt64.lt_iff_toNat_lt.1 (UInt64.not_le.1 hbefore)

end SourceDef

namespace Location
variable {l that : Location}

/-- The position is one of the text of the source. -/
def Fits (l : Location) : Prop :=
  ∀ s, l.source = some s → (l.pos - s.offset).toNat ≤ s.contents.length

def Renders (l : Location) : Prop := l.view.isSome ∧ l.str.isSome ∧ l.originLinecol.isSome

theorem view_isSome : l.view.isSome ↔ l.Fits := by
  rw [view, Fits]
  cases l.source with
  | none => exact ⟨fun _ => nofun, fun _ => rfl⟩
  | some s =>
    rw [substr_isSome]
    exact ⟨fun h _ he => Option.some.inj he ▸ h, fun h => h s rfl⟩

theorem linecol_some (h : l.source = some s) : ∃ line col start, l.linecol = some (line, col) ∧
    line ≤ s.lines.length ∧ s.lineStart line = some start ∧ start ≤ l.pos := by
  simp only [linecol, h]
  split
  · exact ⟨0, l.pos, 0, rfl, Nat.zero_le _, rfl, UInt64.zero_le⟩
  · exact s.linecol_some l.pos

theorem originLinecol_isSome (l : Location) : l.originLinecol.isSome := by
  cases h : l.source with
  | none => simp only [originLinecol, h, Option.isSome_some]
  | some s =>
    obtain ⟨line, col, _, hl, _⟩ := linecol_some h
    simp only [originLinecol, h, hl]
    split <;> rfl

theorem str_isSome : l.str.isSome ↔ l.view.isSome := by
  cases h : l.source with
  | none => simp only [str, view, h, Option.isSome_some]
  | some s =>
    obtain ⟨line, col, start, hl, hline, hstart, hpos⟩ := linecol_some h
    obtain ⟨start', len, hstart', hp, hle, hend⟩ := SourceDef.linepos_some hline
    obtain rfl := Option.some.inj (hstart.symm.trans hstart')
    obtain ⟨line2, col2, _, hl2, hline2, _⟩ := s.linecol_some (l.pos + l.len)
    obtain ⟨start2, len2, _, hp2, hle2, _⟩ := SourceDef.linepos_some hline2
    obtain ⟨first, hfirst⟩ := substr_some hle len
    obtain ⟨last, hlast⟩ := substr_some hle2 len2
    obtain ⟨interim, hinterim⟩ := substr_some hend (start2 - (start + len))
    obtain ⟨marked, hmarked⟩ := substr_zero last col2
    obtain ⟨part, hpart⟩ := substr_zero first (l.pos - start + l.len)
    simp only [str, h, hl, hp, Option.bind_eq_bind, Option.bind_some]
    cases hv : l.view with
    | none => exact Iff.rfl
    | some text =>
      simp only [Option.bind_some, hfirst, hl2, hp2, hlast, hinterim, hmarked, hpart,
        UInt64.not_lt.2 hpos, if_false]
      split <;> exact ⟨fun _ => rfl, fun _ => rfl⟩

theorem renders_iff_fits : l.Renders ↔ l.Fits := by
  rw [Renders, str_isSome, and_iff_left (originLinecol_isSome l), and_self, view_isSome]

theorem fits_of_pos (h : l.source = some s) (hpos : l.pos = s.offset) : l.Fits := by
  intro s' hs
  obtain rfl := Option.some.inj (h.symm.trans hs)
  rw [hpos, UInt64.sub_self]
  exact Nat.zero_le _

theorem fits_ofString (address : Nat) (t : Text) : (ofString address t).Fits :=
  fits_of_pos rfl rfl

theorem min_eq_or {a b : UInt64} : min a b = a ∨ min a b = b := by
  change (if a ≤ b then a else b) = a ∨ (if a ≤ b then a else b) = b
  split
  · exact .inl rfl
  · exact .inr rfl

theorem fits_join (hl : l.Fits) (ht : that.Fits) (hsame : ∀ s s', l.source = some s →
    that.source = some s' → s.address = s'.address → s = s') : (l.join that).Fits := by
  rw [join]
  cases hs : l.source with
  | none => exact ht
  | some s =>
    cases hs' : that.source with
    | none => exact hl
    | some s' =>
      by_cases ha : s.address = s'.address
      · obtain rfl := hsame s s' hs hs' ha
        simp only [ne_eq, not_true_eq_false, if_false]
        intro u hu
        obtain rfl := Option.some.inj hu
        simp only
        rcases min_eq_or (a := l.pos) (b := that.pos) with hm | hm
        · rw [hm]
          exact hl s hs
        · rw [hm]
          exact ht s hs'
      · simp only [ne_eq, ha, not_false_eq_true, if_true]
        exact hl

end Location

theorem fits_parseLocation_iff (address : Nat) (type : Text) (parent : Location) (a : Annotation) :
    (parseLocation address type parent a).Fits ↔
      ∀ filename pos len, a = .span filename pos len → pos = 0 := by
  cases a with
  | absent => exact ⟨fun _ => nofun, fun _ => Location.fits_ofString address type⟩
  | content text => exact ⟨fun _ => nofun, fun _ => Location.fits_ofString address text⟩
  | printed filename pos text => exact ⟨fun _ => nofun, fun _ => Location.fits_of_pos rfl rfl⟩
  | span filename pos len =>
    constructor
    · intro h _ _ _ he
      cases he
      have hpos := h _ rfl
      simp only [SourceDef.synthetic, UInt64.sub_zero] at hpos
      exact UInt64.toNat_inj.1 (Nat.le_zero.1 hpos)
    · intro h
      exact Location.fits_of_pos rfl (h _ _ _ rfl)

/-- How a program comes to a location. -/
inductive Event
  | create
  | text (address : Nat) (text : Text)
  | parsed (source : SourceDef) (pos len : UInt64)
  | joined (l that : Location)
  | reloaded (address : Nat) (type : Text) (parent : Location) (a : Annotation)

def Consistent (held : List Location) (source : SourceDef) : Prop :=
  ∀ l ∈ held, ∀ s, l.source = some s → s.address = source.address → s = source

def Fresh (held : List Location) (address : Nat) : Prop :=
  ∀ l ∈ held, ∀ s, l.source = some s → s.address ≠ address

theorem fresh_nil (address : Nat) : Fresh [] address :=
  fun _ hl => absurd hl List.not_mem_nil

/-- The locations that the nodes hold after an event. What a regex matches or captures lies within
the text, and so does the character at which a parser stands. -/
inductive Step : List Location → Event → List Location → Prop
  | create : Step held .create ({} :: held)
  | text (h : Fresh held address) (t : Text) :
    Step held (.text address t) (.ofString address t :: held)
  | parsed (h : Consistent held source) (hpos : pos.toNat + len.toNat ≤ source.contents.length) :
    Step held (.parsed source pos len) ({ source := some source, pos := pos, len := len } :: held)
  | joined (hl : l ∈ held) (ht : that ∈ held) : Step held (.joined l that) (l.join that :: held)
  | reloaded (h : Fresh held address) (hp : parent = {} ∨ parent ∈ held) (type : Text)
    (a : Annotation) : Step held (.reloaded address type parent a)
      (parseLocation address type parent a :: held)

/-- What is parsed is a source of its own, and a node that is reloaded without its text is at the
start of its file. -/
def Event.Sound : Event → Prop
  | .parsed source _ _ => source.offset = 0
  | .reloaded _ _ _ (.span _ pos _) => pos = 0
  | _ => True

/-- The locations fit, and each address has one source. -/
structure Held (held : List Location) : Prop where
  fits : ∀ l ∈ held, l.Fits
  same : ∀ l ∈ held, ∀ s, l.source = some s → Consistent held s

theorem Held.cons (h : Held held) (hl : l.Fits)
    (hs : ∀ s, l.source = some s → Consistent held s) : Held (l :: held) := by
  refine ⟨List.forall_mem_cons.2 ⟨hl, h.fits⟩, ?_⟩
  intro m hm s hms k hk t hkt ha
  rcases List.mem_cons.1 hm with rfl | hm'
  · rcases List.mem_cons.1 hk with rfl | hk'
    · exact Option.some.inj (hkt.symm.trans hms)
    · exact hs s hms k hk' t hkt ha
  · rcases List.mem_cons.1 hk with rfl | hk'
    · exact (hs t hkt m hm' s hms ha.symm).symm
    · exact h.same m hm' s hms k hk' t hkt ha

theorem Held.fresh (h : Held held) (hl : l.Fits) (hf : Fresh held address)
    (hs : ∀ s, l.source = some s → s.address = address) : Held (l :: held) := by
  apply h.cons hl
  intro s hls m hm t hmt ha
  exact absurd (ha.trans (hs s hls)) (hf m hm t hmt)

theorem join_source (hs : (Location.join l that).source = some s) :
    l.source = some s ∨ that.source = some s := by
  rw [Location.join] at hs
  cases hl : l.source with
  | none =>
    rw [hl] at hs
    exact .inr hs
  | some u =>
    rw [hl] at hs
    cases ht : that.source with
    | none =>
      rw [ht] at hs
      exact .inl (hl ▸ hs)
    | some v =>
      rw [ht] at hs
      simp only at hs
      split at hs
      · exact .inl (hl ▸ hs)
      · exact .inl hs

/-- Every sound event keeps the invariant. -/
theorem Held.step (h : Held held) (he : event.Sound) (hs : Step held event held') :
    Held held' := by
  cases hs with
  | create => exact h.cons nofun nofun
  | text hf t =>
    apply h.fresh (Location.fits_ofString _ t) hf
    intro s hs
    cases hs
    rfl
  | parsed hc hpos =>
    apply h.cons
    · intro s hs
      cases hs
      rw [he, UInt64.sub_zero]
      exact Nat.le_trans (Nat.le_add_right _ _) hpos
    · intro s hs
      exact Option.some.inj hs ▸ hc
  | joined hl ht =>
    apply h.cons
    · apply Location.fits_join (h.fits _ hl) (h.fits _ ht)
      intro s s' hs hs' ha
      exact h.same _ ht s' hs' _ hl s hs ha
    · intro s hs
      rcases join_source hs with hs | hs
      · exact h.same _ hl s hs
      · exact h.same _ ht s hs
  | reloaded hf hp type a =>
    apply h.fresh _ hf
    · intro s hs
      cases a <;> cases hs <;> rfl
    · apply (fits_parseLocation_iff _ type _ a).2
      intro filename pos len ha
      cases ha
      exact he

/-- In a run of sound events every location can be rendered. -/
theorem run_renders (h : Run Step [] events held) (hs : ∀ e ∈ events, e.Sound) :
    ∀ l ∈ held, l.Renders := by
  have hempty : Held [] := ⟨nofun, nofun⟩
  have hheld : Held held :=
    h.preserves (fun _ _ _ he hh hstep => hh.step he hstep) hs hempty
  intro l hl
  exact Location.renders_iff_fits.2 (hheld.fits l hl)

/-- A node at position 5 of 3 bytes that is reloaded without its text. -/
theorem reload_throws : ∃ held, Run Step []
    [.reloaded 0 ⟨[120], by decide⟩ {} (.span none 5 3)] held ∧
    ∃ l ∈ held, l.view = none ∧ l.str = none := by
  have hstep := Step.reloaded (fresh_nil 0) (.inl rfl) ⟨[120], by decide⟩ (.span none 5 3)
  exact ⟨_, .single hstep, _, List.mem_singleton_self _, rfl, rfl⟩

theorem run_renders_two : (parseLocation 1 ⟨[120], by decide⟩
    (.ofString 0 ⟨[97, 10, 98], by decide⟩) (.printed none 7 ⟨[97], by decide⟩)).Renders := by
  have hfresh : Fresh [.ofString 0 ⟨[97, 10, 98], by decide⟩] 1 := by
    intro l hl s hs
    obtain rfl := List.mem_singleton.1 hl
    cases hs
    decide
  have hrun : Run Step [] [.text 0 ⟨[97, 10, 98], by decide⟩, .reloaded 1 ⟨[120], by decide⟩
      (.ofString 0 ⟨[97, 10, 98], by decide⟩) (.printed none 7 ⟨[97], by decide⟩)] _ :=
    .cons (.text (fresh_nil 0) _) (.single (.reloaded hfresh (.inr (.head _)) _ _))
  exact run_renders hrun (by simp [Event.Sound]) _ (.head _)

end Trieste.Excerpt
