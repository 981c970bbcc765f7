import Mathlib.Algebra.BigOperators.Group.Finset.Basic
import Mathlib.Algebra.Order.BigOperators.Group.Finset
import Mathlib.Data.Set.Finite.Lattice
import Trieste.Library.Acyclic
import Trieste.NodeWorker.Effects

namespace Trieste
set_option autoImplicit true
open NodeWorker Library Relation

variable {N : Type} [DecidableEq N]

/-- `process` of a work with fixed dependencies. -/
def processDeps (deps : N → List N) (w : NodeWorker N) (n : N) : Bool × NodeWorker N :=
  if ∀ o ∈ deps n, w.isResolved o = true then (true, w)
  else (false, (w.blockOnAll n (deps n)).2)

inductive Round (N : Type)
  | skip (n : N)
  | process (n : N)
  deriving DecidableEq

/-- One round of the loop in `run`. The status of a node that is not Resolved is not looked at,
as in a build without assertions. -/
inductive RunRound (deps : N → List N) : NodeWorker N → Round N → NodeWorker N → Prop
  | skip (hl : w.worklist = n :: rest) (hn : (w.state n).kind = .resolved) :
      RunRound deps w (.skip n) { w with worklist := rest }
  | done (hl : w.worklist = n :: rest) (hn : (w.state n).kind ≠ .resolved)
      (hp : processDeps deps { w with worklist := rest } n = (true, w'))
      (hnd : waiting.Nodup) (hw : waiting.toFinset = (w'.state n).dependents) :
      RunRound deps w (.process n) (w'.resolve n waiting)
  | wait (hl : w.worklist = n :: rest) (hn : (w.state n).kind ≠ .resolved)
      (hp : processDeps deps { w with worklist := rest } n = (false, w')) :
      RunRound deps w (.process n) w'

def addRoots (roots : List N) : NodeWorker N :=
  roots.foldl NodeWorker.add {}

def DependsOn (deps : N → List N) (n o : N) : Prop := o ∈ deps n

def openDeps (deps : N → List N) (w : NodeWorker N) (n : N) : Finset N :=
  (w.unresolved (deps n)).toFinset

theorem mem_openDeps (deps : N → List N) (w : NodeWorker N) (n : N) :
    o ∈ openDeps deps w n ↔ o ∈ deps n ∧ (w.state o).kind ≠ .resolved := by
  rw [openDeps, List.mem_toFinset, mem_unresolved]

/-- What holds between two rounds. -/
structure DepsInv (deps : N → List N) (roots : List N) (es : List (Round N))
    (w : NodeWorker N) : Prop where
  active : ∀ n, n ∈ w.worklist ↔ (w.state n).kind = .active
  nodup : w.worklist.Nodup
  idle : ∀ n, (w.state n).kind ≠ .blocked → (w.state n).blockedOnCount = 0
  dependents : ∀ n o, n ∈ (w.state o).dependents ↔
    (w.state n).kind = .blocked ∧ o ∈ openDeps deps w n
  count : ∀ n, (w.state n).kind = .blocked →
    (w.state n).blockedOnCount + 1 = (openDeps deps w n).card
  seen : ∀ n, (w.state n).kind = .blocked ∨ (w.state n).kind = .resolved →
    ∀ o ∈ deps n, (w.state o).kind ≠ .uninitialized
  acc : ∀ n, (w.state n).kind = .resolved → Acc (fun x y => DependsOn deps y x) n
  reached : ∀ n, (w.state n).kind ≠ .uninitialized →
    ∃ r ∈ roots, ReflTransGen (DependsOn deps) r n
  rooted : ∀ r ∈ roots, (w.state r).kind ≠ .uninitialized
  once : ∀ n, (w.state n).kind = .uninitialized → es.count (.process n) = 0
  blocked_once : ∀ n, (w.state n).kind = .blocked → es.count (.process n) = 1
  active_once : ∀ n, (w.state n).kind = .active →
    es.count (.process n) = 0 ∨ es.count (.process n) = 1 ∧ openDeps deps w n = ∅
  twice : ∀ n, es.count (.process n) ≤ 2
  processed : ∀ e ∈ es, ∃ n, e = .process n ∧ (w.state n).kind ≠ .uninitialized

/-- The start of a round: the front of the worklist is Active. -/
theorem DepsInv.front {w : NodeWorker N} (h : DepsInv deps roots es w)
    (hl : w.worklist = n :: rest) : (w.state n).kind = .active ∧ n ∉ rest ∧ rest.Nodup ∧
      ∀ x, x ∈ rest ↔ x ≠ n ∧ (w.state x).kind = .active := by
  have hnd := h.nodup
  have ha (x : N) := h.active x
  simp only [hl, List.nodup_cons, List.mem_cons] at hnd ha
  refine ⟨(ha n).1 (.inl rfl), hnd.1, hnd.2, fun x => ?_⟩
  grind

theorem openDeps_congr {deps : N → List N} {w w' : NodeWorker N}
    (h : ∀ o, (w'.state o).kind = .resolved ↔ (w.state o).kind = .resolved) (n : N) :
    openDeps deps w' n = openDeps deps w n := by
  ext o
  simp only [mem_openDeps, ne_eq, h]

theorem count_append_process (es : List (Round N)) (n x : N) :
    (es ++ [Round.process n]).count (Round.process x) =
      es.count (Round.process x) + if x = n then 1 else 0 := by
  rw [List.count_append, List.count_singleton]
  by_cases hx : x = n
  · subst x
    simp
  · have hne : (Round.process n == Round.process x) = false := by
      simp [Ne.symm hx]
    simp only [hne, Bool.false_eq_true, ↓reduceIte, hx]

theorem DepsInv.wait {w : NodeWorker N} (h : DepsInv deps roots es w)
    (hdeps : ∀ n, (deps n).Nodup) (hl : w.worklist = n :: rest)
    (hu : ¬ ∀ o ∈ deps n, (w.state o).kind = .resolved) :
    DepsInv deps roots (es ++ [.process n])
      (({ w with worklist := rest } : NodeWorker N).blockOnAll n (deps n)).2 := by
  obtain ⟨hn, hnr, hrest, hmem⟩ := h.front hl
  have hspec := blockOnAll_spec ({ w with worklist := rest } : NodeWorker N) n (deps n)
    (by simp [hn]) (by simp [hn])
  generalize ({ w with worklist := rest } : NodeWorker N).blockOnAll n (deps n) = r at hspec
  obtain ⟨-, hk, hkne, hb, hbne, hdep, hwl, hnd⟩ := hspec
  have hopen (x : N) : x ∈ ({ w with worklist := rest } : NodeWorker N).unresolved (deps n) ↔
      x ∈ openDeps deps w n := by
    rw [mem_unresolved, mem_openDeps]
  have hne : ({ w with worklist := rest } : NodeWorker N).unresolved (deps n) ≠ [] := by
    intro h0
    apply hu
    intro o ho
    by_contra hr
    have := (hopen o).2 ((mem_openDeps _ _ _).2 ⟨ho, hr⟩)
    rw [h0] at this
    exact List.not_mem_nil this
  have hne' : openDeps deps w n ≠ ∅ := by
    obtain ⟨o, ho⟩ := List.exists_mem_of_ne_nil _ hne
    exact Finset.ne_empty_of_mem ((hopen o).1 ho)
  rw [if_neg hne] at hk
  rw [if_neg hne, if_pos (h.idle n (by simp [hn]))] at hb
  simp only [hopen] at hdep
  have hres (o : N) : (r.2.state o).kind = .resolved ↔ (w.state o).kind = .resolved := by
    by_cases ho : o = n
    · subst o
      simp [hk, hn]
    · rw [hkne o ho]
      grind
  have hoc : ∀ x, openDeps deps r.2 x = openDeps deps w x := openDeps_congr hres
  have hseen (x : N) (hx : (w.state x).kind ≠ .uninitialized) :
      (r.2.state x).kind ≠ .uninitialized := by
    by_cases hxn : x = n
    · subst x
      simp [hk]
    · rw [hkne x hxn]
      grind
  have hblocked (x : N) (hx : x ≠ n) :
      (r.2.state x).kind = .blocked ↔ (w.state x).kind = .blocked := by
    rw [hkne x hx]
    grind
  refine ⟨fun x => ?_, ?_, fun x hx => ?_, fun x o => ?_, fun x hx => ?_, fun x hx o ho => ?_,
    fun x hx => h.acc x ((hres x).1 hx), fun x hx => ?_, fun r' hr' => hseen r' (h.rooted r' hr'),
    fun x hx => ?_, fun x hx => ?_, fun x hx => ?_, fun x => ?_, fun e he => ?_⟩
  · -- active
    rw [hwl, hmem]
    by_cases hxn : x = n
    · subst x
      simp [hk, hn]
    · rw [hkne x hxn]
      grind
  · -- nodup
    refine hnd (fun x hx => ?_) hrest
    rw [hmem] at hx
    simp [hx.2]
  · -- idle
    have hxn : x ≠ n := fun h => hx (h ▸ hk)
    rw [hbne x hxn]
    exact h.idle x fun hb => hx ((hblocked x hxn).2 hb)
  · -- dependents
    rw [hdep, hoc]
    by_cases hxn : x = n
    · subst x
      have hnot : n ∉ (w.state o).dependents := by
        rw [h.dependents]
        simp [hn]
      simp only [hk, true_and]
      split
      · next ho => simp [ho]
      · next ho => simp [ho, hnot]
    · rw [hblocked x hxn, ← h.dependents]
      split
      · simp [hxn]
      · rfl
  · -- count
    rw [hoc]
    by_cases hxn : x = n
    · subst x
      have hcard := List.toFinset_card_of_nodup ((hdeps n).filter fun o => !w.isResolved o)
      have hpos := List.length_pos_iff.2 hne
      have hlen : ({ w with worklist := rest } : NodeWorker N).unresolved (deps n) =
          w.unresolved (deps n) := rfl
      rw [hb, openDeps]
      rw [hlen] at hpos ⊢
      unfold unresolved at hpos ⊢
      omega
    · rw [hbne x hxn]
      exact h.count x ((hblocked x hxn).1 hx)
  · -- seen
    by_cases hxn : x = n
    · subst x
      by_cases hon : o = n
      · subst o
        simp [hk]
      · rw [hkne o hon]
        grind
    · rw [hblocked x hxn, hres] at hx
      exact hseen o (h.seen x hx o ho)
  · -- reached
    by_cases hxs : (w.state x).kind = .uninitialized
    · have hxn : x ≠ n := by
        rintro rfl
        rw [hn] at hxs
        cases hxs
      rw [hkne x hxn, hxs] at hx
      have hmem : x ∈ deps n := by
        by_contra hnot
        simp [hnot] at hx
      obtain ⟨r', hr', hpath⟩ := h.reached n (by simp [hn])
      exact ⟨r', hr', hpath.tail hmem⟩
    · exact h.reached x hxs
  · -- once
    have hxn : x ≠ n := by
      rintro rfl
      rw [hk] at hx
      cases hx
    rw [count_append_process, if_neg hxn]
    exact h.once x (by_contra fun hs => hseen x hs hx)
  · -- blocked_once
    rw [count_append_process]
    by_cases hxn : x = n
    · subst x
      have hcount := h.active_once n hn
      simp only [hne', and_false, or_false] at hcount
      rw [hcount, if_pos rfl]
    · rw [if_neg hxn]
      exact h.blocked_once x ((hblocked x hxn).1 hx)
  · -- active_once
    have hxn : x ≠ n := by
      rintro rfl
      rw [hk] at hx
      cases hx
    rw [count_append_process, if_neg hxn, hoc]
    rw [hkne x hxn] at hx
    split at hx
    · next hnew => exact .inl (h.once x hnew.2)
    · exact h.active_once x hx
  · -- twice
    rw [count_append_process]
    by_cases hxn : x = n
    · subst x
      have hcount := h.active_once n hn
      simp only [hne', and_false, or_false] at hcount
      simp [hcount]
    · rw [if_neg hxn]
      exact h.twice x
  · -- processed
    rcases List.mem_append.1 he with he | he
    · obtain ⟨x, rfl, hx⟩ := h.processed e he
      exact ⟨x, rfl, hseen x hx⟩
    · rw [List.mem_singleton] at he
      exact ⟨n, he, by simp [hk]⟩

theorem DepsInv.done {w : NodeWorker N} (h : DepsInv deps roots es w)
    (hl : w.worklist = n :: rest) (hdone : ∀ o ∈ deps n, (w.state o).kind = .resolved)
    {waiting : List N} (hwnd : waiting.Nodup) (hw : waiting.toFinset = (w.state n).dependents) :
    DepsInv deps roots (es ++ [.process n])
      (({ w with worklist := rest } : NodeWorker N).resolve n waiting) := by
  obtain ⟨hn, hnr, hrest, hmem⟩ := h.front hl
  have hspec := resolve_spec ({ w with worklist := rest } : NodeWorker N) n hwnd hw
  generalize ({ w with worklist := rest } : NodeWorker N).resolve n waiting = w' at hspec
  obtain ⟨hk, hb, hkne, hbne, hdep, hwl, hnd⟩ := hspec
  have hres (o : N) : (w'.state o).kind = .resolved ↔ o = n ∨ (w.state o).kind = .resolved := by
    by_cases ho : o = n
    · simp [ho, hk]
    · rw [hkne o ho]
      grind [Ready]
  have hoc (x : N) : openDeps deps w' x = (openDeps deps w x).erase n := by
    ext o
    simp only [mem_openDeps, Finset.mem_erase, ne_eq, hres]
    grind
  -- A dependent is woken when the resolved node is its last open dependency.
  have hlast (x : N) (hx : x ∈ (w.state n).dependents) (hr : Ready (w.state x)) :
      openDeps deps w' x = ∅ := by
    have hin := ((h.dependents x n).1 hx).2
    have hcard := h.count x hr.1
    rw [hr.2] at hcard
    rw [hoc, ← Finset.card_eq_zero, Finset.card_erase_of_mem hin, ← hcard]
  have hwoken (x : N) (hx : x ≠ n) : (w'.state x).kind = .blocked →
      (w.state x).kind = .blocked ∧ ¬ (x ∈ (w.state n).dependents ∧ Ready (w.state x)) := by
    rw [hkne x hx]
    grind
  have hstays (x : N) (hx : (w.state x).kind = .blocked) (hne : openDeps deps w' x ≠ ∅) :
      (w'.state x).kind = .blocked := by
    have hxn : x ≠ n := by
      rintro rfl
      rw [hn] at hx
      cases hx
    rw [hkne x hxn, if_neg fun hr => hne (hlast x hr.1 hr.2)]
    exact hx
  have hseen (x : N) (hx : (w.state x).kind ≠ .uninitialized) :
      (w'.state x).kind ≠ .uninitialized := by
    by_cases hxn : x = n
    · simp [hxn, hk]
    · rw [hkne x hxn]
      grind
  have hunseen (x : N) (hx : (w'.state x).kind = .uninitialized) :
      x ≠ n ∧ (w.state x).kind = .uninitialized := by
    refine ⟨?_, by_contra fun hs => hseen x hs hx⟩
    rintro rfl
    rw [hk] at hx
    cases hx
  refine ⟨fun x => ?_, ?_, fun x hx => ?_, fun x o => ?_, fun x hx => ?_, fun x hx o ho => ?_,
    fun x hx => ?_, fun x hx => ?_, fun r' hr' => hseen r' (h.rooted r' hr'),
    fun x hx => ?_, fun x hx => ?_, fun x hx => ?_, fun x => ?_, fun e he => ?_⟩
  · -- active
    rw [hwl, hmem]
    by_cases hxn : x = n
    · subst x
      simp [hk]
    · rw [hkne x hxn]
      grind
  · -- nodup
    refine hnd (fun x hx => ?_) hrest
    rw [hmem] at hx
    simp [hx.2]
  · -- idle
    by_cases hxn : x = n
    · subst x
      rw [hb]
      exact h.idle n (by simp [hn])
    · have hxk := h.idle x
      rw [hkne x hxn] at hx
      rw [hbne x hxn]
      grind [Ready]
  · -- dependents
    rw [hdep]
    constructor
    · intro hx
      by_cases hon : o = n
      · simp [hon] at hx
      · rw [if_neg hon] at hx
        obtain ⟨hxb, hin⟩ := (h.dependents x o).1 hx
        have hin' : o ∈ openDeps deps w' x := by
          rw [hoc]
          exact Finset.mem_erase_of_ne_of_mem hon hin
        exact ⟨hstays x hxb (Finset.ne_empty_of_mem hin'), hin'⟩
    · rintro ⟨hxb, hin⟩
      have hxn : x ≠ n := by
        rintro rfl
        rw [hk] at hxb
        cases hxb
      rw [hoc, Finset.mem_erase] at hin
      rw [if_neg hin.1, h.dependents]
      exact ⟨(hwoken x hxn hxb).1, hin.2⟩
  · -- count
    have hxn : x ≠ n := by
      rintro rfl
      rw [hk] at hx
      cases hx
    obtain ⟨hxb, hnot⟩ := hwoken x hxn hx
    have hcount := h.count x hxb
    rw [hbne x hxn, hoc]
    by_cases hxd : x ∈ (w.state n).dependents
    · rw [Finset.card_erase_of_mem ((h.dependents x n).1 hxd).2]
      grind [Ready]
    · have hnin : n ∉ openDeps deps w x := fun hin => hxd ((h.dependents x n).2 ⟨hxb, hin⟩)
      rw [Finset.erase_eq_of_notMem hnin]
      grind
  · -- seen
    apply hseen
    by_cases hxn : x = n
    · subst x
      simp [hdone o ho]
    · refine h.seen x ?_ o ho
      rcases hx with hx | hx
      · exact .inl (hwoken x hxn hx).1
      · exact .inr (((hres x).1 hx).resolve_left hxn)
  · -- acc
    rcases (hres x).1 hx with rfl | hx
    · exact .intro _ fun o ho => h.acc o (hdone o ho)
    · exact h.acc x hx
  · -- reached
    exact h.reached x fun hs => hx (by
      have hxn : x ≠ n := by
        rintro rfl
        rw [hn] at hs
        cases hs
      rw [hkne x hxn]
      grind [Ready])
  · -- once
    rw [count_append_process, if_neg (hunseen x hx).1]
    exact h.once x (hunseen x hx).2
  · -- blocked_once
    have hxn : x ≠ n := by
      rintro rfl
      rw [hk] at hx
      cases hx
    rw [count_append_process, if_neg hxn]
    exact h.blocked_once x (hwoken x hxn hx).1
  · -- active_once
    have hxn : x ≠ n := by
      rintro rfl
      rw [hk] at hx
      cases hx
    rw [count_append_process, if_neg hxn]
    rw [hkne x hxn] at hx
    split at hx
    · next hr => exact .inr ⟨h.blocked_once x hr.2.1, hlast x hr.1 hr.2⟩
    · refine (h.active_once x hx).imp_right fun ho => ⟨ho.1, ?_⟩
      rw [hoc, ho.2, Finset.erase_empty]
  · -- twice
    rw [count_append_process]
    by_cases hxn : x = n
    · subst x
      have hcount := h.active_once n hn
      rw [if_pos rfl]
      omega
    · rw [if_neg hxn]
      exact h.twice x
  · -- processed
    rcases List.mem_append.1 he with he | he
    · obtain ⟨x, rfl, hx⟩ := h.processed e he
      exact ⟨x, rfl, hseen x hx⟩
    · rw [List.mem_singleton] at he
      exact ⟨n, he, by simp [hk]⟩

theorem DepsInv.round {w w' : NodeWorker N} (h : DepsInv deps roots es w)
    (hdeps : ∀ n, (deps n).Nodup) (hr : RunRound deps w e w') :
    DepsInv deps roots (es ++ [e]) w' := by
  cases hr with
  | skip hl hn =>
    rw [(h.front hl).1] at hn
    cases hn
  | done hl hn hp hnd hw =>
    unfold processDeps at hp
    split at hp
    · next hall =>
      cases hp
      exact h.done hl (fun o ho => (isResolved_iff w o).1 (hall o ho)) hnd hw
    · cases hp
  | wait hl hn hp =>
    unfold processDeps at hp
    split at hp
    · cases hp
    · next hall =>
      cases hp
      exact h.wait hdeps hl fun hres => hall fun o ho => (isResolved_iff w o).2 (hres o ho)

theorem DepsInv.run {w w' : NodeWorker N} (h : DepsInv deps roots es w)
    (hdeps : ∀ n, (deps n).Nodup) (hr : Run (RunRound deps) w es' w') :
    DepsInv deps roots (es ++ es') w' := by
  induction hr generalizing es with
  | nil => simpa using h
  | cons hround _ ih => simpa using ih (h.round hdeps hround)

theorem addRoots_state (roots : List N) (x : N) :
    ((addRoots roots).state x).kind = (if x ∈ roots then .active else .uninitialized) ∧
      ((addRoots roots).state x).blockedOnCount = 0 ∧
      ((addRoots roots).state x).dependents = ∅ := by
  induction roots using List.reverseRecOn with
  | nil => simp [addRoots]
  | append_singleton roots r ih =>
    have hadd : addRoots (roots ++ [r]) = (addRoots roots).add r := by
      simp [addRoots, List.foldl_append]
    rw [hadd, add_kind, add_blockedOnCount, add_dependents, ih.1]
    refine ⟨?_, ih.2⟩
    grind

theorem addRoots_worklist (roots : List N) :
    (addRoots roots).worklist.Nodup ∧ ∀ x, x ∈ (addRoots roots).worklist ↔ x ∈ roots := by
  induction roots using List.reverseRecOn with
  | nil => simp [addRoots]
  | append_singleton roots r ih =>
    have hadd : addRoots (roots ++ [r]) = (addRoots roots).add r := by
      simp [addRoots, List.foldl_append]
    rw [hadd, add_worklist, (addRoots_state roots r).1]
    split <;> grind

theorem DepsInv.start (deps : N → List N) (roots : List N) :
    DepsInv deps roots [] (addRoots roots) := by
  have hk (x : N) := (addRoots_state roots x).1
  have hs (x : N) := (addRoots_state roots x).2
  constructor <;> intros <;> simp_all [addRoots_worklist]
  all_goals grind

/-- While a node is on the worklist, another round can be made. -/
theorem DepsInv.progress {w : NodeWorker N} (h : DepsInv deps roots es w)
    (hl : w.worklist = n :: rest) : ∃ e w', RunRound deps w e w' := by
  have hn : (w.state n).kind ≠ .resolved := by simp [(h.front hl).1]
  by_cases hp : (processDeps deps { w with worklist := rest } n).1 = true
  · exact ⟨_, _, .done hl hn (Prod.ext hp rfl) (Finset.nodup_toList _) (Finset.toList_toFinset _)⟩
  · exact ⟨_, _, .wait hl hn (Prod.ext (Bool.eq_false_iff.2 hp) rfl)⟩

theorem DepsInv.blocked_dep {w : NodeWorker N} (h : DepsInv deps roots es w)
    (hl : w.worklist = []) (hx : (w.state x).kind = .blocked) :
    ∃ o, DependsOn deps x o ∧ (w.state o).kind = .blocked := by
  have hcount := h.count x hx
  obtain ⟨o, ho⟩ := Finset.card_pos.1 (by omega : 0 < (openDeps deps w x).card)
  rw [mem_openDeps] at ho
  have hseen := h.seen x (.inl hx) o ho.1
  have hactive := (h.active o).2
  rw [hl] at hactive
  refine ⟨o, ho.1, ?_⟩
  cases hk : (w.state o).kind with
  | uninitialized => exact (hseen hk).elim
  | active => exact (List.not_mem_nil (hactive hk)).elim
  | blocked => rfl
  | resolved => exact (ho.2 hk).elim

theorem DepsInv.not_acc_of_blocked {w : NodeWorker N} (h : DepsInv deps roots es w)
    (hl : w.worklist = []) (ha : Acc (fun x y => DependsOn deps y x) x) :
    (w.state x).kind ≠ .blocked := by
  induction ha with
  | intro x _ ih =>
    intro hx
    obtain ⟨o, ho, hb⟩ := h.blocked_dep hl hx
    exact ih o ho hb

theorem DepsInv.seen_reached {w : NodeWorker N} (h : DepsInv deps roots es w)
    (hl : w.worklist = []) (hr : r ∈ roots) (hp : ReflTransGen (DependsOn deps) r x) :
    (w.state x).kind ≠ .uninitialized := by
  induction hp with
  | refl => exact h.rooted r hr
  | @tail y z _ hd ih =>
    have hactive := (h.active y).2
    rw [hl] at hactive
    refine h.seen y ?_ z hd
    cases hk : (w.state y).kind with
    | uninitialized => exact (ih hk).elim
    | active => exact (List.not_mem_nil (hactive hk)).elim
    | blocked => exact .inl rfl
    | resolved => exact .inr rfl

omit [DecidableEq N] in
theorem reached_finite (deps : N → List N) (hfin : {p : N × N | DependsOn deps p.1 p.2}.Finite)
    (r : N) : {x | ReflTransGen (DependsOn deps) r x}.Finite := by
  refine ((hfin.image Prod.snd).insert r).subset ?_
  intro x hx
  rcases ReflTransGen.cases_tail hx with rfl | ⟨y, _, hy⟩
  · exact Set.mem_insert _ _
  · exact Set.mem_insert_of_mem _ ⟨(y, x), hy, rfl⟩

/-- A run makes at most two rounds for each node it can reach. -/
theorem DepsInv.length_le {w : NodeWorker N} (h : DepsInv deps roots es w) (s : Finset N)
    (hs : ∀ r ∈ roots, ∀ x, ReflTransGen (DependsOn deps) r x → x ∈ s) :
    es.length ≤ 2 * s.card := by
  have hsub : es.toFinset ⊆ s.image Round.process := by
    intro e he
    obtain ⟨n, rfl, hn⟩ := h.processed e (List.mem_toFinset.1 he)
    obtain ⟨r, hr, hp⟩ := h.reached n hn
    exact Finset.mem_image_of_mem _ (hs r hr n hp)
  have hle (e : Round N) (he : e ∈ es.toFinset) : es.count e ≤ 2 := by
    obtain ⟨n, rfl, _⟩ := h.processed e (List.mem_toFinset.1 he)
    exact h.twice n
  calc es.length = ∑ e ∈ es.toFinset, es.count e := (List.sum_toFinset_count_eq_length es).symm
    _ ≤ ∑ _e ∈ es.toFinset, 2 := Finset.sum_le_sum hle
    _ = 2 * es.toFinset.card := by rw [Finset.sum_const_nat fun _ _ => rfl, Nat.mul_comm]
    _ ≤ 2 * s.card :=
        Nat.mul_le_mul_left 2 ((Finset.card_le_card hsub).trans Finset.card_image_le)

/-- The statuses at the end do not depend on the order of the roots or of the dependents. -/
theorem run_resolves_wellFounded (deps : N → List N) (hdeps : ∀ n, (deps n).Nodup)
    (hfin : {p : N × N | DependsOn deps p.1 p.2}.Finite) (roots : List N) :
    (∃ bound, ∀ es w, Run (RunRound deps) (addRoots roots) es w → es.length ≤ bound) ∧
    ∀ es w, Run (RunRound deps) (addRoots roots) es w →
      (∀ n rest, w.worklist = n :: rest →
        (w.state n).kind = .active ∧ ∃ e w', RunRound deps w e w') ∧
      (∀ n, es.count (.process n) ≤ 2) ∧
      (w.worklist = [] → ∀ n,
        ((w.state n).kind ≠ .uninitialized ↔
          ∃ r ∈ roots, ReflTransGen (DependsOn deps) r n) ∧
        ((w.state n).kind = .resolved ↔
          (w.state n).kind ≠ .uninitialized ∧ ¬ CycleFrom (DependsOn deps) n) ∧
        ((w.state n).kind = .blocked ↔
          (w.state n).kind ≠ .uninitialized ∧ CycleFrom (DependsOn deps) n)) := by
  have hinv (es w) (hr : Run (RunRound deps) (addRoots roots) es w) :
      DepsInv deps roots es w := by
    simpa using (DepsInv.start deps roots).run hdeps hr
  constructor
  · have hreach : {x | ∃ r ∈ roots, ReflTransGen (DependsOn deps) r x}.Finite := by
      have hu := Set.Finite.biUnion (List.finite_toSet roots) fun r _ => reached_finite deps hfin r
      refine hu.subset fun x hx => ?_
      obtain ⟨r, hr, hp⟩ := hx
      exact Set.mem_biUnion hr hp
    refine ⟨2 * hreach.toFinset.card, fun es w hr => ?_⟩
    exact (hinv es w hr).length_le _ fun r hr x hp => hreach.mem_toFinset.2 ⟨r, hr, hp⟩
  · intro es w hr
    have h := hinv es w hr
    refine ⟨fun n rest hl => ⟨(h.front hl).1, h.progress hl⟩, h.twice, fun hl n => ?_⟩
    have hactive : (w.state n).kind ≠ .active := by
      intro hk
      have hm := (h.active n).2 hk
      rw [hl] at hm
      exact List.not_mem_nil hm
    have hresolved (hk : (w.state n).kind = .resolved) : ¬ CycleFrom (DependsOn deps) n :=
      not_cycleFrom_of_acc (h.acc n hk)
    have hblocked (hk : (w.state n).kind = .blocked) : CycleFrom (DependsOn deps) n := by
      by_contra hc
      exact h.not_acc_of_blocked hl (acc_of_not_cycleFrom (reached_finite deps hfin n) hc) hk
    refine ⟨⟨h.reached n, fun ⟨r, hr, hp⟩ => h.seen_reached hl hr hp⟩, ?_, ?_⟩
    · cases hk : (w.state n).kind <;> simp_all
    · cases hk : (w.state n).kind <;> simp_all

/-- Node 0 waits for node 1, which waits for nothing. -/
theorem run_resolves_wellFounded_two :
    let deps : Nat → List Nat := fun n => if n = 0 then [1] else []
    (∀ n, (deps n).Nodup) ∧ {p : Nat × Nat | DependsOn deps p.1 p.2}.Finite ∧
    ∃ bound, ∀ es w, Run (RunRound deps) (addRoots [0]) es w → es.length ≤ bound := by
  intro deps
  have hdeps (n : Nat) : (deps n).Nodup := by
    by_cases hn : n = 0 <;> simp [deps, hn]
  have hfin : {p : Nat × Nat | DependsOn deps p.1 p.2}.Finite := by
    refine (Set.finite_singleton (0, 1)).subset fun p hp => ?_
    obtain ⟨n, o⟩ := p
    by_cases hn : n = 0 <;> simp_all [DependsOn, deps]
  exact ⟨hdeps, hfin, (run_resolves_wellFounded deps hdeps hfin [0]).1⟩

end Trieste
