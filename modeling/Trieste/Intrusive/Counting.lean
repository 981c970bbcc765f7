import Mathlib.Data.List.Nodup
import Mathlib.Data.List.Perm.Basic
import Trieste.Intrusive
import Trieste.Library.Fuel

namespace Trieste.Intrusive
set_option autoImplicit true
open Library

theorem countP_change [DecidableEq α] {l : List α} (f g : α → Bool) (hnodup : l.Nodup)
    (ha : a ∈ l) (hfg : ∀ b ∈ l, b ≠ a → f b = g b) :
    l.countP f + (if g a then 1 else 0) = l.countP g + (if f a then 1 else 0) := by
  have hperm := List.perm_cons_erase ha
  have hrest : (l.erase a).countP f = (l.erase a).countP g := by
    apply List.countP_congr
    intro b hb
    obtain ⟨hne, hb⟩ := hnodup.mem_erase_iff.1 hb
    rw [hfg b hb hne]
  rw [hperm.countP_eq f, hperm.countP_eq g, List.countP_cons, List.countP_cons, hrest]
  omega

variable {Kind : Type} [DecidableEq Kind]

/-- The number of handles that point to the object. -/
def Store.refs (s : Store Kind) (ref : Handle Kind → Option (Object Kind)) (o : Object Kind) : Nat :=
  s.handles.countP fun h => ref h = some o

/-- The number of objects with references. -/
def Store.used (s : Store Kind) : Nat := s.objects.countP fun o => s.intrusiveRefcount o ≠ 0

/-- Each count is the number of handles that point to the object, and one more where a reference
is owed. -/
structure Counted (ref : Handle Kind → Option (Object Kind)) (owed : Option (Object Kind))
    (s : Store Kind) : Prop where
  handles : s.handles.Nodup
  objects : s.objects.Nodup
  count : ∀ o ∈ s.objects, s.intrusiveRefcount o = s.refs ref o + if owed = some o then 1 else 0
  target : ∀ h ∈ s.handles, ∀ o, ref h = some o → o ∈ s.objects
  owner : ∀ h ∈ s.handles, ∀ o, h.owner = some o → o ∈ s.objects
  deleted : s.deleted.Nodup
  gone : ∀ o ∈ s.deleted, o ∉ s.objects

variable {s s' : Store Kind} {ref ref' : Handle Kind → Option (Object Kind)}
  {owed v : Option (Object Kind)} {h : Handle Kind} {o p : Object Kind}

theorem refs_change (hnodup : s.handles.Nodup) (hh : h ∈ s.handles)
    (hsame : ∀ h' ∈ s.handles, h' ≠ h → ref h' = ref' h') (o : Object Kind) :
    s.refs ref o + (if ref' h = some o then 1 else 0) =
      s.refs ref' o + if ref h = some o then 1 else 0 := by
  have hchange := countP_change (fun h' => decide (ref h' = some o))
    (fun h' => decide (ref' h' = some o)) hnodup hh fun h' hh' hne => by rw [hsame h' hh' hne]
  simpa only [Store.refs, decide_eq_true_eq] using hchange

theorem refs_congr (hsame : ∀ h ∈ s.handles, ref h = ref' h) (o : Object Kind) :
    s.refs ref o = s.refs ref' o := by
  apply List.countP_congr
  intro h hh
  rw [hsame h hh]

theorem refs_forget (hh : h ∈ s.handles) (hnone : ref h = none) (o : Object Kind) :
    (s.forget h).refs ref o = s.refs ref o := by
  have hperm := List.perm_cons_erase hh
  rw [Store.refs, Store.refs, hperm.countP_eq, List.countP_cons, hnone]
  rfl

theorem refs_construct (hnew : h ∉ s.handles) (v : Option (Object Kind)) (o : Object Kind) :
    (s.construct h v).refs (Function.update ref h v) o =
      s.refs ref o + if v = some o then 1 else 0 := by
  have hsame : ∀ h' ∈ s.handles, Function.update ref h v h' = ref h' := by
    intro h' hh'
    have hne : h' ≠ h := fun heq => hnew (heq ▸ hh')
    exact Function.update_of_ne hne v ref
  have hrest := refs_congr hsame o
  rw [Store.refs] at hrest
  rw [Store.refs, Store.construct, List.countP_cons, hrest, Function.update_self]
  simp only [decide_eq_true_eq]

theorem refs_pos (hh : h ∈ s.handles) (hp : ref h = some o) : 0 < s.refs ref o := by
  apply List.countP_pos_iff.2
  exact ⟨h, hh, decide_eq_true hp⟩

theorem refs_eq_zero (hout : ∀ h ∈ s.handles, ref h ≠ some o) : s.refs ref o = 0 := by
  apply List.countP_eq_zero.2
  intro h hh htrue
  exact hout h hh (of_decide_eq_true htrue)

theorem used_setRefcount_zero (hnodup : s.objects.Nodup) (hp : p ∈ s.objects)
    (hcount : s.intrusiveRefcount p ≠ 0) : (s.setRefcount p 0).used + 1 = s.used := by
  have hsame : ∀ o ∈ s.objects, o ≠ p →
      (s.setRefcount p 0).intrusiveRefcount o = s.intrusiveRefcount o := fun o _ hne =>
    Function.update_of_ne hne 0 s.intrusiveRefcount
  have hchange := countP_change (fun o => decide ((s.setRefcount p 0).intrusiveRefcount o ≠ 0))
    (fun o => decide (s.intrusiveRefcount o ≠ 0)) hnodup hp fun o ho hne => by rw [hsame o ho hne]
  have hzero : (s.setRefcount p 0).intrusiveRefcount p = 0 := Function.update_self ..
  simp only [hzero, hcount, ne_eq, not_true_eq_false, not_false_eq_true, decide_false, decide_true,
    if_true, Bool.false_eq_true, if_false] at hchange
  exact hchange

namespace Counted

theorem congr (hc : Counted ref owed s) (hsame : ∀ h ∈ s.handles, ref' h = ref h) :
    Counted ref' owed s := by
  refine ⟨hc.handles, hc.objects, fun o ho => ?_, fun h hh o hp => ?_, hc.owner, hc.deleted, hc.gone⟩
  · rw [refs_congr hsame]
    exact hc.count o ho
  · exact hc.target h hh o ((hsame h hh).symm.trans hp)

theorem setPtr_out (hc : Counted ref owed s) (h : Handle Kind) (v : Option (Object Kind)) :
    Counted ref owed (s.setPtr h v) :=
  ⟨hc.handles, hc.objects, hc.count, hc.target, hc.owner, hc.deleted, hc.gone⟩

/-- A handle takes the reference that is owed, and its old one is owed then. -/
theorem setPtr (hc : Counted ref owed s) (hh : h ∈ s.handles) (hv : ∀ o, owed = some o → o ∈ s.objects) :
    Counted (Function.update ref h owed) (ref h) (s.setPtr h owed) := by
  refine ⟨hc.handles, hc.objects, fun o ho => ?_, fun h' hh' o hp => ?_, hc.owner, hc.deleted,
    hc.gone⟩
  · have hchange := refs_change hc.handles hh
      (fun h' _ hne => Function.update_of_ne hne owed ref) o
    rw [Function.update_self] at hchange
    have hcount := hc.count o ho
    change s.intrusiveRefcount o = s.refs (Function.update ref h owed) o + _
    omega
  · by_cases heq : h' = h
    · subst heq
      rw [Function.update_self] at hp
      exact hv o hp
    · rw [Function.update_of_ne heq] at hp
      exact hc.target h' hh' o hp

theorem increment (hc : Counted ref none s) (p : Object Kind) :
    Counted ref (some p) (s.setRefcount p (s.intrusiveRefcount p + 1)) := by
  refine ⟨hc.handles, hc.objects, fun o ho => ?_, hc.target, hc.owner, hc.deleted, hc.gone⟩
  have hcount := hc.count o ho
  rw [if_neg nofun, Nat.add_zero] at hcount
  change Function.update s.intrusiveRefcount p _ o = s.refs ref o + _
  by_cases heq : o = p
  · subst heq
    rw [Function.update_self, if_pos rfl, hcount]
  · rw [Function.update_of_ne heq, if_neg fun h => heq (Option.some.inj h).symm, hcount]
    rfl

theorem decrement (hc : Counted ref (some p) s) :
    Counted ref none (s.setRefcount p (s.intrusiveRefcount p - 1)) := by
  refine ⟨hc.handles, hc.objects, fun o ho => ?_, hc.target, hc.owner, hc.deleted, hc.gone⟩
  have hcount := hc.count o ho
  change Function.update s.intrusiveRefcount p _ o = s.refs ref o + _
  by_cases heq : o = p
  · subst heq
    rw [if_pos rfl] at hcount
    rw [Function.update_self, if_neg nofun, hcount]
    rfl
  · rw [if_neg fun h => heq (Option.some.inj h).symm] at hcount
    rw [Function.update_of_ne heq, if_neg nofun, hcount]

theorem forget (hc : Counted ref owed s) (hh : h ∈ s.handles) (hnone : ref h = none) :
    Counted ref owed (s.forget h) := by
  refine ⟨hc.handles.erase h, hc.objects, fun o ho => ?_, fun h' hh' => ?_, fun h' hh' => ?_,
    hc.deleted, hc.gone⟩
  · rw [refs_forget hh hnone]
    exact hc.count o ho
  · exact hc.target h' (List.mem_of_mem_erase hh')
  · exact hc.owner h' (List.mem_of_mem_erase hh')

/-- A new handle takes the reference that is owed. -/
theorem construct (hc : Counted ref owed s) (hroom : s.HasRoom h)
    (hv : ∀ o, owed = some o → o ∈ s.objects) :
    Counted (Function.update ref h owed) none (s.construct h owed) := by
  refine ⟨List.nodup_cons.2 ⟨hroom.1, hc.handles⟩, hc.objects, fun o ho => ?_, fun h' hh' o hp => ?_,
    fun h' hh' o ho => ?_, hc.deleted, hc.gone⟩
  · rw [refs_construct hroom.1]
    exact hc.count o ho
  · by_cases heq : h' = h
    · subst heq
      rw [Function.update_self] at hp
      exact hv o hp
    · rw [Function.update_of_ne heq] at hp
      exact hc.target h' ((List.mem_cons.1 hh').resolve_left heq) o hp
  · rcases List.mem_cons.1 hh' with rfl | hh'
    · exact hroom.2 o ho
    · exact hc.owner h' hh' o ho

theorem allocate (hc : Counted ref none s) (ho : o ∉ s.objects) (hgone : o ∉ s.deleted) :
    Counted ref none (s.allocate o) := by
  refine ⟨hc.handles, List.nodup_cons.2 ⟨ho, hc.objects⟩, fun p hp => ?_, fun h hh p hp => ?_,
    fun h hh p hp => ?_, hc.deleted, fun p hp hin => ?_⟩
  · change Function.update s.intrusiveRefcount o 0 p = s.refs ref p + _
    by_cases heq : p = o
    · subst heq
      rw [Function.update_self, refs_eq_zero fun h hh hp => ho (hc.target h hh p hp)]
      rfl
    · rw [Function.update_of_ne heq]
      exact hc.count p ((List.mem_cons.1 hp).resolve_left heq)
  · exact List.mem_cons_of_mem o (hc.target h hh p hp)
  · exact List.mem_cons_of_mem o (hc.owner h hh p hp)
  · rcases List.mem_cons.1 hin with rfl | hin
    · exact hgone hp
    · exact hc.gone p hp hin

/-- An object without references and members goes. -/
theorem free (hc : Counted ref none s) (ho : o ∈ s.objects) (hzero : s.intrusiveRefcount o = 0)
    (hmembers : ∀ h ∈ s.handles, h.owner ≠ some o) : Counted ref none (s.free o) := by
  have hunused : ∀ h ∈ s.handles, ref h ≠ some o := by
    intro h hh hp
    have hpos := refs_pos hh hp
    have hcount := hc.count o ho
    rw [if_neg nofun] at hcount
    omega
  have hother : ∀ p, p ∈ s.objects.erase o ↔ p ≠ o ∧ p ∈ s.objects := fun p =>
    hc.objects.mem_erase_iff
  refine ⟨hc.handles, hc.objects.erase o, fun p hp => ?_, fun h hh p hp => ?_,
    fun h hh p hp => ?_, ?_, fun p hp hin => ?_⟩
  · exact hc.count p ((hother p).1 hp).2
  · exact (hother p).2 ⟨fun heq => hunused h hh (heq ▸ hp), hc.target h hh p hp⟩
  · exact (hother p).2 ⟨fun heq => hmembers h hh (heq ▸ hp), hc.owner h hh p hp⟩
  · apply List.Nodup.append hc.deleted (List.nodup_singleton o)
    intro p hp heq
    rw [List.mem_singleton] at heq
    exact hc.gone p hp (heq ▸ ho)
  · obtain ⟨hne, hin⟩ := (hother p).1 hin
    rcases List.mem_append.1 hp with hp | hp
    · exact hc.gone p hp hin
    · exact hne (List.mem_singleton.1 hp)

end Counted

end Trieste.Intrusive
