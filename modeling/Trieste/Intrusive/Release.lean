import Trieste.Intrusive.Counting

namespace Trieste.Intrusive
set_option autoImplicit true
open Library

variable {Kind : Type}

def Store.Listed (s : Store Kind) (o : Object Kind) : Prop :=
  ∃ workList, s.workList o.type = some workList ∧ o ∈ workList

/-- A work list has at most grown, by objects that have lost their references. -/
def GrownAt (s s' : Store Kind) (type : Kind) : Prop :=
  (s.workList type = none → s'.workList type = none) ∧
    ∀ workList, s.workList type = some workList →
      ∃ new, s'.workList type = some (workList ++ new) ∧ s'.used + new.length ≤ s.used

variable {s s' s₁ s₂ : Store Kind} {type : Kind}

theorem GrownAt.of_same (hlist : s'.workList type = s.workList type) (hused : s'.used ≤ s.used) :
    GrownAt s s' type :=
  ⟨fun hnone => hlist.trans hnone, fun _ hsome => ⟨[], by rw [List.append_nil, hlist, hsome], hused⟩⟩

theorem GrownAt.trans (hg : GrownAt s s₁ type) (hg' : GrownAt s₁ s₂ type) : GrownAt s s₂ type := by
  refine ⟨fun hnone => hg'.1 (hg.1 hnone), fun workList hsome => ?_⟩
  obtain ⟨new, hnew, hle⟩ := hg.2 workList hsome
  obtain ⟨new', hnew', hle'⟩ := hg'.2 _ hnew
  refine ⟨new ++ new', by rw [hnew', List.append_assoc], ?_⟩
  rw [List.length_append]
  omega

variable [DecidableEq Kind]

/-- The state of a release: the objects without references are those in the work lists and those
whose destructors run. It reaches only objects whose handles are as the counts say. -/
structure Working (reach : Object Kind → Prop) (ref : Handle Kind → Option (Object Kind))
    (owed : Option (Object Kind)) (dying : List (Object Kind)) (s : Store Kind) : Prop
    extends Counted ref owed s where
  idle : ∀ o ∈ s.objects, s.intrusiveRefcount o = 0 ↔ o ∈ dying ∨ s.Listed o
  listed : ∀ type workList, s.workList type = some workList → workList.Nodup ∧
    ∀ o ∈ workList, o.type = type ∧ o ∈ s.objects ∧ o ∉ dying ∧ reach o
  closed : ∀ h ∈ s.handles, ∀ o p, h.owner = some o → reach o → ref h = some p → reach p
  agrees : ∀ h ∈ s.handles, ∀ o, h.owner = some o → reach o → o ∉ dying → s.ptr h = ref h
  calls : ∀ type, s.calls type = if (s.workList type).isSome then 1 else 0
  deepest : s.deepest ≤ 2

/-- What is gone and what is left after a part of a release. -/
structure Released (reach : Object Kind → Prop) (ref : Handle Kind → Option (Object Kind))
    (dying : List (Object Kind)) (destroyed : List (Handle Kind)) (freed : List (Object Kind))
    (s s' : Store Kind) : Prop extends Working reach ref none dying s' where
  kept : ∀ h, h ∈ s'.handles ↔ h ∈ s.handles ∧ h ∉ destroyed ∧ ∀ o ∈ freed, h.owner ≠ some o
  ptr : ∀ h ∈ s'.handles, s'.ptr h = s.ptr h
  left : ∀ o, o ∈ s'.objects ↔ o ∈ s.objects ∧ o ∉ freed
  log : s'.deleted = s.deleted ++ freed
  inside : ∀ o ∈ freed, o ∈ s.objects ∧ reach o ∧ o ∉ dying
  less : s'.used ≤ s.used

variable {ref ref' : Handle Kind → Option (Object Kind)}
  {owed : Option (Object Kind)} {dying dying' freed freed' : List (Object Kind)}
  {destroyed destroyed' : List (Handle Kind)} {reach : Object Kind → Prop} {h : Handle Kind}
  {o p : Object Kind} {workList : List (Object Kind)}

namespace Released

theorem of_working (hw : Working reach ref none dying s') (hhandles : s'.handles = s.handles)
    (hptr : s'.ptr = s.ptr) (hobjects : s'.objects = s.objects) (hlog : s'.deleted = s.deleted)
    (hless : s'.used ≤ s.used) : Released reach ref dying [] [] s s' := by
  refine ⟨hw, fun h => ?_, fun h _ => by rw [hptr], fun o => ?_, ?_, fun _ ho => (nomatch ho), hless⟩
  · rw [hhandles]
    exact ⟨fun hh => ⟨hh, List.not_mem_nil, fun _ ho => nomatch ho⟩, And.left⟩
  · rw [hobjects]
    exact ⟨fun ho => ⟨ho, List.not_mem_nil⟩, And.left⟩
  · rw [hlog, List.append_nil]

theorem refl (hw : Working reach ref none dying s) : Released reach ref dying [] [] s s :=
  of_working hw rfl rfl rfl rfl (Nat.le_refl _)

theorem trans (hr : Released reach ref' dying destroyed freed s s₁)
    (hr' : Released reach ref dying destroyed' freed' s₁ s₂) :
    Released reach ref dying (destroyed ++ destroyed') (freed ++ freed') s s₂ := by
  refine ⟨hr'.toWorking, fun h => ?_, fun h hh => ?_, fun o => ?_, ?_, fun o ho => ?_,
    Nat.le_trans hr'.less hr.less⟩
  · rw [hr'.kept, hr.kept, List.mem_append]
    constructor
    · intro hh
      obtain ⟨⟨hh, hgone, hfreed⟩, hgone', hfreed'⟩ := hh
      refine ⟨hh, not_or.2 ⟨hgone, hgone'⟩, fun o ho => ?_⟩
      exact (List.mem_append.1 ho).elim (hfreed o) (hfreed' o)
    · intro hh
      obtain ⟨hh, hgone, hfreed⟩ := hh
      obtain ⟨hgone, hgone'⟩ := not_or.1 hgone
      exact ⟨⟨hh, hgone, fun o ho => hfreed o (List.mem_append_left _ ho)⟩, hgone',
        fun o ho => hfreed o (List.mem_append_right _ ho)⟩
  · rw [hr'.ptr h hh, hr.ptr h ((hr'.kept h).1 hh).1]
  · rw [hr'.left, hr.left, List.mem_append, not_or, and_assoc]
  · rw [hr'.log, hr.log, List.append_assoc]
  · rcases List.mem_append.1 ho with ho | ho
    · exact hr.inside o ho
    · obtain ⟨hin, hrest⟩ := hr'.inside o ho
      exact ⟨((hr.left o).1 hin).1, hrest⟩

end Released

namespace Working

theorem congr (hw : Working reach ref owed dying s) (hsame : ∀ h ∈ s.handles, ref' h = ref h) :
    Working reach ref' owed dying s := by
  refine ⟨hw.toCounted.congr hsame, hw.idle, hw.listed, fun h hh o p ho hreach hp => ?_,
    fun h hh o ho hreach hout => ?_, hw.calls, hw.deepest⟩
  · exact hw.closed h hh o p ho hreach ((hsame h hh).symm.trans hp)
  · exact (hw.agrees h hh o ho hreach hout).trans (hsame h hh).symm

theorem forget (hw : Working reach ref none dying s) (hh : h ∈ s.handles) (hnone : ref h = none) :
    Working reach ref none dying (s.forget h) := by
  refine ⟨hw.toCounted.forget hh hnone, hw.idle, hw.listed, fun h' hh' => ?_, fun h' hh' => ?_,
    hw.calls, hw.deepest⟩
  · exact hw.closed h' (List.mem_of_mem_erase hh')
  · exact hw.agrees h' (List.mem_of_mem_erase hh')

/-- The pointer of a handle that is gone. -/
theorem setPtr (hw : Working reach ref owed dying s) (hout : h ∉ s.handles)
    (v : Option (Object Kind)) : Working reach ref owed dying (s.setPtr h v) := by
  refine ⟨hw.toCounted.setPtr_out h v, hw.idle, hw.listed, hw.closed, fun h' hh' o ho hreach hdying => ?_,
    hw.calls, hw.deepest⟩
  have hne : h' ≠ h := fun heq => hout (heq ▸ hh')
  exact (Function.update_of_ne hne v s.ptr).trans (hw.agrees h' hh' o ho hreach hdying)

/-- The reference of a handle that is being destroyed is owed. -/
theorem owe (hw : Working reach ref none dying s) (hh : h ∈ s.handles)
    (hskip : ∀ o, h.owner = some o → reach o → o ∈ dying) :
    Working reach (Function.update ref h none) (ref h) dying s := by
  have hne : ∀ h' o, h'.owner = some o → reach o → o ∉ dying → h' ≠ h := by
    intro h' o ho hreach hdying heq
    subst heq
    exact hdying (hskip o ho hreach)
  have hc := (hw.toCounted.setPtr hh fun _ ho => nomatch ho).setPtr_out h (s.ptr h)
  have hback : (s.setPtr h none).setPtr h (s.ptr h) = s := by
    simp only [Store.setPtr, Function.update_idem, Function.update_eq_self]
  rw [hback] at hc
  refine ⟨hc, hw.idle, hw.listed, fun h' hh' o p ho hreach hp => ?_,
    fun h' hh' o ho hreach hdying => ?_, hw.calls, hw.deepest⟩
  · by_cases heq : h' = h
    · subst heq
      rw [Function.update_self] at hp
      cases hp
    · rw [Function.update_of_ne heq] at hp
      exact hw.closed h' hh' o p ho hreach hp
  · rw [Function.update_of_ne (hne h' o ho hreach hdying)]
    exact hw.agrees h' hh' o ho hreach hdying

theorem not_idle (hw : Working reach ref (some p) dying s) (hp : p ∈ s.objects) :
    0 < s.intrusiveRefcount p ∧ p ∉ dying ∧ ¬ s.Listed p := by
  have hcount := hw.count p hp
  rw [if_pos rfl] at hcount
  have hpos : 0 < s.intrusiveRefcount p := by omega
  have hout := fun hidle => Nat.ne_of_gt hpos ((hw.idle p hp).2 hidle)
  exact ⟨hpos, fun hd => hout (.inl hd), fun hl => hout (.inr hl)⟩

/-- Other references to the object are left. -/
theorem decrement (hw : Working reach ref (some p) dying s) (hp : p ∈ s.objects)
    (hcount : s.intrusiveRefcount p ≠ 1) :
    Working reach ref none dying (s.setRefcount p (s.intrusiveRefcount p - 1)) := by
  obtain ⟨hpos, hdying, hlisted⟩ := hw.not_idle hp
  refine ⟨hw.toCounted.decrement, fun o ho => ?_, hw.listed, hw.closed, hw.agrees, hw.calls,
    hw.deepest⟩
  change Function.update s.intrusiveRefcount p _ o = 0 ↔ o ∈ dying ∨ s.Listed o
  by_cases heq : o = p
  · subst heq
    rw [Function.update_self]
    refine ⟨fun hzero => by omega, fun hidle => ?_⟩
    exact (hidle.elim hdying hlisted).elim
  · rw [Function.update_of_ne heq]
    exact hw.idle o ho

theorem enlist (hw : Working reach ref (some p) dying s) (hp : p ∈ s.objects)
    (hcount : s.intrusiveRefcount p = 1) (hreach : reach p)
    (hlist : (s.workList p.type).getD [] = workList) {calls : Kind → Nat} {deepest : Nat}
    (hcalls : ∀ type, calls type =
      if (Function.update s.workList p.type (some (workList ++ [p])) type).isSome then 1 else 0)
    (hdeepest : deepest ≤ 2) :
    Working reach ref none dying { (s.setRefcount p 0).setWorkList p.type (some (workList ++ [p])) with
      calls, deepest } := by
  obtain ⟨-, hdying, hunlisted⟩ := hw.not_idle hp
  have hc := hw.toCounted.decrement
  rw [hcount] at hc
  have hold : ∀ o ∈ workList, s.Listed o ∧ o.type = p.type ∧ o ∈ s.objects ∧ o ∉ dying ∧ reach o := by
    intro o ho
    cases hsome : s.workList p.type with
    | none =>
      rw [← hlist, hsome] at ho
      cases ho
    | some workList' =>
      rw [hsome] at hlist
      have hlist : workList' = workList := hlist
      subst hlist
      have hin := (hw.listed p.type workList' hsome).2 o ho
      exact ⟨⟨workList', by rw [hin.1, hsome], ho⟩, hin⟩
  have hnodup : workList.Nodup := by
    cases hsome : s.workList p.type with
    | none =>
      rw [← hlist, hsome]
      exact List.nodup_nil
    | some workList' =>
      rw [← hlist, hsome]
      exact (hw.listed p.type workList' hsome).1
  refine ⟨⟨hc.handles, hc.objects, hc.count, hc.target, hc.owner, hc.deleted, hc.gone⟩,
    fun o ho => ?_, fun type workList' hsome => ?_, hw.closed, hw.agrees, hcalls, hdeepest⟩
  · change Function.update s.intrusiveRefcount p 0 o = 0 ↔ o ∈ dying ∨
      ∃ workList', Function.update s.workList p.type (some (workList ++ [p])) o.type = some workList' ∧
        o ∈ workList'
    by_cases heq : o = p
    · subst heq
      rw [Function.update_self, Function.update_self]
      exact ⟨fun _ => .inr ⟨_, rfl, List.mem_append_right _ (List.mem_singleton_self o)⟩, fun _ => rfl⟩
    · rw [Function.update_of_ne heq, hw.idle o ho]
      apply or_congr_right
      by_cases htype : o.type = p.type
      · rw [htype, Function.update_self]
        constructor
        · intro hl
          obtain ⟨workList', hsome, hin⟩ := hl
          rw [htype] at hsome
          rw [hsome] at hlist
          have hlist : workList' = workList := hlist
          exact ⟨_, rfl, List.mem_append_left _ (hlist ▸ hin)⟩
        · intro hl
          obtain ⟨workList', hsome, hin⟩ := hl
          cases hsome
          rcases List.mem_append.1 hin with hin | hin
          · exact (hold o hin).1
          · exact absurd (List.mem_singleton.1 hin) heq
      · rw [Function.update_of_ne htype]
        rfl
  · change Function.update s.workList p.type (some (workList ++ [p])) type = some workList' at hsome
    by_cases htype : type = p.type
    · subst htype
      rw [Function.update_self] at hsome
      cases hsome
      refine ⟨?_, fun o ho => ?_⟩
      · apply List.Nodup.append hnodup (List.nodup_singleton p)
        intro o ho heq
        rw [List.mem_singleton] at heq
        exact hunlisted (heq ▸ (hold o ho).1)
      · rcases List.mem_append.1 ho with ho | ho
        · exact (hold o ho).2
        · rw [List.mem_singleton] at ho
          subst ho
          exact ⟨rfl, hp, hdying, hreach⟩
    · rw [Function.update_of_ne htype] at hsome
      exact hw.listed type workList' hsome

/-- The next object is taken from the work list. -/
theorem pop (hw : Working reach ref none dying s) (hlist : s.workList type = some (workList ++ [o])) :
    Working reach ref none (o :: dying) (s.setWorkList type (some workList)) ∧ o.type = type ∧
      o ∈ s.objects ∧ o ∉ dying ∧ reach o := by
  obtain ⟨hnodup, hin⟩ := hw.listed type _ hlist
  obtain ⟨htype, ho, hdying, hreach⟩ := hin o (List.mem_append_right _ (List.mem_singleton_self o))
  have hout : o ∉ workList := by
    intro hm
    exact (List.disjoint_of_nodup_append hnodup) hm (List.mem_singleton_self o)
  refine ⟨⟨⟨hw.handles, hw.objects, hw.count, hw.target, hw.owner, hw.deleted, hw.gone⟩,
    fun p hp => ?_, fun type' workList' hsome => ?_, hw.closed, fun h hh p hp hreach hout => ?_,
    fun type' => ?_, hw.deepest⟩, htype, ho, hdying, hreach⟩
  · change s.intrusiveRefcount p = 0 ↔ p ∈ o :: dying ∨
      ∃ workList', Function.update s.workList type (some workList) p.type = some workList' ∧
        p ∈ workList'
    rw [hw.idle p hp, List.mem_cons, or_assoc]
    by_cases heq : p = o
    · subst heq
      exact ⟨fun _ => .inl rfl, fun _ => .inr ⟨_, htype ▸ hlist,
        List.mem_append_right _ (List.mem_singleton_self p)⟩⟩
    · rw [or_iff_right heq]
      apply or_congr_right
      by_cases htype' : p.type = type
      · rw [htype', Function.update_self]
        constructor
        · intro hl
          obtain ⟨workList', hsome, hm⟩ := hl
          rw [htype', hlist] at hsome
          cases hsome
          refine ⟨_, rfl, (List.mem_append.1 hm).resolve_right fun hm => heq (List.mem_singleton.1 hm)⟩
        · intro hl
          obtain ⟨workList', hsome, hm⟩ := hl
          cases hsome
          exact ⟨_, htype' ▸ hlist, List.mem_append_left _ hm⟩
      · rw [Function.update_of_ne htype']
        rfl
  · change Function.update s.workList type (some workList) type' = some workList' at hsome
    have hne : ∀ p ∈ workList', p ≠ o → p ∉ dying → p ∉ o :: dying := fun p _ hne hout hm =>
      (List.mem_cons.1 hm).elim hne hout
    by_cases htype' : type' = type
    · subst htype'
      rw [Function.update_self] at hsome
      cases hsome
      refine ⟨hnodup.sublist (List.sublist_append_left _ _), fun p hm => ?_⟩
      obtain ⟨hptype, hp, hpout, hpreach⟩ := hin p (List.mem_append_left _ hm)
      exact ⟨hptype, hp, hne p hm (fun heq => hout (heq ▸ hm)) hpout, hpreach⟩
    · rw [Function.update_of_ne htype'] at hsome
      obtain ⟨hnodup', hin'⟩ := hw.listed type' workList' hsome
      refine ⟨hnodup', fun p hm => ?_⟩
      obtain ⟨hptype, hp, hpout, hpreach⟩ := hin' p hm
      have hpo : p ≠ o := fun heq => htype' (hptype.symm.trans (heq ▸ htype))
      exact ⟨hptype, hp, hne p hm hpo hpout, hpreach⟩
  · exact hw.agrees h hh p hp hreach fun hd => hout (List.mem_cons_of_mem o hd)
  · change s.calls type' = if (Function.update s.workList type (some workList) type').isSome then 1 else 0
    rw [hw.calls]
    by_cases htype' : type' = type
    · rw [htype', Function.update_self, hlist]
      rfl
    · rw [Function.update_of_ne htype']

/-- The outer call returns with an empty work list. -/
theorem close (hw : Working reach ref none dying s) (hlist : s.workList type = some []) :
    Working reach ref none dying ((s.setWorkList type none).leave type) := by
  refine ⟨⟨hw.handles, hw.objects, hw.count, hw.target, hw.owner, hw.deleted, hw.gone⟩,
    fun o ho => ?_, fun type' workList hsome => ?_, hw.closed, hw.agrees, fun type' => ?_, hw.deepest⟩
  · change s.intrusiveRefcount o = 0 ↔ o ∈ dying ∨
      ∃ workList, Function.update s.workList type none o.type = some workList ∧ o ∈ workList
    rw [hw.idle o ho]
    apply or_congr_right
    by_cases htype : o.type = type
    · rw [htype, Function.update_self]
      refine ⟨fun hl => ?_, fun hl => ?_⟩
      · obtain ⟨workList, hsome, hm⟩ := hl
        rw [htype, hlist] at hsome
        cases hsome
        cases hm
      · obtain ⟨workList, hsome, -⟩ := hl
        cases hsome
    · rw [Function.update_of_ne htype]
      rfl
  · change Function.update s.workList type none type' = some workList at hsome
    by_cases htype : type' = type
    · subst htype
      rw [Function.update_self] at hsome
      cases hsome
    · rw [Function.update_of_ne htype] at hsome
      exact hw.listed type' workList hsome
  · change Function.update s.calls type (s.calls type - 1) type' =
      if (Function.update s.workList type none type').isSome then 1 else 0
    by_cases htype : type' = type
    · rw [htype, Function.update_self, Function.update_self, hw.calls, hlist]
      rfl
    · rw [Function.update_of_ne htype, Function.update_of_ne htype, hw.calls]

/-- The destructor of an object ends. -/
theorem free (hw : Working reach ref none (o :: dying) s) (ho : o ∈ s.objects)
    (hmembers : ∀ h ∈ s.handles, h.owner ≠ some o) :
    Working reach ref none dying (s.free o) := by
  have hzero : s.intrusiveRefcount o = 0 := (hw.idle o ho).2 (.inl List.mem_cons_self)
  have hother : ∀ p, p ∈ s.objects.erase o ↔ p ≠ o ∧ p ∈ s.objects := fun p =>
    hw.objects.mem_erase_iff
  refine ⟨hw.toCounted.free ho hzero hmembers, fun p hp => ?_, fun type workList hsome => ?_,
    hw.closed, fun h hh p hp hreach hout => ?_, hw.calls, hw.deepest⟩
  · obtain ⟨hne, hp⟩ := (hother p).1 hp
    have hidle := hw.idle p hp
    rw [List.mem_cons, or_iff_right hne] at hidle
    exact hidle
  · obtain ⟨hnodup, hin⟩ := hw.listed type workList hsome
    refine ⟨hnodup, fun p hm => ?_⟩
    obtain ⟨htype, hp, hout, hreach⟩ := hin p hm
    obtain ⟨hne, hout⟩ := not_or.1 fun hd => hout (List.mem_cons.2 hd)
    exact ⟨htype, (hother p).2 ⟨hne, hp⟩, hout, hreach⟩
  · apply hw.agrees h hh p hp hreach
    intro hd
    rcases List.mem_cons.1 hd with rfl | hd
    · exact hmembers h hh hp
    · exact hout hd

end Working

namespace Released

theorem forget (hw : Working reach ref none dying s) (hh : h ∈ s.handles) (hnone : ref h = none) :
    Released reach ref dying [h] [] s (s.forget h) := by
  refine ⟨hw.forget hh hnone, fun h' => ?_, fun _ _ => rfl, fun o => ?_,
    (List.append_nil _).symm, fun _ ho => (nomatch ho), Nat.le_refl _⟩
  · rw [Store.forget, hw.handles.mem_erase_iff, List.mem_singleton]
    exact ⟨fun hh => ⟨hh.2, hh.1, fun _ ho => nomatch ho⟩, fun hh => ⟨hh.2.1, hh.1⟩⟩
  · exact ⟨fun ho => ⟨ho, List.not_mem_nil⟩, And.left⟩

theorem congr (hr : Released reach ref' dying destroyed freed s s')
    (hsame : ∀ h ∈ s'.handles, ref h = ref' h) : Released reach ref dying destroyed freed s s' :=
  ⟨hr.toWorking.congr hsame, hr.kept, hr.ptr, hr.left, hr.log, hr.inside, hr.less⟩

theorem setPtr (hr : Released reach ref dying destroyed freed s s') (hout : h ∉ s'.handles)
    (v : Option (Object Kind)) : Released reach ref dying destroyed freed s (s'.setPtr h v) := by
  refine ⟨hr.toWorking.setPtr hout v, hr.kept, fun h' hh' => ?_, hr.left, hr.log, hr.inside, hr.less⟩
  have hne : h' ≠ h := fun heq => hout (heq ▸ hh')
  exact (Function.update_of_ne hne v s'.ptr).trans (hr.ptr h' hh')

end Released

end Trieste.Intrusive
