import Trieste.Intrusive.Release

namespace Trieste.Intrusive
set_option autoImplicit true
open Library

variable {Kind : Type} [DecidableEq Kind]
variable {s : Store Kind} {ref : Handle Kind → Option (Object Kind)}
  {dying workList : List (Object Kind)} {reach : Object Kind → Prop} {h : Handle Kind}
  {o p : Object Kind} {type : Kind}

theorem recursionSafeDeleteThis_inner (hlist : s.workList p.type = some workList) (fuel : Nat) :
    recursionSafeDeleteThis (fuel + 1) s p =
      some (((s.enter p.type).setWorkList p.type (some (workList ++ [p]))).leave p.type) := by
  have hlist' : (s.enter p.type).workList p.type = some workList := hlist
  simp only [recursionSafeDeleteThis, hlist']

theorem recursionSafeDeleteThis_outer (hlist : s.workList p.type = none) (fuel : Nat) :
    recursionSafeDeleteThis (fuel + 1) s p =
      (deleteAll fuel ((s.enter p.type).setWorkList p.type (some [p])) p.type).map fun s =>
        (s.setWorkList p.type none).leave p.type := by
  have hlist' : (s.enter p.type).workList p.type = none := hlist
  simp only [recursionSafeDeleteThis, hlist']

theorem deleteAll_nil (hlist : s.workList type = some []) (fuel : Nat) :
    deleteAll (fuel + 1) s type = some s := by
  simp only [deleteAll, hlist, List.getLast?_nil]

theorem deleteAll_concat (hlist : s.workList type = some (workList ++ [o])) (fuel : Nat) :
    deleteAll (fuel + 1) s type = (delete fuel (s.setWorkList type (some workList)) o).bind fun s =>
      deleteAll fuel s type := by
  simp only [deleteAll, hlist, List.getLast?_concat, List.dropLast_concat]

/-- The loop over a work list ends where there are few objects that may get into it. -/
def Loops (reach : Object Kind → Prop) (bound : Nat) : Prop :=
  ∀ ref dying (s : Store Kind) type workList, Working reach ref none dying s →
    s.workList type = some workList → s.used + workList.length < bound →
    ∃ s' freed, Settles (fun fuel => deleteAll fuel s type) s' ∧
      Released reach ref dying [] freed s s' ∧ s'.workList type = some [] ∧
      ∀ type' ≠ type, GrownAt s s' type'

theorem used_setRefcount_le (hpos : 0 < s.intrusiveRefcount p) (n : Nat) :
    (s.setRefcount p n).used ≤ s.used := by
  apply List.countP_mono_left
  intro o _ ho
  by_cases heq : o = p
  · subst heq
    exact decide_eq_true (Nat.ne_of_gt hpos)
  · change decide (Function.update s.intrusiveRefcount p n o ≠ 0) = true at ho
    rwa [Function.update_of_ne heq] at ho

section LastReference
variable (hw : Working reach ref (some p) dying s) (hp : p ∈ s.objects) (hreach : reach p)
  (hcount : s.intrusiveRefcount p = 1)
include hw hp hreach hcount

theorem released_inner (hlist : s.workList p.type = some workList) :
    Released reach ref dying [] [] s ((((s.setRefcount p 0).enter p.type).setWorkList p.type
      (some (workList ++ [p]))).leave p.type) ∧
    ∀ type, GrownAt s ((((s.setRefcount p 0).enter p.type).setWorkList p.type
      (some (workList ++ [p]))).leave p.type) type := by
  have hused : (s.setRefcount p 0).used + 1 = s.used :=
    used_setRefcount_zero hw.objects hp (by omega)
  have hcall : s.calls p.type = 1 := by
    rw [hw.calls, hlist]
    rfl
  have hcalls : ∀ type, (((s.setRefcount p 0).enter p.type).leave p.type).calls type =
      if (Function.update s.workList p.type (some (workList ++ [p])) type).isSome then 1 else 0 := by
    intro type
    change Function.update (Function.update s.calls p.type _) p.type
      (Function.update s.calls p.type (s.calls p.type + 1) p.type - 1) type = _
    by_cases htype : type = p.type
    · rw [htype, Function.update_self, Function.update_self, Function.update_self, hcall]
      rfl
    · rw [Function.update_of_ne htype, Function.update_of_ne htype, Function.update_of_ne htype,
        hw.calls]
  have hdeepest : max s.deepest (s.calls p.type + 1) ≤ 2 := by
    rw [hcall]
    exact Nat.max_le.2 ⟨hw.deepest, Nat.le_refl 2⟩
  have hw' := hw.enlist hp hcount hreach (by rw [hlist]; rfl) hcalls hdeepest
  refine ⟨.of_working hw' rfl rfl rfl rfl (Nat.le_of_lt (Nat.lt_of_succ_le (Nat.le_of_eq hused))),
    fun type => ?_⟩
  by_cases htype : type = p.type
  · subst htype
    refine ⟨fun hnone => ?_, fun workList' hsome => ⟨[p], ?_, Nat.le_of_eq hused⟩⟩
    · rw [hlist] at hnone
      cases hnone
    · rw [hlist] at hsome
      cases hsome
      exact Function.update_self ..
  · exact .of_same (Function.update_of_ne htype ..)
      (Nat.le_of_lt (Nat.lt_of_succ_le (Nat.le_of_eq hused)))

theorem working_outer (hlist : s.workList p.type = none) :
    Working reach ref none dying
      (((s.setRefcount p 0).enter p.type).setWorkList p.type (some [p])) := by
  have hcall : s.calls p.type = 0 := by
    rw [hw.calls, hlist]
    rfl
  have hcalls : ∀ type, ((s.setRefcount p 0).enter p.type).calls type =
      if (Function.update s.workList p.type (some ([] ++ [p])) type).isSome then 1 else 0 := by
    intro type
    change Function.update s.calls p.type (s.calls p.type + 1) type = _
    by_cases htype : type = p.type
    · rw [htype, Function.update_self, Function.update_self, hcall]
      rfl
    · rw [Function.update_of_ne htype, Function.update_of_ne htype, hw.calls]
  have hdeepest : max s.deepest (s.calls p.type + 1) ≤ 2 := by
    rw [hcall]
    exact Nat.max_le.2 ⟨hw.deepest, Nat.le_succ 1⟩
  exact hw.enlist hp hcount hreach (by rw [hlist]; rfl) hcalls hdeepest

end LastReference

/-- A reference goes, and with the last one the object and what it keeps alive. -/
theorem intrusiveDecRef_settles (hloops : Loops reach bound)
    (hw : Working reach ref (some p) dying s) (hp : p ∈ s.objects) (hreach : reach p)
    (hbound : s.used < bound) :
    ∃ s' freed, Settles (fun fuel => intrusiveDecRef fuel s p) s' ∧
      Released reach ref dying [] freed s s' ∧ ∀ type, GrownAt s s' type := by
  obtain ⟨hpos, -, -⟩ := hw.not_idle hp
  by_cases hcount : s.intrusiveRefcount p = 1
  · have hdec : ∀ fuel, intrusiveDecRef (fuel + 1) s p =
        recursionSafeDeleteThis fuel (s.setRefcount p 0) p := by
      intro fuel
      rw [intrusiveDecRef, if_pos ⟨hp, hpos⟩]
      simp only [hcount, if_true, Nat.sub_self]
    cases hlist : s.workList p.type with
    | some workList =>
      obtain ⟨hr, hg⟩ := released_inner hw hp hreach hcount hlist
      exact ⟨_, [], .succ hdec (.succ (recursionSafeDeleteThis_inner hlist) (.const _)), hr, hg⟩
    | none =>
      have hused : (s.setRefcount p 0).used + 1 = s.used :=
        used_setRefcount_zero hw.objects hp (Nat.ne_of_gt hpos)
      have hw₁ := working_outer hw hp hreach hcount hlist
      obtain ⟨s₂, freed, hset, hr, hempty, hg⟩ := hloops ref dying _ p.type [p] hw₁
        (Function.update_self ..) (Nat.lt_of_le_of_lt (Nat.le_of_eq hused) hbound)
      have hless := Nat.le_of_lt (Nat.lt_of_succ_le (Nat.le_of_eq hused))
      have hr₁ : Released reach ref dying [] [] s
          (((s.setRefcount p 0).enter p.type).setWorkList p.type (some [p])) :=
        .of_working hw₁ rfl rfl rfl rfl hless
      have hr₃ : Released reach ref dying [] [] s₂ ((s₂.setWorkList p.type none).leave p.type) :=
        .of_working (hr.toWorking.close hempty) rfl rfl rfl rfl (Nat.le_refl _)
      have hrelease := (hr₁.trans hr).trans hr₃
      simp only [List.append_nil, List.nil_append] at hrelease
      refine ⟨_, freed, .succ hdec (.succ (recursionSafeDeleteThis_outer hlist) (hset.map _)),
        hrelease, fun type => ?_⟩
      by_cases htype : type = p.type
      · subst htype
        refine ⟨fun _ => Function.update_self .., fun workList hsome => ?_⟩
        rw [hlist] at hsome
        cases hsome
      · have hbefore : GrownAt s (((s.setRefcount p 0).enter p.type).setWorkList p.type (some [p]))
            type := .of_same (Function.update_of_ne htype ..) hless
        have hbehind : GrownAt s₂ ((s₂.setWorkList p.type none).leave p.type) type :=
          .of_same (Function.update_of_ne htype ..) (Nat.le_refl _)
        exact (hbefore.trans (hg type htype)).trans hbehind
  · have hless := used_setRefcount_le hpos (s.intrusiveRefcount p - 1)
    refine ⟨_, [], .succ (fun fuel => ?_) (.const _),
      .of_working (hw.decrement hp hcount) rfl rfl rfl rfl hless, fun type => .of_same rfl hless⟩
    rw [intrusiveDecRef, if_pos ⟨hp, hpos⟩]
    simp only [if_neg hcount]

theorem destroy_settles (hloops : Loops reach bound) (hw : Working reach ref none dying s)
    (hh : h ∈ s.handles) (howner : h.owner = some o) (ho : o ∈ dying) (hreach : reach o)
    (hptr : s.ptr h = ref h) (hbound : s.used < bound) :
    ∃ s' freed, Settles (fun fuel => destroy fuel s h) s' ∧
      Released reach ref dying [h] freed s s' ∧ ∀ type, GrownAt s s' type := by
  have hdestroy : ∀ fuel, destroy (fuel + 1) s h = (decRef fuel s h).map fun s => s.forget h :=
    fun _ => by rw [destroy]
  cases hp : ref h with
  | none =>
    have hdec : ∀ fuel, decRef (fuel + 1) s h = some s := by
      intro fuel
      simp only [decRef, hptr, hp]
    exact ⟨_, [], .succ hdestroy (Settles.map (.succ hdec (.const s)) _), .forget hw hh hp,
      fun type => .of_same rfl (Nat.le_refl _)⟩
  | some p =>
    have hdec : ∀ fuel, decRef (fuel + 1) s h =
        (intrusiveDecRef fuel s p).map fun s => s.setPtr h none := by
      intro fuel
      simp only [decRef, hptr, hp]
    have hskip : ∀ o', h.owner = some o' → reach o' → o' ∈ dying := by
      intro o' ho' _
      rw [howner] at ho'
      cases ho'
      exact ho
    have howed := hw.owe hh hskip
    rw [hp] at howed
    obtain ⟨s₁, freed, hset, hr, hg⟩ := intrusiveDecRef_settles hloops howed (hw.target h hh p hp)
      (hw.closed h hh o p howner hreach hp) hbound
    have hh₁ : h ∈ s₁.handles := by
      rw [hr.kept]
      refine ⟨hh, List.not_mem_nil, fun o' ho' heq => ?_⟩
      rw [howner] at heq
      cases heq
      exact (hr.inside o ho').2.2 ho
    have hforget := hr.trans (.forget hr.toWorking hh₁ (Function.update_self ..))
    rw [List.append_nil, List.nil_append] at hforget
    have hout : h ∉ (s₁.forget h).handles := fun hm => (hr.handles.mem_erase_iff.1 hm).1 rfl
    have hback : Released reach ref dying [h] freed s (s₁.forget h) := by
      apply hforget.congr
      intro h' hh'
      have hne : h' ≠ h := fun heq => hout (heq ▸ hh')
      exact (Function.update_of_ne hne none ref).symm
    have hclear : Settles (fun fuel => decRef fuel s h) (s₁.setPtr h none) :=
      .succ hdec (hset.map fun s => s.setPtr h none)
    have hrun : Settles (fun fuel => destroy fuel s h) ((s₁.setPtr h none).forget h) :=
      .succ hdestroy (hclear.map fun s => s.forget h)
    exact ⟨_, freed, hrun, hback.setPtr hout none,
      fun type => (hg type).trans (.of_same rfl (Nat.le_refl _))⟩

theorem destroyAll_settles (hloops : Loops reach bound) {hs : List (Handle Kind)}
    (hw : Working reach ref none dying s) (hnodup : hs.Nodup)
    (hin : ∀ h ∈ hs, h ∈ s.handles ∧ h.owner = some o ∧ s.ptr h = ref h) (ho : o ∈ dying)
    (hreach : reach o) (hbound : s.used < bound) :
    ∃ s' freed, Settles (fun fuel => destroyAll fuel s hs) s' ∧
      Released reach ref dying hs freed s s' ∧ ∀ type, GrownAt s s' type := by
  induction hs generalizing s with
  | nil =>
    have hnil : ∀ fuel, destroyAll (fuel + 1) s [] = some s := fun _ => by rw [destroyAll]
    exact ⟨s, [], .succ hnil (.const s), .refl hw, fun type => .of_same rfl (Nat.le_refl _)⟩
  | cons h hs ih =>
    obtain ⟨hh, howner, hptr⟩ := hin h List.mem_cons_self
    obtain ⟨s₁, freed, hset, hr, hg⟩ :=
      destroy_settles hloops hw hh howner ho hreach hptr hbound
    obtain ⟨hout, hnodup⟩ := List.nodup_cons.1 hnodup
    have hin₁ : ∀ h' ∈ hs, h' ∈ s₁.handles ∧ h'.owner = some o ∧ s₁.ptr h' = ref h' := by
      intro h' hh'
      obtain ⟨hm, howner', hptr'⟩ := hin h' (List.mem_cons_of_mem h hh')
      have hm₁ : h' ∈ s₁.handles := by
        rw [hr.kept]
        refine ⟨hm, fun hmem => hout (List.mem_singleton.1 hmem ▸ hh'), fun o' ho' heq => ?_⟩
        rw [howner'] at heq
        cases heq
        exact (hr.inside o ho').2.2 ho
      exact ⟨hm₁, howner', (hr.ptr h' hm₁).trans hptr'⟩
    obtain ⟨s₂, freed', hset', hr', hg'⟩ :=
      ih hr.toWorking hnodup hin₁ (Nat.lt_of_le_of_lt hr.less hbound)
    have hcons : ∀ fuel, destroyAll (fuel + 1) s (h :: hs) =
        (destroy fuel s h).bind fun s => destroyAll fuel s hs := fun _ => by rw [destroyAll]
    exact ⟨s₂, freed ++ freed', .succ hcons (hset.bind hset'), hr.trans hr',
      fun type => (hg type).trans (hg' type)⟩

theorem delete_settles (hloops : Loops reach bound) (hw : Working reach ref none (o :: dying) s)
    (ho : o ∈ s.objects) (hreach : reach o) (hout : o ∉ dying)
    (hagrees : ∀ h ∈ s.handles, h.owner = some o → s.ptr h = ref h) (hbound : s.used < bound) :
    ∃ s' freed, Settles (fun fuel => delete fuel s o) s' ∧
      Released reach ref dying [] freed s s' ∧ ∀ type, GrownAt s s' type := by
  have hmembers : ∀ h, h ∈ s.members o ↔ h ∈ s.handles ∧ h.owner = some o := by
    intro h
    rw [Store.members, List.mem_filter, decide_eq_true_eq]
  obtain ⟨s₁, freed, hset, hr, hg⟩ := destroyAll_settles hloops hw (hw.handles.filter _)
    (fun h hm => by
      obtain ⟨hh, howner⟩ := (hmembers h).1 hm
      exact ⟨hh, howner, hagrees h hh howner⟩) List.mem_cons_self hreach hbound
  have hfreed : o ∉ freed := fun hm => (hr.inside o hm).2.2 List.mem_cons_self
  have ho₁ : o ∈ s₁.objects := (hr.left o).2 ⟨ho, hfreed⟩
  have hzero : s₁.intrusiveRefcount o = 0 := (hr.idle o ho₁).2 (.inl List.mem_cons_self)
  have hgone : ∀ h ∈ s₁.handles, h.owner ≠ some o := by
    intro h hh howner
    obtain ⟨hm, hkept, -⟩ := (hr.kept h).1 hh
    exact hkept ((hmembers h).2 ⟨hm, howner⟩)
  have hdelete : ∀ fuel, delete (fuel + 1) s o = (destroyAll fuel s (s.members o)).bind fun s =>
      if s.intrusiveRefcount o = 0 then some (s.free o) else none := by
    intro fuel
    rw [delete, if_pos ho]
  have hless : (s₁.free o).used ≤ s₁.used := (List.erase_sublist ..).countP_le ..
  refine ⟨s₁.free o, freed ++ [o], .succ hdelete (hset.bind ?_),
    ⟨hr.toWorking.free ho₁ hgone, fun h => ?_, hr.ptr, fun p => ?_, ?_, fun p hp => ?_,
      Nat.le_trans hless hr.less⟩, fun type => (hg type).trans (.of_same rfl hless)⟩
  · simp only [if_pos hzero]
    exact .const _
  · refine (hr.kept h).trans ⟨fun hh => ⟨hh.1, List.not_mem_nil, fun p hp => ?_⟩, fun hh => ?_⟩
    · rcases List.mem_append.1 hp with hp | hp
      · exact hh.2.2 p hp
      · rw [List.mem_singleton.1 hp]
        exact fun howner => hh.2.1 ((hmembers h).2 ⟨hh.1, howner⟩)
    · obtain ⟨hm, -, hkept⟩ := hh
      refine ⟨hm, fun hmem => ?_, fun p hp => hkept p (List.mem_append_left _ hp)⟩
      exact hkept o (List.mem_append_right _ (List.mem_singleton_self o)) ((hmembers h).1 hmem).2
  · rw [Store.free, hr.objects.mem_erase_iff, hr.left, List.mem_append, List.mem_singleton, not_or]
    exact ⟨fun hp => ⟨hp.2.1, hp.2.2, hp.1⟩, fun hp => ⟨hp.2.2, hp.1, hp.2.1⟩⟩
  · rw [Store.free, hr.log, List.append_assoc]
  · rcases List.mem_append.1 hp with hp | hp
    · obtain ⟨hm, hpreach, hpout⟩ := hr.inside p hp
      exact ⟨hm, hpreach, fun hd => hpout (List.mem_cons_of_mem o hd)⟩
    · rw [List.mem_singleton] at hp
      subst hp
      exact ⟨ho, hreach, hout⟩

/-- Every loop ends, by induction on the objects that may still get into its list. -/
theorem loops (reach : Object Kind → Prop) (bound : Nat) : Loops reach bound := by
  induction bound with
  | zero => exact fun _ _ _ _ _ _ _ hlt => absurd hlt (Nat.not_lt_zero _)
  | succ bound ih =>
    intro ref dying s type workList hw hlist hlt
    rcases List.eq_nil_or_concat workList with rfl | ⟨rest, o, rfl⟩
    · exact ⟨s, [], .succ (deleteAll_nil hlist) (.const s), .refl hw, hlist,
        fun type' _ => .of_same rfl (Nat.le_refl _)⟩
    · rw [List.concat_eq_append] at hlist hlt
      rw [List.length_append, List.length_singleton] at hlt
      obtain ⟨hw₁, htype, ho, hout, hreach⟩ := hw.pop hlist
      have hused : (s.setWorkList type (some rest)).used = s.used := rfl
      obtain ⟨s₂, freed, hset, hr, hg⟩ := delete_settles ih hw₁ ho hreach hout
        (fun h hh howner => hw.agrees h hh o howner hreach hout) (by omega)
      obtain ⟨new, hlist₂, hless⟩ := (hg type).2 rest (Function.update_self ..)
      obtain ⟨s₃, freed', hset', hr', hempty, hg'⟩ := ih ref dying s₂ type _ hr.toWorking hlist₂
        (by rw [List.length_append]; omega)
      have hr₀ : Released reach ref dying [] freed s s₂ :=
        ⟨hr.toWorking, hr.kept, hr.ptr, hr.left, hr.log, hr.inside, hr.less⟩
      refine ⟨s₃, freed ++ freed', .succ (deleteAll_concat hlist) (hset.bind hset'), hr₀.trans hr',
        hempty, fun type' hne => ?_⟩
      have hbefore : GrownAt s (s.setWorkList type (some rest)) type' :=
        .of_same (Function.update_of_ne hne ..) (Nat.le_refl _)
      exact (hbefore.trans (hg type')).trans (hg' type' hne)

end Trieste.Intrusive
