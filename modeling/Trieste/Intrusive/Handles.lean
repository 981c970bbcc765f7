import Trieste.Intrusive.Deletion
import Trieste.Library.Acyclic
import Trieste.Library.Transition

namespace Trieste.Intrusive
set_option autoImplicit true
open Library Relation

variable {Kind : Type}

/-- No object is being deleted, and there were at most two calls on the stack at any time. -/
structure Quiet (s : Store Kind) : Prop where
  workList : ∀ type, s.workList type = none
  calls : ∀ type, s.calls type = 0
  deepest : s.deepest ≤ 2

theorem Quiet.of_same {s s' : Store Kind} (hquiet : Quiet s) (hlist : s'.workList = s.workList)
    (hcalls : s'.calls = s.calls) (hdeepest : s'.deepest = s.deepest) : Quiet s' :=
  ⟨hlist ▸ hquiet.workList, hcalls ▸ hquiet.calls, hdeepest ▸ hquiet.deepest⟩

namespace Store

def Edge (s : Store Kind) (o p : Object Kind) : Prop :=
  ∃ h ∈ s.handles, h.owner = some o ∧ s.ptr h = some p

def Acyclic (s : Store Kind) : Prop := ∀ o, ¬ TransGen s.Edge o o

/-- The object can be reached from a variable. -/
def Reached (s : Store Kind) (o : Object Kind) : Prop :=
  ∃ h ∈ s.handles, h.owner = none ∧ ∃ p, s.ptr h = some p ∧ ReflTransGen s.Edge p o

theorem Acyclic.of_lt {s : Store Kind}
    (hlt : ∀ h ∈ s.handles, ∀ o ∈ h.owner, ∀ p ∈ s.ptr h, o.address < p.address) : s.Acyclic := by
  have hedge : ∀ o p, TransGen s.Edge o p → o.address < p.address := by
    intro o p hop
    induction hop with
    | single hedge =>
      obtain ⟨h, hh, ho, hp⟩ := hedge
      exact hlt h hh _ ho _ hp
    | tail _ hedge ih =>
      obtain ⟨h, hh, ho, hp⟩ := hedge
      exact Nat.lt_trans ih (hlt h hh _ ho _ hp)
  exact fun o hcycle => Nat.lt_irrefl _ (hedge o o hcycle)

end Store

variable [DecidableEq Kind]

/-- The handles point to objects that exist, each object that exists has references and counts
them, and no object is deleted twice. -/
structure Sound (s : Store Kind) : Prop extends Quiet s where
  handles : s.handles.Nodup
  objects : s.objects.Nodup
  count : ∀ o ∈ s.objects, s.intrusiveRefcount o = s.refs s.ptr o
  used : ∀ o ∈ s.objects, s.intrusiveRefcount o ≠ 0
  target : ∀ h ∈ s.handles, ∀ o, s.ptr h = some o → o ∈ s.objects
  owner : ∀ h ∈ s.handles, ∀ o, h.owner = some o → o ∈ s.objects
  deleted : s.deleted.Nodup
  gone : ∀ o ∈ s.deleted, o ∉ s.objects

/-- The objects that an operation deletes, in this order. -/
structure Frees (s s' : Store Kind) (freed : List (Object Kind)) : Prop where
  sound : Sound s'
  log : s'.deleted = s.deleted ++ freed
  inside : ∀ o ∈ freed, o ∈ s.objects
  left : ∀ o ∈ s.objects, o ∈ s'.objects ↔ o ∉ freed

/-- A step of a run, which leaves no cycle behind. -/
structure Step (s : Store Kind) (op : Op Kind) (s' : Store Kind) : Prop where
  allowed : op.Allowed s
  applies : Settles (fun fuel => op.apply fuel s) s'
  acyclic : s'.Acyclic

variable {s s' s₁ : Store Kind} {ref : Handle Kind → Option (Object Kind)}
  {owed v : Option (Object Kind)} {freed : List (Object Kind)} {h other : Handle Kind}
  {o p : Object Kind} {reach : Object Kind → Prop}

namespace Sound

theorem counted (hs : Sound s) : Counted s.ptr none s :=
  ⟨hs.handles, hs.objects, hs.count, hs.target, hs.owner, hs.deleted, hs.gone⟩

theorem of_counted (hc : Counted s.ptr none s) (hquiet : Quiet s)
    (hused : ∀ o ∈ s.objects, s.intrusiveRefcount o ≠ 0) : Sound s :=
  ⟨hquiet, hc.handles, hc.objects, hc.count, hused, hc.target, hc.owner, hc.deleted, hc.gone⟩

theorem refs_ne_zero (hs : Sound s) (ho : o ∈ s.objects) : s.refs s.ptr o ≠ 0 :=
  hs.count o ho ▸ hs.used o ho

theorem objects_iff (hs : Sound s) (hacyclic : s.Acyclic) (o : Object Kind) :
    o ∈ s.objects ↔ s.Reached o := by
  constructor
  · intro ho
    have hback : ∀ p, ReflTransGen (fun p q => s.Edge q p) o p → p ∈ s.objects := by
      intro p hp
      induction hp with
      | refl => exact ho
      | tail _ hedge _ =>
        obtain ⟨h, hh, howner, -⟩ := hedge
        exact hs.owner h hh _ howner
    have hfin : {p | ReflTransGen (fun p q => s.Edge q p) o p}.Finite :=
      s.objects.finite_toSet.subset hback
    have hacc : Acc (fun p q => s.Edge p q) o := by
      apply acc_of_not_cycleFrom hfin
      intro hcycle
      obtain ⟨p, -, hp⟩ := hcycle
      exact hacyclic p (transGen_swap.1 hp)
    clear hback hfin
    -- up from the object along its owners
    induction hacc with
    | intro o _ ih =>
      obtain ⟨h, hh, hp⟩ := List.countP_pos_iff.1 (Nat.pos_of_ne_zero (hs.refs_ne_zero ho))
      have hp : s.ptr h = some o := of_decide_eq_true hp
      cases howner : h.owner with
      | none => exact ⟨h, hh, howner, o, hp, .refl⟩
      | some p =>
        obtain ⟨h', hh', howner', q, hq, hqp⟩ := ih p ⟨h, hh, howner, hp⟩ (hs.owner h hh p howner)
        exact ⟨h', hh', howner', q, hq, hqp.tail ⟨h, hh, howner, hp⟩⟩
  · intro hreached
    obtain ⟨h, hh, -, p, hp, hpo⟩ := hreached
    induction hpo with
    | refl => exact hs.target h hh p hp
    | tail _ hedge _ =>
      obtain ⟨h', hh', -, hp'⟩ := hedge
      exact hs.target h' hh' _ hp'

end Sound

namespace Frees

theorem of_sound (hs : Sound s') (hlog : s'.deleted = s.deleted)
    (hobjects : ∀ o ∈ s.objects, o ∈ s'.objects) : Frees s s' [] :=
  ⟨hs, by rw [hlog, List.append_nil], fun _ ho => (nomatch ho),
    fun o ho => ⟨fun _ => List.not_mem_nil, fun _ => hobjects o ho⟩⟩

/-- The objects that are deleted are those that lose their last reference. -/
theorem mem_iff (hf : Frees s s' freed) (o : Object Kind) :
    o ∈ freed ↔ o ∈ s.objects ∧ s'.refs s'.ptr o = 0 := by
  constructor
  · intro ho
    have hgone : o ∉ s'.objects := fun hin => (hf.left o (hf.inside o ho)).1 hin ho
    refine ⟨hf.inside o ho, refs_eq_zero fun h hh hp => hgone ?_⟩
    exact hf.sound.target h hh o hp
  · intro ho
    obtain ⟨hin, hzero⟩ := ho
    by_contra hout
    exact hf.sound.refs_ne_zero ((hf.left o hin).2 hout) hzero

end Frees

theorem Working.of_quiet (hc : Counted ref owed s) (hquiet : Quiet s)
    (hused : ∀ o ∈ s.objects, s.intrusiveRefcount o ≠ 0)
    (hclosed : ∀ h ∈ s.handles, ∀ o p, h.owner = some o → reach o → ref h = some p → reach p)
    (hagrees : ∀ h ∈ s.handles, ∀ o, h.owner = some o → reach o → s.ptr h = ref h) :
    Working reach ref owed [] s := by
  refine ⟨hc, fun o ho => ⟨fun hzero => absurd hzero (hused o ho), fun hidle => ?_⟩,
    fun type workList hsome => ?_, hclosed, fun h hh o ho hreach _ => hagrees h hh o ho hreach,
    fun type => ?_, hquiet.deepest⟩
  · rcases hidle with hdying | ⟨workList, hsome, -⟩
    · cases hdying
    · rw [hquiet.workList] at hsome
      cases hsome
  · rw [hquiet.workList] at hsome
    cases hsome
  · rw [hquiet.calls, hquiet.workList]
    rfl

theorem Working.quiet (hw : Working reach ref owed [] s) (hnone : ∀ type, s.workList type = none) :
    Quiet s ∧ ∀ o ∈ s.objects, s.intrusiveRefcount o ≠ 0 := by
  refine ⟨⟨hnone, fun type => ?_, hw.deepest⟩, fun o ho hzero => ?_⟩
  · rw [hw.calls, hnone]
    rfl
  · rcases (hw.idle o ho).1 hzero with hdying | ⟨workList, hsome, -⟩
    · cases hdying
    · rw [hnone] at hsome
      cases hsome

theorem destroyLocal_settles (hc : Counted s.ptr owed s) (hquiet : Quiet s)
    (hused : ∀ o ∈ s.objects, s.intrusiveRefcount o ≠ 0) (howed : ∀ o, owed = some o → o ∈ s.objects) :
    ∃ s' freed, Settles (fun fuel => destroyLocal fuel s owed) s' ∧ Frees s s' freed := by
  cases owed with
  | none => exact ⟨s, [], .const s, .of_sound (.of_counted hc hquiet hused) rfl fun _ ho => ho⟩
  | some p =>
    have hw : Working (fun _ => True) s.ptr (some p) [] s :=
      .of_quiet hc hquiet hused (fun _ _ _ _ _ _ _ => trivial) fun _ _ _ _ _ => rfl
    obtain ⟨s', freed, hset, hr, hg⟩ := intrusiveDecRef_settles (loops _ (s.used + 1)) hw
      (howed p rfl) trivial (Nat.lt_succ_self _)
    obtain ⟨hquiet', hused'⟩ := hr.toWorking.quiet fun type => (hg type).1 (hquiet.workList type)
    have hs' : Sound s' := .of_counted (hr.toCounted.congr hr.ptr) hquiet' hused'
    refine ⟨s', freed, hset, hs', hr.log, fun o ho => (hr.inside o ho).1, fun o ho => ?_⟩
    rw [hr.left, and_iff_right ho]

theorem decRef_settles (hs : Sound s) (hacyclic : s.Acyclic) (hh : h ∈ s.handles) :
    ∃ s' freed, Settles (fun fuel => decRef fuel s h) s' ∧ Frees s s' freed ∧ h ∈ s'.handles ∧
      s'.ptr h = none := by
  cases hp : s.ptr h with
  | none =>
    have hdec : ∀ fuel, decRef (fuel + 1) s h = some s := by
      intro fuel
      simp only [decRef, hp]
    exact ⟨s, [], .succ hdec (.const s), .of_sound hs rfl fun _ ho => ho, hh, hp⟩
  | some p =>
    have hdec : ∀ fuel, decRef (fuel + 1) s h =
        (intrusiveDecRef fuel s p).map fun s => s.setPtr h none := by
      intro fuel
      simp only [decRef, hp]
    -- the release stays below the owner of the handle
    have hw : Working (fun o => ∀ x, h.owner = some x → ¬ ReflTransGen s.Edge o x) s.ptr none [] s := by
      refine .of_quiet hs.counted hs.toQuiet hs.used (fun h' hh' o q ho hreach hq x hx hqx => ?_)
        fun _ _ _ _ _ => rfl
      exact hreach x hx (.head ⟨h', hh', ho, hq⟩ hqx)
    have howed := hw.owe hh fun o ho hreach => absurd .refl (hreach o ho)
    rw [hp] at howed
    have hreach : ∀ x, h.owner = some x → ¬ ReflTransGen s.Edge p x := fun x hx hpx =>
      hacyclic x (.head' ⟨h, hh, hx, hp⟩ hpx)
    obtain ⟨s₁, freed, hset, hr, hg⟩ := intrusiveDecRef_settles (loops _ (s.used + 1)) howed
      (hs.target h hh p hp) hreach (Nat.lt_succ_self _)
    have hh₁ : h ∈ s₁.handles := by
      rw [hr.kept]
      exact ⟨hh, List.not_mem_nil, fun o ho howner => (hr.inside o ho).2.1 o howner .refl⟩
    have hsame : ∀ h' ∈ s₁.handles, (s₁.setPtr h none).ptr h' = Function.update s.ptr h none h' := by
      intro h' hh'
      change Function.update s₁.ptr h none h' = Function.update s.ptr h none h'
      by_cases heq : h' = h
      · rw [heq, Function.update_self, Function.update_self]
      · rw [Function.update_of_ne heq, Function.update_of_ne heq, hr.ptr h' hh']
    have hc : Counted (s₁.setPtr h none).ptr none (s₁.setPtr h none) :=
      (hr.toCounted.setPtr_out h none).congr hsame
    obtain ⟨hquiet', hused'⟩ := hr.toWorking.quiet fun type => (hg type).1 (hs.workList type)
    have hs' : Sound (s₁.setPtr h none) :=
      .of_counted hc ⟨hquiet'.workList, hquiet'.calls, hquiet'.deepest⟩ hused'
    refine ⟨_, freed, .succ hdec (hset.map fun s => s.setPtr h none),
      ⟨hs', hr.log, fun o ho => (hr.inside o ho).1, fun o ho => ?_⟩, hh₁, Function.update_self ..⟩
    exact (hr.left o).trans (and_iff_right ho)

theorem constructed (hc : Counted s.ptr none s) (hquiet : Quiet s) (hroom : s.HasRoom h)
    (hv : ∀ o, v = some o → o ∈ s.objects)
    (hused : ∀ o ∈ s.objects, v ≠ some o → s.intrusiveRefcount o ≠ 0) :
    ∃ s', incRef (s.construct h v) h = some s' ∧ Sound s' ∧ s'.deleted = s.deleted ∧
      s'.objects = s.objects := by
  have hptr : (s.construct h v).ptr h = v := Function.update_self ..
  cases v with
  | none =>
    refine ⟨s.construct h none, by simp only [incRef, hptr], ?_, rfl, rfl⟩
    exact .of_counted (hc.construct hroom hv) (hquiet.of_same rfl rfl rfl) fun o ho =>
      hused o ho nofun
  | some p =>
    have hp : p ∈ (s.construct h (some p)).objects := hv p rfl
    refine ⟨(s.setRefcount p (s.intrusiveRefcount p + 1)).construct h (some p), ?_, ?_, rfl, rfl⟩
    · simp only [incRef, hptr, if_pos hp]
      rfl
    · refine .of_counted ((hc.increment p).construct hroom hv) (hquiet.of_same rfl rfl rfl)
        fun o ho => ?_
      change Function.update s.intrusiveRefcount p (s.intrusiveRefcount p + 1) o ≠ 0
      by_cases heq : o = p
      · rw [heq, Function.update_self]
        exact Nat.succ_ne_zero _
      · rw [Function.update_of_ne heq]
        exact hused o ho fun hp => heq (Option.some.inj hp).symm

theorem incRef_settles (hs : Sound s) (hother : other ∈ s.handles) :
    ∃ s₁, incRef s other = some s₁ ∧ Counted s.ptr (s.ptr other) s₁ ∧ Quiet s₁ ∧
      (∀ o ∈ s₁.objects, s₁.intrusiveRefcount o ≠ 0) ∧ s₁.ptr = s.ptr ∧ s₁.handles = s.handles ∧
      s₁.objects = s.objects ∧ s₁.deleted = s.deleted := by
  cases hp : s.ptr other with
  | none =>
    exact ⟨s, by simp only [incRef, hp], hs.counted, hs.toQuiet, hs.used, rfl, rfl, rfl, rfl⟩
  | some p =>
    have hin := hs.target other hother p hp
    refine ⟨s.setRefcount p (s.intrusiveRefcount p + 1), by simp only [incRef, hp, if_pos hin],
      hs.counted.increment p, hs.toQuiet.of_same rfl rfl rfl, fun o ho => ?_, rfl, rfl, rfl, rfl⟩
    change Function.update s.intrusiveRefcount p (s.intrusiveRefcount p + 1) o ≠ 0
    by_cases heq : o = p
    · rw [heq, Function.update_self]
      exact Nat.succ_ne_zero _
    · rw [Function.update_of_ne heq]
      exact hs.used o ho

theorem assign_settles (hs : Sound s) (hh : h ∈ s.handles) (hother : other ∈ s.handles) :
    ∃ s' freed, Settles (fun fuel => Op.apply fuel s (.assign h other)) s' ∧ Frees s s' freed := by
  by_cases hsame : s.ptr h = s.ptr other
  · refine ⟨s, [], ?_, .of_sound hs rfl fun _ ho => ho⟩
    simpa only [Op.apply, if_pos hsame] using Settles.const s
  · obtain ⟨s₁, hinc, hc, hquiet, hused, hptr, hhandles, hobjects, hlog⟩ := incRef_settles hs hother
    have hlive : ∀ h ∈ s.handles, ∀ o, s.ptr h = some o → o ∈ s₁.objects := hobjects ▸ hs.target
    rw [← hptr] at hc hlive
    have hc₂ : Counted (s₁.setPtr h (s₁.ptr other)).ptr (s₁.ptr h) (s₁.setPtr h (s₁.ptr other)) :=
      hc.setPtr (hhandles ▸ hh) (hlive other hother)
    obtain ⟨s', freed, hset, hf⟩ :=
      destroyLocal_settles hc₂ (hquiet.of_same rfl rfl rfl) hused (hlive h hh)
    refine ⟨s', freed, ?_, hf.sound, hf.log.trans (by rw [← hlog]; rfl), fun o ho => ?_, fun o ho => ?_⟩
    · simpa only [Op.apply, if_neg hsame, hinc, Option.bind_some] using hset
    · exact hobjects ▸ hf.inside o ho
    · exact hf.left o (hobjects.symm ▸ ho)

theorem moveAssign_settles (hs : Sound s) (hh : h ∈ s.handles) (hother : other ∈ s.handles) :
    ∃ s' freed, Settles (fun fuel => Op.apply fuel s (.moveAssign h other)) s' ∧
      Frees s s' freed := by
  have hc : Counted ((s.setPtr h (s.ptr other)).setPtr other none).ptr (s.ptr h)
      ((s.setPtr h (s.ptr other)).setPtr other none) := by
    by_cases heq : h = other
    · subst heq
      have hself : (s.setPtr h (s.ptr h)).setPtr h none = s.setPtr h none := by
        simp only [Store.setPtr, Function.update_idem]
      rw [hself]
      exact hs.counted.setPtr hh fun _ ho => (by cases ho)
    · have hswap : (s.setPtr h (s.ptr other)).setPtr other none =
          (s.setPtr other none).setPtr h (s.ptr other) := by
        simp only [Store.setPtr, Function.update_comm heq]
      have hold : (s.setPtr other none).ptr h = s.ptr h := Function.update_of_ne heq ..
      rw [hswap, ← hold]
      exact (hs.counted.setPtr hother fun _ ho => (by cases ho)).setPtr hh (hs.target other hother)
  obtain ⟨s', freed, hset, hf⟩ :=
    destroyLocal_settles hc (hs.toQuiet.of_same rfl rfl rfl) hs.used (hs.target h hh)
  exact ⟨s', freed, hset, hf.sound, hf.log, hf.inside, hf.left⟩

theorem swap_sound (hs : Sound s) (hh : h ∈ s.handles) (hother : other ∈ s.handles) :
    Sound ((s.setPtr h (s.ptr other)).setPtr other (s.ptr h)) := by
  by_cases heq : h = other
  · subst heq
    have hself : (s.setPtr h (s.ptr h)).setPtr h (s.ptr h) = s := by
      simp only [Store.setPtr, Function.update_eq_self]
    exact hself.symm ▸ hs
  · -- one handle is cleared, and then each takes the pointer of the other one
    have hclear := hs.counted.setPtr hh fun _ ho => (by cases ho)
    have htake := hclear.setPtr hother (hs.target h hh)
    rw [Function.update_of_ne (Ne.symm heq)] at htake
    have hgive := htake.setPtr hh (hs.target other hother)
    rw [Function.update_of_ne heq, Function.update_self] at hgive
    have hstore : ((s.setPtr h none).setPtr other (s.ptr h)).setPtr h (s.ptr other) =
        (s.setPtr h (s.ptr other)).setPtr other (s.ptr h) := by
      simp only [Store.setPtr, Function.update_comm heq, Function.update_idem]
    rw [← hstore]
    exact .of_counted hgive (hs.toQuiet.of_same rfl rfl rfl) hs.used

theorem Op.settles (hs : Sound s) (hacyclic : s.Acyclic) {op : Op Kind} (hop : op.Allowed s) :
    ∃ s' freed, Settles (fun fuel => op.apply fuel s) s' ∧ Frees s s' freed := by
  have hquiet := hs.toQuiet
  cases op with
  | construct h =>
    have hs' : Sound (s.construct h none) := .of_counted
      (hs.counted.construct hop fun _ ho => nomatch ho) (hquiet.of_same rfl rfl rfl) hs.used
    exact ⟨_, [], .const _, .of_sound hs' rfl fun _ ho => ho⟩
  | fromPointer h o =>
    obtain ⟨s', hinc, hs', hlog, hobjects⟩ := constructed (v := some o) hs.counted hquiet hop.1
      (fun p hp => Option.some.inj hp ▸ hop.2) fun p hp _ => hs.used p hp
    refine ⟨s', [], ?_, .of_sound hs' hlog fun p hp => hobjects.symm ▸ hp⟩
    simpa only [Op.apply, hinc] using Settles.const s'
  | make h o =>
    obtain ⟨hroom, hnew, hfresh⟩ := hop
    have hused : ∀ p ∈ (s.allocate o).objects, some o ≠ some p →
        (s.allocate o).intrusiveRefcount p ≠ 0 := by
      intro p hp hne
      have hpo : p ≠ o := fun heq => hne (congrArg some heq.symm)
      change Function.update s.intrusiveRefcount o 0 p ≠ 0
      rw [Function.update_of_ne hpo]
      exact hs.used p ((List.mem_cons.1 hp).resolve_left hpo)
    have hc : Counted (s.allocate o).ptr none (s.allocate o) := hs.counted.allocate hnew hfresh
    have hroom' : (s.allocate o).HasRoom h :=
      ⟨hroom.1, fun p hp => List.mem_cons_of_mem o (hroom.2 p hp)⟩
    have hlive : ∀ p, some o = some p → p ∈ (s.allocate o).objects := fun p hp =>
      Option.some.inj hp ▸ List.mem_cons_self
    obtain ⟨s', hinc, hs', hlog, hobjects⟩ :=
      constructed hc (hquiet.of_same rfl rfl rfl) hroom' hlive hused
    refine ⟨s', [], ?_, .of_sound hs' hlog fun p hp => hobjects.symm ▸ List.mem_cons_of_mem o hp⟩
    simpa only [Op.apply, hinc] using Settles.const s'
  | copy h other =>
    obtain ⟨s', hinc, hs', hlog, hobjects⟩ := constructed hs.counted hquiet hop.1
      (hs.target other hop.2) fun p hp _ => hs.used p hp
    refine ⟨s', [], ?_, .of_sound hs' hlog fun p hp => hobjects.symm ▸ hp⟩
    simpa only [Op.apply, hinc] using Settles.const s'
  | move h other =>
    have hc := hs.counted.setPtr hop.2 fun _ ho => nomatch ho
    have hs' : Sound ((s.setPtr other none).construct h (s.ptr other)) := .of_counted
      (hc.construct hop.1 (hs.target other hop.2)) (hquiet.of_same rfl rfl rfl) hs.used
    exact ⟨_, [], .const _, .of_sound hs' rfl fun _ ho => ho⟩
  | assign h other => exact assign_settles hs hop.1 hop.2
  | moveAssign h other => exact moveAssign_settles hs hop.1 hop.2
  | swap h other =>
    exact ⟨_, [], .const _, .of_sound (swap_sound hs hop.1 hop.2) rfl fun _ ho => ho⟩
  | reset h =>
    obtain ⟨s', freed, hset, hf, -⟩ := decRef_settles hs hacyclic hop
    exact ⟨s', freed, hset, hf⟩
  | destroy h =>
    obtain ⟨s', freed, hset, hf, hh, hnone⟩ := decRef_settles hs hacyclic hop
    have hs' : Sound (s'.forget h) := .of_counted (hf.sound.counted.forget hh hnone)
      (hf.sound.toQuiet.of_same rfl rfl rfl) hf.sound.used
    have hdestroy : ∀ fuel, Op.apply (fuel + 1) s (.destroy h) =
        (decRef fuel s h).map fun s => s.forget h := fun _ => by rw [Op.apply, Intrusive.destroy]
    exact ⟨_, freed, .succ hdestroy (hset.map fun s => s.forget h), hs', hf.log, hf.inside, hf.left⟩

/-- What a run leaves behind, and what the next operation does. -/
structure Exact (s₀ s : Store Kind) : Prop where
  sound : Sound s
  reached : ∀ o, o ∈ s.objects ↔ s.Reached o
  deleted : ∀ o ∈ s₀.objects, o ∈ s.objects ∨ o ∈ s.deleted
  next : ∀ op : Op Kind, op.Allowed s → ∃ s' freed, Settles (fun fuel => op.apply fuel s) s' ∧
    Sound s' ∧ s'.deleted = s.deleted ++ freed ∧
    ∀ o, o ∈ freed ↔ o ∈ s.objects ∧ s'.refs s'.ptr o = 0

/-- In every run without cycles the counts are exact, and an object is deleted once, by the
operation that takes its last reference away. -/
theorem refcounts_exact (hs : Sound s₀) (hacyclic : s₀.Acyclic) (hrun : Run Step s₀ ops s) :
    Exact s₀ s := by
  have hinvariant : Sound s ∧ s.Acyclic ∧ ∀ o ∈ s₀.objects, o ∈ s.objects ∨ o ∈ s.deleted := by
    refine Run.invariant (I := fun s => Sound s ∧ s.Acyclic ∧
      ∀ o ∈ s₀.objects, o ∈ s.objects ∨ o ∈ s.deleted) (fun s op s' hI hstep => ?_) hrun
      ⟨hs, hacyclic, fun o ho => .inl ho⟩
    obtain ⟨hs, hacyclic, hdeleted⟩ := hI
    obtain ⟨s₁, freed, hset, hf⟩ := Op.settles hs hacyclic hstep.allowed
    have heq := hstep.applies.unique hset
    subst heq
    refine ⟨hf.sound, hstep.acyclic, fun o ho => ?_⟩
    rw [hf.log, List.mem_append]
    rcases hdeleted o ho with hin | hgone
    · by_cases hfreed : o ∈ freed
      · exact .inr (.inr hfreed)
      · exact .inl ((hf.left o hin).2 hfreed)
    · exact .inr (.inl hgone)
  obtain ⟨hs, hacyclic, hdeleted⟩ := hinvariant
  refine ⟨hs, hs.objects_iff hacyclic, hdeleted, fun op hop => ?_⟩
  obtain ⟨s', freed, hset, hf⟩ := Op.settles hs hacyclic hop
  exact ⟨s', freed, hset, hf.sound, hf.log, hf.mem_iff⟩

/-- An object and what its member points to, which go with the second of two variables. -/
theorem refcounts_exact_pair : ∃ s, Run Step ({} : Store Nat) [.make (.var 0) ⟨0, 0⟩,
    .make (.var 1) ⟨1, 1⟩, .move (.member ⟨0, 0⟩ 0) (.var 1), .copy (.var 2) (.var 0),
    .reset (.var 0), .destroy (.var 2)] s ∧ s.deleted = [⟨1, 1⟩, ⟨0, 0⟩] ∧ Exact {} s := by
  have hs : Sound ({} : Store Nat) := ⟨⟨fun _ => rfl, fun _ => rfl, by decide⟩, .nil, .nil, nofun,
    nofun, nofun, nofun, .nil, nofun⟩
  obtain ⟨s, hrun, hdeleted⟩ : ∃ s, Run Step ({} : Store Nat) [.make (.var 0) ⟨0, 0⟩,
      .make (.var 1) ⟨1, 1⟩, .move (.member ⟨0, 0⟩ 0) (.var 1), .copy (.var 2) (.var 0),
      .reset (.var 0), .destroy (.var 2)] s ∧ s.deleted = [⟨1, 1⟩, ⟨0, 0⟩] := by
    refine ⟨_, .cons ⟨⟨⟨by decide, by decide⟩, by decide, by decide⟩, .const _, .of_lt (by decide)⟩
      (.cons ⟨⟨⟨by decide, by decide⟩, by decide, by decide⟩, .const _, .of_lt (by decide)⟩
      (.cons ⟨⟨⟨by decide, by decide⟩, by decide⟩, .const _, .of_lt (by decide)⟩
      (.cons ⟨⟨⟨by decide, by decide⟩, by decide⟩, .const _, .of_lt (by decide)⟩
      (.cons ⟨.tail _ (.tail _ (.tail _ (.head _))), .of_add 8 fun _ => rfl, .of_lt (by decide)⟩
      (.cons ⟨.head _, .of_add 20 fun _ => rfl, .of_lt (by decide)⟩ (.nil _)))))), by decide⟩
  exact ⟨s, hrun, hdeleted, refcounts_exact hs (.of_lt (by decide)) hrun⟩

end Trieste.Intrusive
