import Trieste.Ast.Parents
import Trieste.Library.Acyclic

namespace Trieste
set_option autoImplicit true
open Library Relation

namespace Heap

def IsTree (h : Heap) (root : Node) : Prop := Acc (fun c p => h.HasChild p c) root

theorem isTree_of_lt {h : Heap}
    (hlt : ∀ p < h.nodes.length, ∀ c ∈ (h.get p).children, p < c ∧ c < h.nodes.length) (root : Node) :
    h.IsTree root := by
  have hsub : Subrelation (fun c p => h.HasChild p c)
      (InvImage (· < ·) fun n => h.nodes.length - n) := by
    intro c p hc
    have hp := lt_of_mem_children hc
    obtain ⟨hpc, hclt⟩ := hlt p hp c hc
    exact Nat.sub_lt_sub_left hp hpc
  exact hsub.accessible (InvImage.accessible _ (Nat.lt_wfRel.wf.apply _))

def marked (h : Heap) (bit : FlagBit) : Nat := h.nodes.countP fun d => d.flags.get bit

theorem flag_lt {h : Heap} (hf : h.flag n bit = true) : n < h.nodes.length := by
  by_contra hle
  rw [flag, get_of_le h (Nat.le_of_not_lt hle)] at hf
  cases bit <;> cases hf

theorem marked_reset (h : Heap) (hf : h.flag n bit = true) :
    (h.setFlag n bit false).marked bit < h.marked bit := by
  have hn := flag_lt hf
  have hf' : h.nodes[n].flags.get bit = true := by
    rw [← hf, flag, get_eq_getElem h hn]
  have hput : (h.nodes[n].flags.put false bit).get bit = false := by cases bit <;> rfl
  have hsplit : h.nodes.countP (fun d => d.flags.get bit) =
      (h.nodes.take n ++ h.nodes[n] :: h.nodes.drop (n + 1)).countP fun d => d.flags.get bit := by
    rw [← List.drop_eq_getElem_cons hn, List.take_append_drop]
  rw [marked, marked, hsplit, setFlag, modify, List.modify_eq_take_cons_drop hn,
    List.countP_append, List.countP_append, List.countP_cons_of_neg, List.countP_cons_of_pos]
  · omega
  · exact hf'
  · simp [hput]

/-- `get_errors` from the nodes that are left on each level of the path of `traverse`, which goes
down where `contains_error` was set. -/
def findErrors (h : Heap) (errors : List Node) : List (List Node) → Heap × List Node
  | [] => (h, errors)
  | [] :: path => findErrors h errors path
  | (current :: rest) :: path =>
    if h.flag current .error then
      findErrors (h.setFlag current .error false) errors ((h.get current).children :: rest :: path)
    else if (h.get current).type = .error then
      findErrors h (errors ++ [current]) (rest :: path)
    else findErrors h errors (rest :: path)
termination_by path => (h.marked .error, (path.map fun level => level.length + 1).sum)
decreasing_by
  · apply Prod.Lex.right
    simp
  · apply Prod.Lex.left
    exact marked_reset h ‹_›
  · apply Prod.Lex.right
    simp
  · apply Prod.Lex.right
    simp

/-- `get_errors`, with the root as the only node on its level. -/
def getErrors (h : Heap) (errors : List Node) (root : Node) : Heap × List Node :=
  h.findErrors errors [[root]]

/-- `Process::validate` of a node, given the results of `build_st` and `check`. -/
def validate (h : Heap) (errors : List Node) (root : Node) (built checkWellFormed checked : Bool) :
    Bool :=
  built && (h.getErrors errors root).2.isEmpty && (!checkWellFormed || checked)

def Descends (h : Heap) (p c : Node) : Prop := h.flag p .error = true ∧ h.HasChild p c

/-- A node that is listed: an error without the flag under nodes with the flag. -/
def Listed (h : Heap) (root e : Node) : Prop :=
  ReflTransGen h.Descends root e ∧ (h.get e).type = .error ∧ h.flag e .error = false

/-- The flags of some nodes are as they were. -/
structure Resets (h₀ h : Heap) : Prop where
  type : ∀ n, (h.get n).type = (h₀.get n).type
  children : ∀ n, (h.get n).children = (h₀.get n).children

theorem Resets.refl (h : Heap) : Resets h h := ⟨fun _ => rfl, fun _ => rfl⟩

theorem Resets.setFlag (h : Resets h₀ heap) (n : Node) (bit : FlagBit) (value : Bool) :
    Resets h₀ (heap.setFlag n bit value) :=
  ⟨fun m => (type_setFlag ..).trans (h.type m), fun m => (children_setFlag ..).trans (h.children m)⟩

/-- What the visit of some trees finds and leaves behind. -/
structure Visited (h₀ h h' : Heap) (roots found : List Node) : Prop where
  resets : Resets h₀ h'
  kept : ∀ m, (∀ n ∈ roots, ¬ h₀.InTree n m) → h'.flag m .error = h.flag m .error
  nodup : found.Nodup
  listed : ∀ e, e ∈ found ↔ ∃ n ∈ roots, h₀.Listed n e

theorem Listed.inTree (h : Listed heap root e) : heap.InTree root e := by
  have hmono : ∀ p c, heap.Descends p c → heap.HasChild p c := fun _ _ hd => hd.2
  exact ReflTransGen.mono hmono root e h.1

theorem not_listed_of_type {h : Heap} (hf : h.flag n .error = false)
    (ht : (h.get n).type ≠ .error) : ¬ h.Listed n e := by
  intro hl
  rcases hl.1.cases_head with rfl | ⟨c, hc, -⟩
  · exact ht hl.2.1
  · rw [hc.1] at hf
    cases hf

theorem listed_of_type {h : Heap} (hf : h.flag n .error = false) (ht : (h.get n).type = .error) :
    h.Listed n e ↔ e = n := by
  constructor
  · intro hl
    rcases hl.1.cases_head with heq | ⟨c, hc, -⟩
    · exact heq.symm
    · rw [hc.1] at hf
      cases hf
  · intro heq
    rw [heq]
    exact ⟨.refl, ht, hf⟩

theorem listed_of_flag {h : Heap} (hf : h.flag n .error = true) :
    h.Listed n e ↔ ∃ c ∈ (h.get n).children, h.Listed c e := by
  constructor
  · intro hl
    rcases hl.1.cases_head with rfl | ⟨c, hc, hpath⟩
    · have hno := hl.2.2
      rw [hf] at hno
      cases hno
    · exact ⟨c, hc.2, hpath, hl.2⟩
  · intro hl
    obtain ⟨c, hc, hpath, hlast⟩ := hl
    exact ⟨.head ⟨hf, hc⟩ hpath, hlast⟩

theorem findErrors_flag {h : Heap} (hf : h.flag n .error = true) (errors rest : List Node)
    (path : List (List Node)) : h.findErrors errors ((n :: rest) :: path) =
      (h.setFlag n .error false).findErrors errors ((h.get n).children :: rest :: path) := by
  rw [findErrors, if_pos hf]

theorem findErrors_error {h : Heap} (hf : h.flag n .error = false) (ht : (h.get n).type = .error)
    (errors rest : List Node) (path : List (List Node)) :
    h.findErrors errors ((n :: rest) :: path) = h.findErrors (errors ++ [n]) (rest :: path) := by
  rw [findErrors, if_neg (Bool.eq_false_iff.1 hf), if_pos ht]

theorem findErrors_other {h : Heap} (hf : h.flag n .error = false) (ht : (h.get n).type ≠ .error)
    (errors rest : List Node) (path : List (List Node)) :
    h.findErrors errors ((n :: rest) :: path) = h.findErrors errors (rest :: path) := by
  rw [findErrors, if_neg (Bool.eq_false_iff.1 hf), if_neg ht]

/-- The trees of different nodes on a level have no node in common. -/
def Apart (h : Heap) (level : List Node) : Prop :=
  level.Pairwise fun a b => ∀ m, h.InTree a m → ¬ h.InTree b m

theorem findErrors_level {h₀ : Heap} {level : List Node} (hapart : h₀.Apart level)
    (hvisit : ∀ n ∈ level, ∀ heap errors rest path, Resets h₀ heap →
      (∀ m, h₀.InTree n m → heap.flag m .error = h₀.flag m .error) →
      ∃ heap' found, heap.findErrors errors ((n :: rest) :: path) =
        heap'.findErrors (errors ++ found) (rest :: path) ∧ Visited h₀ heap heap' [n] found)
    (hr : Resets h₀ heap)
    (hflags : ∀ n ∈ level, ∀ m, h₀.InTree n m → heap.flag m .error = h₀.flag m .error)
    (errors : List Node) (path : List (List Node)) :
    ∃ heap' found, heap.findErrors errors (level :: path) =
      heap'.findErrors (errors ++ found) path ∧ Visited h₀ heap heap' level found := by
  induction level generalizing heap errors with
  | nil =>
    refine ⟨heap, [], ?_, hr, fun _ _ => rfl, List.nodup_nil, fun e => ?_⟩
    · rw [findErrors, List.append_nil]
    · simp
  | cons n rest ih =>
    obtain ⟨hn, hrest⟩ := List.pairwise_cons.1 hapart
    have hmem : n ∈ n :: rest := List.mem_cons_self
    obtain ⟨heap₁, found₁, hrun₁, h₁⟩ := hvisit n hmem heap errors rest path hr (hflags n hmem)
    have hflags₁ : ∀ c ∈ rest, ∀ m, h₀.InTree c m → heap₁.flag m .error = h₀.flag m .error := by
      intro c hc m hm
      rw [h₁.kept m fun a ha hin => hn c hc m (List.mem_singleton.1 ha ▸ hin) hm]
      exact hflags c (List.mem_cons_of_mem n hc) m hm
    obtain ⟨heap₂, found₂, hrun₂, h₂⟩ := ih hrest
      (fun c hc => hvisit c (List.mem_cons_of_mem n hc)) h₁.resets hflags₁ (errors ++ found₁)
    refine ⟨heap₂, found₁ ++ found₂, ?_, h₂.resets, fun m hm => ?_, ?_, fun e => ?_⟩
    · rw [hrun₁, hrun₂, List.append_assoc]
    · rw [h₂.kept m fun c hc => hm c (List.mem_cons_of_mem n hc)]
      apply h₁.kept m
      intro a ha
      rw [List.mem_singleton.1 ha]
      exact hm n hmem
    · refine List.nodup_append.2 ⟨h₁.nodup, h₂.nodup, fun e he e' he' heq => ?_⟩
      subst heq
      obtain ⟨a, ha, hla⟩ := (h₁.listed e).1 he
      obtain ⟨c, hc, hlc⟩ := (h₂.listed e).1 he'
      rw [List.mem_singleton.1 ha] at hla
      exact hn c hc e hla.inTree hlc.inTree
    · simp [h₁.listed, h₂.listed]

theorem apart_children {h : Heap} (hforest : Forest h.HasChild) (htree : h.IsTree n)
    (hnodup : (h.get n).children.Nodup) : h.Apart (h.get n).children := by
  apply List.Pairwise.imp_of_mem _ hnodup
  intro a b ha hb hne m hma hmb
  exact hne (hforest.siblings htree ha hb hma hmb)

theorem findErrors_visit {h₀ : Heap} (hforest : Forest h₀.HasChild)
    (hnodup : ∀ p, (h₀.get p).children.Nodup) (htree : h₀.IsTree n) :
    ∀ heap errors rest path, Resets h₀ heap →
      (∀ m, h₀.InTree n m → heap.flag m .error = h₀.flag m .error) →
      ∃ heap' found, heap.findErrors errors ((n :: rest) :: path) =
        heap'.findErrors (errors ++ found) (rest :: path) ∧ Visited h₀ heap heap' [n] found := by
  induction htree with
  | intro n hacc ih =>
    intro heap errors rest path hr hflags
    have hflag : heap.flag n .error = h₀.flag n .error := hflags n .refl
    have hne : ∀ (found : List Node) e, (e ∈ found ↔ h₀.Listed n e) →
        (e ∈ found ↔ ∃ a ∈ [n], h₀.Listed a e) := by
      intro found e he
      rw [he]
      simp only [List.mem_singleton, exists_eq_left]
    cases hf : h₀.flag n .error with
    | true =>
      have hapart := apart_children hforest (.intro n hacc) (hnodup n)
      have hr' := hr.setFlag n .error false
      have hflags' : ∀ c ∈ (h₀.get n).children, ∀ m, h₀.InTree c m →
          (heap.setFlag n .error false).flag m .error = h₀.flag m .error := by
        intro c hc m hm
        rw [flag_setFlag, if_neg, hflags m (.head hc hm)]
        rintro ⟨rfl, -⟩
        exact acyclic_of_acc (.intro n hacc) (TransGen.head' hc hm)
      obtain ⟨heap', found, hrun, hv⟩ := findErrors_level hapart (fun c hc => ih c hc) hr' hflags'
        errors (rest :: path)
      refine ⟨heap', found, ?_, hv.resets, fun m hm => ?_, hv.nodup, fun e => hne found e ?_⟩
      · rw [findErrors_flag (hflag.trans hf), hr.children, hrun]
      · have hnm := hm n (List.mem_singleton_self n)
        rw [hv.kept m fun c hc hin => hnm (.head hc hin), flag_setFlag, if_neg]
        rintro ⟨rfl, -⟩
        exact hnm .refl
      · rw [hv.listed, listed_of_flag hf]
    | false =>
      by_cases ht : (h₀.get n).type = .error
      · refine ⟨heap, [n], findErrors_error (hflag.trans hf) ((hr.type n).trans ht) ..,
          hr, fun _ _ => rfl, List.nodup_singleton n, fun e => hne [n] e ?_⟩
        rw [listed_of_type hf ht, List.mem_singleton]
      · refine ⟨heap, [], ?_, hr, fun _ _ => rfl, List.nodup_nil, fun e => hne [] e ?_⟩
        · rw [findErrors_other (hflag.trans hf) fun he => ht ((hr.type n).symm.trans he),
            List.append_nil]
        · exact iff_of_false List.not_mem_nil (not_listed_of_type hf ht)

theorem getErrors_listed {h : Heap} (hforest : Forest h.HasChild)
    (hnodup : ∀ p, (h.get p).children.Nodup) (htree : h.IsTree root) (errors : List Node) :
    ∃ found, (h.getErrors errors root).2 = errors ++ found ∧ found.Nodup ∧
      ∀ e, e ∈ found ↔ h.Listed root e := by
  obtain ⟨heap', found, hrun, hv⟩ := findErrors_visit hforest hnodup htree h errors [] [] (.refl h)
    fun _ _ => rfl
  refine ⟨found, ?_, hv.nodup, fun e => ?_⟩
  · rw [getErrors, hrun, findErrors, findErrors]
  · rw [hv.listed]
    simp only [List.mem_singleton, exists_eq_left]

def Innermost (h : Heap) (e : Node) : Prop := ∀ m, h.Ancestor e m → (h.get m).type ≠ .error

/-- Invariants that hold together in every state of a run. -/
structure Detectable (h : Heap) : Prop where
  errors : h.ErrorsPropagate
  linked : h.Linked
  unshared : h.Unshared

theorem Detectable.forest (h : Detectable heap) : Forest heap.HasChild :=
  fun _ _ _ hp hq => h.unshared.unique hp hq

/-- The ancestors of an error know of it. -/
theorem Detectable.flag (h : Detectable heap) (ha : heap.Ancestor n m)
    (hm : (heap.get m).type = .error) : heap.flag n .error = true := by
  induction ha using TransGen.head_induction_on with
  | single hc => exact (h.errors m _ (h.linked _ m hc)).2 (.inl hm)
  | head hc _ ih => exact (h.errors _ _ (h.linked _ _ hc)).2 (.inr ih)

theorem Detectable.listed_iff (h : Detectable heap) (root e : Node) :
    heap.Listed root e ↔
      heap.InTree root e ∧ (heap.get e).type = .error ∧ heap.flag e .error = false := by
  constructor
  · intro hl
    exact ⟨hl.inTree, hl.2⟩
  · intro he
    obtain ⟨hin, ht, hf⟩ := he
    refine ⟨?_, ht, hf⟩
    induction hin using ReflTransGen.head_induction_on with
    | refl => exact .refl
    | head hc hce ih => exact .head ⟨h.flag (TransGen.head' hc hce) ht, hc⟩ ih

theorem Detectable.innermost (h : Detectable heap) (hf : heap.flag e .error = false) :
    heap.Innermost e := by
  intro m hm ht
  rw [h.flag hm ht] at hf
  cases hf

theorem exists_innermost {h : Heap} (htree : h.IsTree root) (hin : h.InTree root e)
    (ht : (h.get e).type = .error) :
    ∃ e', h.InTree root e' ∧ (h.get e').type = .error ∧ h.Innermost e' := by
  -- the relation of descendants is well-founded below the root, as the one of children is
  have hacc := (acc_of_reaches htree hin).transGen
  induction hacc with
  | intro e _ ih =>
    by_cases hinner : h.Innermost e
    · exact ⟨e, hin, ht, hinner⟩
    · obtain ⟨m, hm, htm⟩ : ∃ m, h.Ancestor e m ∧ (h.get m).type = .error := by
        simpa [Innermost] using hinner
      exact ih m (transGen_swap.1 hm) (hin.trans hm.to_reflTransGen) htm

/-- What `get_errors` on a root and `validate` tell of the errors in its tree. -/
structure ErrorsDetected (h : Heap) (root : Node) : Prop where
  found : (h.getErrors [] root).2 ≠ [] ↔ ∃ e, h.InTree root e ∧ (h.get e).type = .error
  listed : ∀ e ∈ (h.getErrors [] root).2,
    h.InTree root e ∧ (h.get e).type = .error ∧ h.Innermost e
  once : ∀ e, h.InTree root e → (h.get e).type = .error → h.Innermost e →
    (h.getErrors [] root).2.count e = 1
  invalid : ∀ errors built checkWellFormed checked,
    h.validate errors root built checkWellFormed checked = true →
      ∀ e, h.InTree root e → (h.get e).type ≠ .error

theorem Detectable.errorsDetected_iff (h : Detectable heap) (htree : heap.IsTree root) :
    heap.ErrorsDetected root ↔
      ∀ e, heap.InTree root e → (heap.get e).type = .error → heap.Innermost e →
        heap.flag e .error = false := by
  have hlist := getErrors_listed h.forest h.unshared.nodup htree
  obtain ⟨found, hfound, hnodup, hmem⟩ := hlist []
  rw [List.nil_append] at hfound
  constructor
  · intro hd e hin ht hinner
    have hcount := hd.once e hin ht hinner
    rw [hfound] at hcount
    have he : e ∈ found := by
      apply List.count_pos_iff.1
      rw [hcount]
      exact Nat.one_pos
    exact ((hmem e).1 he).2.2
  · intro hflag
    have hinner : ∀ e, heap.InTree root e → (heap.get e).type = .error → heap.Innermost e →
        heap.Listed root e := by
      intro e hin ht hinner
      exact (h.listed_iff root e).2 ⟨hin, ht, hflag e hin ht hinner⟩
    refine ⟨?_, fun e he => ?_, fun e hin ht he => ?_, ?_⟩
    · rw [hfound]
      constructor
      · intro hne
        obtain ⟨e, he⟩ := List.exists_mem_of_ne_nil found hne
        have hl := (hmem e).1 he
        exact ⟨e, hl.inTree, hl.2.1⟩
      · intro hex
        obtain ⟨e, hin, ht⟩ := hex
        obtain ⟨e', hin', ht', he'⟩ := exists_innermost htree hin ht
        exact List.ne_nil_of_mem ((hmem e').2 (hinner e' hin' ht' he'))
    · rw [hfound] at he
      have hl := (hmem e).1 he
      exact ⟨hl.inTree, hl.2.1, h.innermost hl.2.2⟩
    · rw [hfound]
      exact List.count_eq_one_of_mem hnodup ((hmem e).2 (hinner e hin ht he))
    · intro errors built checkWellFormed checked hvalid e hin ht
      obtain ⟨e', hin', ht', he'⟩ := exists_innermost htree hin ht
      obtain ⟨found', hfound', -, hmem'⟩ := hlist errors
      have hnew := (hmem' e').2 (hinner e' hin' ht' he')
      simp only [validate, hfound', Bool.and_eq_true, List.isEmpty_iff, List.append_eq_nil_iff]
        at hvalid
      rw [hvalid.1.2.2] at hnew
      cases hnew

theorem Detectable.attach {heap' : Heap} {ns : List Node} (h : Detectable heap)
    (herrors : heap'.ErrorsPropagate) (ha : Attached heap heap' p ns) (hu : heap'.Unshared) :
    Detectable heap' :=
  ⟨herrors, h.linked.attach ha hu, hu⟩

theorem Detectable.detach (h : Detectable heap) (hd : Detached heap heap') (hu : heap'.Unshared) :
    Detectable heap' :=
  ⟨h.errors.of_parent hd.length hd.type hd.flag hd.parent, h.linked.detach hd, hu⟩

theorem Detectable.create (h : Detectable heap) (type : Token) (location : Location) :
    Detectable (heap.create type location).1 :=
  ⟨h.errors.create type location, h.linked.create type location,
    (unshared_create heap type location).2 h.unshared⟩

theorem Detectable.pushFront (h : Detectable heap) (hp : p < heap.nodes.length)
    (hn : n < heap.nodes.length) (hu : Unshared (heap.pushFront p (some n))) :
    Detectable (heap.pushFront p (some n)) := by
  have hp' : p < (heap.setChildren p (n :: (heap.get p).children)).nodes.length := by
    rwa [length_setChildren]
  exact h.attach ((h.errors.setChildren p _).adopt hp' n) (heap.pushFront_attached hp hn) hu

theorem Detectable.pushBack (h : Detectable heap) (hp : p < heap.nodes.length)
    (hn : n < heap.nodes.length) (hu : Unshared (heap.pushBack p (some n))) :
    Detectable (heap.pushBack p (some n)) := by
  have hp' : p < (heap.setChildren p ((heap.get p).children ++ [n])).nodes.length := by
    rwa [length_setChildren]
  exact h.attach ((h.errors.setChildren p _).adopt hp' n) (heap.pushBack_attached hp hn) hu

theorem Detectable.insert (h : Detectable heap) (hp : p < heap.nodes.length)
    (hn : n < heap.nodes.length) (hu : Unshared (heap.insert p pos (some n))) :
    Detectable (heap.insert p pos (some n)) :=
  h.attach ((h.errors.adopt hp n).setChildren p _) (heap.insert_attached hp hn pos) hu

theorem Detectable.insertRange (h : Detectable heap) (hp : p < heap.nodes.length)
    (hns : ∀ n ∈ ns, n < heap.nodes.length) (hu : Unshared (heap.insertRange p pos ns)) :
    Detectable (heap.insertRange p pos ns) := by
  apply h.attach _ (heap.insertRange_attached hp hns pos) hu
  unfold Heap.insertRange
  split
  · exact h.errors
  · exact (h.errors.foldl_adopt hp ns).setChildren p _

theorem Detectable.insertCopies (h : Detectable heap) (hp : p < heap.nodes.length)
    (hu : Unshared (heap.insertCopies p pos count type)) :
    Detectable (heap.insertCopies p pos count type) := by
  unfold Heap.insertCopies at hu ⊢
  split
  · exact h
  · next hcount =>
    rw [if_neg hcount] at hu
    apply (h.create type {}).insertRange _ _ hu
    · rw [length_create]
      exact Nat.lt_succ_of_lt hp
    · intro n hn
      rw [List.eq_of_mem_replicate hn, length_create]
      exact Nat.lt_succ_self _

theorem Detectable.replace (h : Detectable heap) (hn₂ : n₂ < heap.nodes.length)
    (hr : heap.replace p n₁ (some n₂) = some heap') (hu : heap'.Unshared) : Detectable heap' :=
  ⟨h.errors.replace hr, h.linked.replace h.unshared hr hn₂ hu, hu⟩

/-- A child that is replaced by nothing keeps its parent, and its parent keeps the others. -/
theorem Detectable.remove (h : Detectable heap) (hr : heap.replace p n none = some heap')
    (hu : heap'.Unshared) : Detectable heap' := by
  simp only [Heap.replace] at hr
  split at hr
  · cases hr
  · obtain rfl := Option.some.inj hr
    refine ⟨h.errors.setChildren p _, fun q c hc => ?_, hu⟩
    rw [parent_setChildren]
    rw [children_setChildren] at hc
    split at hc
    · next hq =>
      rw [← hq.1]
      exact h.linked p c (List.mem_of_mem_eraseIdx hc)
    · exact h.linked q c hc

theorem Unshared.pushBack (h : Unshared heap) (hp : p < heap.nodes.length)
    (hloose : heap.Loose n) : Unshared (heap.pushBack p (some n)) := by
  have honly : ∀ q c, c ∈ ((heap.pushBack p (some n)).get q).children →
      c ∈ (heap.get q).children ∨ p = q ∧ c = n := by
    intro q c hc
    rw [children_pushBack heap hp] at hc
    split at hc
    · next hq =>
      rw [← hq]
      exact (List.mem_append.1 hc).imp_right fun hn => ⟨rfl, List.mem_singleton.1 hn⟩
    · exact .inl hc
  rw [unshared_iff]
  constructor
  · intro q
    rw [children_pushBack heap hp]
    split
    · refine List.nodup_append.2 ⟨h.nodup p, List.nodup_singleton n, fun a ha b hb heq => ?_⟩
      rw [heq, List.mem_singleton.1 hb] at ha
      exact hloose p ha
    · exact h.nodup q
  · intro q r c hq hr
    rcases honly q c hq with hq | ⟨hpq, hcn⟩
    · rcases honly r c hr with hr | ⟨-, hcn⟩
      · exact h.unique hq hr
      · exact absurd (hcn ▸ hq) (hloose q)
    · rcases honly r c hr with hr | ⟨hpr, -⟩
      · exact absurd (hcn ▸ hr) (hloose r)
      · exact hpq.symm.trans hpr

theorem Detectable.clone (h : Detectable heap) (hc : heap.clone fuel n = some (heap', copy)) :
    Detectable heap' ∧ heap'.Loose copy ∧ copy < heap'.nodes.length := by
  apply clone_invariant _ _ _ h hc
  · intro h type location hd
    exact hd.create type location
  · intro h p c hd hc
    exact hd.linked.lt hc
  · intro h p n hd hp hn hloose
    exact hd.pushBack hp hn (hd.unshared.pushBack hp hloose)

end Heap

namespace NodeOp
open Heap

def handles : NodeOp → List Node
  | build op => op.handles
  | remove p n => [p, n]
  | replaceAt p _ n => p :: n.toList

/-- An operation on existing nodes that leaves no node attached at two places. -/
structure TreeStep (h : Heap) (op : NodeOp) (h' : Heap) : Prop where
  handles : ∀ n ∈ op.handles, n < h.nodes.length
  performs : op.Performs h h'
  unshared : h'.Unshared

theorem TreeStep.detectable (h : Detectable heap) (hs : TreeStep heap op heap') :
    Detectable heap' := by
  obtain ⟨hhandles, hperforms, hu⟩ := hs
  cases op with
  | remove p n => exact h.remove hperforms hu
  | replaceAt p index n =>
    obtain ⟨n₁, -, hreplace⟩ := Option.bind_eq_some_iff.1 hperforms
    cases n with
    | none => exact h.remove hreplace hu
    | some n =>
      have hn := hhandles n (List.mem_cons_of_mem p (List.mem_singleton_self n))
      exact h.replace hn hreplace hu
  | build op =>
    cases op with
    | create type location =>
      cases hperforms
      exact h.create type location
    | pushFront p n =>
      cases hperforms
      cases n with
      | none => exact h
      | some n =>
        have hn := hhandles n (List.mem_cons_of_mem p (List.mem_singleton_self n))
        exact h.pushFront (hhandles p List.mem_cons_self) hn hu
    | pushBack p n =>
      cases hperforms
      cases n with
      | none => exact h
      | some n =>
        have hn := hhandles n (List.mem_cons_of_mem p (List.mem_singleton_self n))
        exact h.pushBack (hhandles p List.mem_cons_self) hn hu
    | insert p pos n =>
      cases hperforms
      cases n with
      | none => exact h
      | some n =>
        have hn := hhandles n (List.mem_cons_of_mem p (List.mem_singleton_self n))
        exact h.insert (hhandles p List.mem_cons_self) hn hu
    | insertRange p pos ns =>
      cases hperforms
      have hns : ∀ n ∈ ns, n < heap.nodes.length := by
        intro n hn
        exact hhandles n (List.mem_cons_of_mem p hn)
      exact h.insertRange (hhandles p List.mem_cons_self) hns hu
    | insertCopies p pos count type =>
      cases hperforms
      exact h.insertCopies (hhandles p (List.mem_singleton_self p)) hu
    | replace p n₁ n₂ =>
      have hn₂ : n₂ ∈ [p, n₁, n₂] := by simp
      exact h.replace (hhandles n₂ hn₂) hperforms hu
    | erase p first last =>
      cases hperforms
      exact h.detach (erase_detached h.unshared p first last) hu
    | popBack p =>
      cases hperforms
      exact h.detach (popBack_detached h.unshared p) hu
    | clone n =>
      obtain ⟨fuel, copy, hclone⟩ := hperforms
      exact (h.clone hclone).1

theorem detectable_of_run (hrun : Run TreeStep {} ops heap) : Detectable heap := by
  have hempty : Detectable {} := by
    refine ⟨?_, ?_, List.nodup_nil⟩
    · intro c p hp
      cases hp
    · intro p c hc
      cases hc
  apply hrun.invariant _ hempty
  intro h op h' hd hstep
  exact hstep.detectable hd

/-- The errors of a tree are detected if and only if those without errors below them do not have
the flag. -/
theorem errors_detected (hrun : Run TreeStep {} ops heap) (htree : heap.IsTree root) :
    heap.ErrorsDetected root ↔
      ∀ e, heap.InTree root e → (heap.get e).type = .error → heap.Innermost e →
        heap.flag e .error = false := by
  have hd := detectable_of_run hrun
  exact hd.errorsDetected_iff htree

/-- An error around another one under a top node. -/
theorem errors_detected_nested : ∃ heap, Run TreeStep {}
    [build (.create ⟨"top", 0⟩ {}), build (.create .error {}), build (.create .error {}),
      build (.pushBack 1 (some 2)), build (.pushBack 0 (some 1))] heap ∧ heap.IsTree 0 ∧
    (heap.ErrorsDetected 0 ↔
      ∀ e, heap.InTree 0 e → (heap.get e).type = .error → heap.Innermost e →
        heap.flag e .error = false) := by
  have hrun : ∃ heap, Run TreeStep {}
      [build (.create ⟨"top", 0⟩ {}), build (.create .error {}), build (.create .error {}),
        build (.pushBack 1 (some 2)), build (.pushBack 0 (some 1))] heap ∧ heap.IsTree 0 :=
    ⟨_, .cons ⟨by decide, rfl, by decide⟩ (.cons ⟨by decide, rfl, by decide⟩
      (.cons ⟨by decide, rfl, by decide⟩ (.cons ⟨by decide, rfl, by decide⟩
      (.cons ⟨by decide, rfl, by decide⟩ (.nil _))))), isTree_of_lt (by decide) 0⟩
  obtain ⟨heap, hrun, htree⟩ := hrun
  exact ⟨heap, hrun, htree, errors_detected hrun htree⟩

/-- An error from which another one was erased keeps the flag, and is not listed. -/
theorem error_missed : ∃ ops heap root, Run TreeStep {} ops heap ∧ heap.IsTree root ∧
    ¬ heap.ErrorsDetected root := by
  have hrun : ∃ heap, Run TreeStep {}
      [build (.create ⟨"top", 0⟩ {}), build (.create .error {}), build (.create .error {}),
        build (.pushBack 1 (some 2)), build (.erase 1 0 1), build (.pushBack 0 (some 1))] heap ∧
      heap.IsTree 0 ∧ 1 ∈ (heap.get 0).children ∧ (heap.get 1).children = [] ∧
      (heap.get 1).type = .error ∧ heap.flag 1 .error = true :=
    ⟨_, .cons ⟨by decide, rfl, by decide⟩ (.cons ⟨by decide, rfl, by decide⟩
      (.cons ⟨by decide, rfl, by decide⟩ (.cons ⟨by decide, rfl, by decide⟩
      (.cons ⟨by decide, rfl, by decide⟩ (.cons ⟨by decide, rfl, by decide⟩ (.nil _)))))),
      isTree_of_lt (by decide) 0, by decide, by decide, by decide, by decide⟩
  obtain ⟨heap, hrun, htree, hchild, hleaf, htype, hflag⟩ := hrun
  refine ⟨_, heap, 0, hrun, htree, fun hdetected => ?_⟩
  have hinner : heap.Innermost 1 := by
    intro m hm
    obtain ⟨c, hc, -⟩ := TransGen.head'_iff.1 hm
    rw [hleaf] at hc
    cases hc
  have hno := ((detectable_of_run hrun).errorsDetected_iff htree).1 hdetected 1 (.single hchild)
    htype hinner
  rw [hflag] at hno
  cases hno

end NodeOp

end Trieste
