import Trieste.Ast.Errors
import Trieste.Library.Ancestry

namespace Trieste
set_option autoImplicit true
open Library Relation

namespace Heap

/-- The length of the walk from a node to the one without a parent, if it ends within the fuel. -/
def depth (h : Heap) : Nat → Option Node → Option Nat
  | _, none => some 0
  | 0, some _ => none
  | fuel + 1, some t => (depth h fuel (h.get t).parent).map (· + 1)

/-- So many steps to the parent; nothing where one of them follows a null pointer. -/
def lift (h : Heap) : Nat → Node → Option Node
  | 0, p => some p
  | i + 1, p => (h.get p).parent.bind (lift h i)

/-- The last loop of `same_parent`; nothing where it follows a null pointer. -/
def climb (h : Heap) : Nat → Node → Node → Option (Node × Node)
  | 0, _, _ => none
  | fuel + 1, p, q =>
    if (h.get p).parent = (h.get q).parent then some (p, q)
    else do
      let p ← (h.get p).parent
      let q ← (h.get q).parent
      climb h fuel p q

/-- `same_parent` -/
def sameParent (h : Heap) (fuel : Nat) (p q : Node) : Option (Node × Node) := do
  let d₁ ← h.depth fuel (some p)
  let d₂ ← h.depth fuel (some q)
  let p ← h.lift (d₁ - d₂) p
  let q ← h.lift (d₂ - d₁) q
  h.climb fuel p q

/-- `common_parent` -/
def commonParent (h : Heap) (fuel : Nat) (p q : Node) : Option Node := do
  let (p, q) ← h.sameParent fuel p q
  if p = q then some p else (h.get p).parent

/-- `precedes` -/
def precedes (h : Heap) (fuel : Nat) (p q : Node) : Option Bool := do
  let (p, q) ← h.sameParent fuel p q
  if p = q then some false
  else do
    let parent ← (h.get p).parent
    let children := (h.get parent).children
    some (children.idxOf p < children.idxOf q)

/-- The parent of a node, as its trail is built from. -/
def up (h : Heap) (n : Node) : Option Node := (h.get n).parent

theorem depth_trail {h : Heap} (ht : Trail h.up n l) (hfuel : l.length ≤ fuel) :
    h.depth fuel (some n) = some l.length := by
  induction ht generalizing fuel with
  | @root a hroot =>
    cases fuel with
    | zero => exact absurd hfuel (Nat.not_succ_le_zero 0)
    | succ fuel =>
      have hparent : (h.get a).parent = none := hroot
      rw [depth, hparent]
      cases fuel <;> rfl
  | @child a p l hp _ ih =>
    rw [List.length_append] at hfuel ⊢
    cases fuel with
    | zero => exact absurd hfuel (Nat.not_succ_le_zero _)
    | succ fuel =>
      have hparent : (h.get a).parent = some p := hp
      rw [depth, hparent, ih (Nat.le_of_succ_le_succ hfuel)]
      rfl

theorem lift_trail {h : Heap} (ht : Trail h.up n (before ++ x :: after)) :
    h.lift after.length n = some x := by
  induction after using List.reverseRecOn generalizing n with
  | nil =>
    have hlast := ht.getLast
    rw [List.getLast?_concat] at hlast
    exact hlast.symm
  | append_singleton after a ih =>
    obtain ⟨-, p, hp, hpt⟩ := ht.step
    have hparent : (h.get n).parent = some p := hp
    rw [List.length_append, List.length_singleton, lift, hparent]
    exact ih hpt

theorem climb_part {h : Heap} (hp : Trail h.up p (before ++ x :: after))
    (hq : Trail h.up q (before ++ y :: after')) (hne : x ≠ y)
    (hlength : after.length = after'.length) (hfuel : after.length < fuel) :
    h.climb fuel p q = some (x, y) := by
  induction after using List.reverseRecOn generalizing p q after' fuel with
  | nil =>
    obtain rfl := List.length_eq_zero_iff.1 hlength.symm
    cases fuel with
    | zero => exact absurd hfuel (Nat.not_lt_zero _)
    | succ fuel =>
      have hx := hp.getLast
      have hy := hq.getLast
      rw [List.getLast?_concat] at hx hy
      cases hx
      cases hy
      exact if_pos (hp.parent.trans hq.parent.symm)
  | append_singleton after a ih =>
    cases fuel with
    | zero => exact absurd hfuel (Nat.not_lt_zero _)
    | succ fuel =>
      obtain ⟨after', b, rfl⟩ : ∃ rest b, after' = rest ++ [b] := by
        rcases List.eq_nil_or_concat' after' with rfl | hconcat
        · rw [List.length_append] at hlength
          cases hlength
        · exact hconcat
      rw [List.length_append, List.length_append] at hlength
      rw [List.length_append] at hfuel
      obtain ⟨-, p', hp', hpt⟩ := hp.step
      obtain ⟨-, q', hq', hqt⟩ := hq.step
      have hpp : (h.get p).parent = some p' := hp'
      have hqq : (h.get q).parent = some q' := hq'
      have hne' : some p' ≠ some q' := by
        intro heq
        cases heq
        exact hne (List.cons.inj (List.append_cancel_left (hpt.unique hqt))).1
      rw [climb, hpp, hqq, if_neg hne']
      exact ih hpt hqt (Nat.succ.inj hlength) (Nat.lt_of_succ_lt_succ hfuel)

theorem lift_take {h : Heap} (ht : Trail h.up n l) (hk : 0 < k) :
    ∃ m, h.lift (l.length - k) n = some m ∧ Trail h.up m (l.take k) := by
  rcases Nat.le_total l.length k with hle | hle
  · rw [Nat.sub_eq_zero_of_le hle, List.take_of_length_le hle]
    exact ⟨n, rfl, ht⟩
  have hlength : (l.take k).length = k := List.length_take_of_le hle
  rcases List.eq_nil_or_concat' (l.take k) with hnil | hconcat
  · rw [hnil] at hlength
    exact absurd hlength (Nat.ne_of_lt hk)
  · obtain ⟨before, m, htake⟩ := hconcat
    have hsplit : before ++ m :: l.drop k = l := by
      rw [List.append_cons, ← htake, List.take_append_drop]
    have hdrop : l.length - k = (l.drop k).length := List.length_drop.symm
    refine ⟨m, ?_, ?_⟩
    · rw [hdrop]
      exact lift_trail (hsplit ▸ ht)
    · rw [htake]
      exact ht.start (htake ▸ List.take_prefix k l)

theorem sameParent_eq {h : Heap} (hp : Trail h.up p l) (hq : Trail h.up q l')
    (hfuel : l.length ≤ fuel) (hfuel' : l'.length ≤ fuel) :
    ∃ p' q', h.sameParent fuel p q = h.climb fuel p' q' ∧
      Trail h.up p' (l.take l'.length) ∧ Trail h.up q' (l'.take l.length) := by
  obtain ⟨p', hp', hpt⟩ := lift_take hp hq.length_pos
  obtain ⟨q', hq', hqt⟩ := lift_take hq hp.length_pos
  refine ⟨p', q', ?_, hpt, hqt⟩
  rw [sameParent, depth_trail hp hfuel, depth_trail hq hfuel']
  show ((h.lift (l.length - l'.length) p).bind fun p =>
    (h.lift (l'.length - l.length) q).bind fun q => h.climb fuel p q) = _
  rw [hp', hq']
  rfl

theorem sameParent_above {h : Heap} (hp : Trail h.up p l) (hq : Trail h.up q l') (hl : l <+: l')
    (hfuel : l'.length ≤ fuel) :
    h.sameParent fuel p q = some (p, p) ∧ h.sameParent fuel q p = some (p, p) := by
  have hle := hl.length_le
  have htake : l'.take l.length = l := (List.prefix_iff_eq_take.1 hl).symm
  have htake' : l.take l'.length = l := List.take_of_length_le hle
  have hself : ∀ {n}, Trail h.up n l → n = p := by
    intro n ht
    have hlast := ht.getLast
    rw [hp.getLast] at hlast
    exact (Option.some.inj hlast).symm
  have hclimb : h.climb fuel p p = some (p, p) := by
    cases fuel with
    | zero => exact absurd hp.length_pos (Nat.not_lt.2 (hle.trans hfuel))
    | succ fuel => exact if_pos rfl
  obtain ⟨p₁, q₁, heq, hp₁, hq₁⟩ := sameParent_eq hp hq (hle.trans hfuel) hfuel
  obtain ⟨q₂, p₂, heq', hq₂, hp₂⟩ := sameParent_eq hq hp hfuel (hle.trans hfuel)
  rw [htake'] at hp₁ hp₂
  rw [htake] at hq₁ hq₂
  rw [heq, heq', hself hp₁, hself hq₁, hself hp₂, hself hq₂]
  exact ⟨hclimb, hclimb⟩

theorem sameParent_part {h : Heap} (hp : Trail h.up p l) (hq : Trail h.up q l')
    (hpart : PartAt before x y l l') (hfuel : l.length ≤ fuel) (hfuel' : l'.length ≤ fuel) :
    h.sameParent fuel p q = some (x, y) := by
  obtain ⟨p', q', heq, hp', hq'⟩ := sameParent_eq hp hq hfuel hfuel'
  have hlength : ∀ z : Node, (before ++ [z]).length = before.length + 1 := fun z =>
    List.length_append
  have hx := hpart.left.length_le
  have hy := hpart.right.length_le
  rw [hlength] at hx hy
  have hleft : before ++ [x] <+: l.take l'.length :=
    List.prefix_take_iff.2 ⟨hpart.left, (hlength x).trans_le hy⟩
  have hright : before ++ [y] <+: l'.take l.length :=
    List.prefix_take_iff.2 ⟨hpart.right, (hlength y).trans_le hx⟩
  obtain ⟨after, hafter⟩ := hleft
  obtain ⟨after', hafter'⟩ := hright
  rw [List.append_assoc, List.singleton_append] at hafter hafter'
  have hsame := congrArg List.length hafter
  have hsame' := congrArg List.length hafter'
  rw [List.length_append, List.length_cons, List.length_take] at hsame hsame'
  rw [← hafter] at hp'
  rw [← hafter'] at hq'
  rw [heq]
  exact climb_part hp' hq' hpart.ne (by omega) (by omega)

/-- The first node stands before the second one in the child list of their parent. -/
def LeftSibling (h : Heap) (x y : Node) : Prop :=
  ∃ p, h.up x = some p ∧ h.up y = some p ∧
    (h.get p).children.idxOf x < (h.get p).children.idxOf y

theorem LeftSibling.trans {h : Heap} (hxy : h.LeftSibling x y) (hyz : h.LeftSibling y z) :
    h.LeftSibling x z := by
  obtain ⟨p, hx, hy, hlt⟩ := hxy
  obtain ⟨q, hy', hz, hlt'⟩ := hyz
  rw [hy] at hy'
  cases hy'
  exact ⟨p, hx, hz, hlt.trans hlt'⟩

theorem LeftSibling.irrefl (h : Heap) (x : Node) : ¬ h.LeftSibling x x := by
  intro hx
  obtain ⟨p, -, -, hlt⟩ := hx
  exact Nat.lt_irrefl _ hlt

theorem LeftSibling.asymm {h : Heap} (hxy : h.LeftSibling x y) : ¬ h.LeftSibling y x :=
  fun hyx => irrefl h x (hxy.trans hyx)

/-- A tree: its root has no parent, and every other node the one that it is a child of. -/
structure Rooted (h : Heap) (root : Node) : Prop where
  top : (h.get root).parent = none
  parent : ∀ p c, h.InTree root p → c ∈ (h.get p).children → (h.get c).parent = some p

theorem Agree.rooted (h : Agree heap) (htop : (heap.get root).parent = none) : Rooted heap root :=
  ⟨htop, fun p c _ hc => (h.parent c p).2 hc⟩

namespace Rooted

theorem exists_trail (h : Rooted heap root) (hn : heap.InTree root n) :
    ∃ l, Trail heap.up n (root :: l) := by
  induction hn with
  | refl => exact ⟨[], .root h.top⟩
  | @tail p c hp hc ih =>
    obtain ⟨l, hl⟩ := ih
    exact ⟨l ++ [c], .child (h.parent p c hp hc) hl⟩

theorem child_of_up (h : Rooted heap root) (hn : heap.InTree root n) (hup : heap.up n = some p) :
    heap.InTree root p ∧ heap.HasChild p n := by
  rcases hn.cases_tail with rfl | ⟨q, hq, hqn⟩
  · rw [up, h.top] at hup
    cases hup
  · rw [up, h.parent q n hq hqn] at hup
    cases hup
    exact ⟨hq, hqn⟩

theorem inTree_of_above (h : Rooted heap root) (hn : heap.InTree root n)
    (habove : ReflTransGen (fun p c => heap.up c = some p) m n) :
    heap.InTree root m ∧ heap.InTree m n := by
  induction habove with
  | refl => exact ⟨hn, .refl⟩
  | tail _ hup ih =>
    obtain ⟨hp, hchild⟩ := h.child_of_up hn hup
    obtain ⟨hm, hmp⟩ := ih hp
    exact ⟨hm, hmp.tail hchild⟩

theorem above_of_inTree (h : Rooted heap root) (hm : heap.InTree root m) (hmn : heap.InTree m n) :
    ReflTransGen (fun p c => heap.up c = some p) m n := by
  induction hmn with
  | refl => exact .refl
  | @tail p c hp hc ih => exact ih.tail (h.parent p c (hm.trans hp) hc)

theorem inTree_iff (h : Rooted heap root) (hp : heap.InTree root p) (hq : heap.InTree root q)
    (hpt : Trail heap.up p l) (hqt : Trail heap.up q l') : heap.InTree p q ↔ l <+: l' := by
  rw [← hpt.above_iff hqt]
  constructor
  · intro hpq
    exact h.above_of_inTree hp hpq
  · intro hpq
    exact (h.inTree_of_above hq hpq).2

theorem inTree_of_start (h : Rooted heap root) (hn : heap.InTree root n) (hnt : Trail heap.up n l)
    (hmt : Trail heap.up m l') (hl : l' <+: l) : heap.InTree root m ∧ heap.InTree m n :=
  h.inTree_of_above hn ((hmt.above_iff hnt).2 hl)

end Rooted

theorem trail_length {h : Heap} (ht : Trail h.up n (root :: l)) :
    (root :: l).length ≤ h.nodes.length + 1 := by
  have hsub : l ⊆ List.range h.nodes.length := by
    intro x hx
    obtain ⟨before, after, rfl⟩ := List.append_of_mem hx
    have hx : Trail h.up x ((root :: before) ++ [x]) := ht.start ⟨after, List.append_assoc ..⟩
    obtain ⟨p, hp, -⟩ := hx.child_inv (List.cons_ne_nil _ _)
    rw [List.mem_range]
    by_contra hle
    have hparent : (h.get x).parent = some p := hp
    rw [get_of_le h (Nat.le_of_not_lt hle)] at hparent
    cases hparent
  have hle := (List.subperm_of_subset ht.nodup.of_cons hsub).length_le
  rw [List.length_range] at hle
  exact Nat.succ_le_succ hle

section Order
variable {heap : Heap} {fuel : Nat} {root p q : Node} {l l' : List Node}

theorem precedes_above (hp : Trail heap.up p l) (hq : Trail heap.up q l') (hl : l <+: l')
    (hfuel : l'.length ≤ fuel) :
    heap.precedes fuel p q = some false ∧ heap.precedes fuel q p = some false := by
  obtain ⟨hpq, hqp⟩ := sameParent_above hp hq hl hfuel
  have hsame : ∀ {m n}, heap.sameParent fuel m n = some (p, p) →
      heap.precedes fuel m n = some false := by
    intro m n heq
    rw [precedes, heq]
    exact if_pos rfl
  exact ⟨hsame hpq, hsame hqp⟩

theorem part_parent (hp : Trail heap.up p (root :: l)) (hq : Trail heap.up q (root :: l'))
    (hpart : PartAt before x y (root :: l) (root :: l')) :
    ∃ w, Trail heap.up w before ∧ heap.up x = some w ∧ heap.up y = some w := by
  have hne : before ≠ [] := by
    rintro rfl
    have hx := (List.cons_prefix_cons.1 hpart.left).1
    have hy := (List.cons_prefix_cons.1 hpart.right).1
    exact hpart.ne (hx.trans hy.symm)
  obtain ⟨w, hx, hw⟩ := (hp.start hpart.left).child_inv hne
  obtain ⟨w', hy, hw'⟩ := (hq.start hpart.right).child_inv hne
  have hlast := hw.getLast
  rw [hw'.getLast] at hlast
  cases hlast
  exact ⟨w, hw, hx, hy⟩

theorem precedes_part (hp : Trail heap.up p (root :: l)) (hq : Trail heap.up q (root :: l'))
    (hpart : PartAt before x y (root :: l) (root :: l')) (hfuel : (root :: l).length ≤ fuel)
    (hfuel' : (root :: l').length ≤ fuel) :
    ∃ r, heap.precedes fuel p q = some r ∧ (r = true ↔ heap.LeftSibling x y) := by
  obtain ⟨w, -, hx, hy⟩ := part_parent hp hq hpart
  have hparent : (heap.get x).parent = some w := hx
  refine ⟨(heap.get w).children.idxOf x < (heap.get w).children.idxOf y, ?_, ?_⟩
  · rw [precedes, sameParent_part hp hq hpart hfuel hfuel']
    show (if x = y then _ else _) = _
    rw [if_neg hpart.ne, hparent]
    rfl
  · rw [decide_eq_true_iff]
    constructor
    · intro hlt
      exact ⟨w, hx, hy, hlt⟩
    · intro hleft
      obtain ⟨w', hx', -, hlt⟩ := hleft
      rw [hx] at hx'
      cases hx'
      exact hlt

theorem precedes_iff (hp : Trail heap.up p (root :: l)) (hq : Trail heap.up q (root :: l'))
    (hfuel : heap.nodes.length < fuel) :
    ∃ r, heap.precedes fuel p q = some r ∧
      (r = true ↔ LeftOf heap.LeftSibling (root :: l) (root :: l')) := by
  have hlp := (trail_length hp).trans hfuel
  have hlq := (trail_length hq).trans hfuel
  by_cases habove : root :: l <+: root :: l'
  · refine ⟨false, (precedes_above hp hq habove hlq).1, iff_of_false Bool.false_ne_true ?_⟩
    intro hleft
    obtain ⟨before, x, y, hpart, -⟩ := hleft
    exact hpart.not_start habove
  by_cases hbelow : root :: l' <+: root :: l
  · refine ⟨false, (precedes_above hq hp hbelow hlp).2, iff_of_false Bool.false_ne_true ?_⟩
    intro hleft
    obtain ⟨before, x, y, hpart, -⟩ := hleft
    exact hpart.symm.not_start hbelow
  obtain ⟨before, x, y, hpart⟩ := exists_partAt habove hbelow
  obtain ⟨r, hr, hiff⟩ := precedes_part hp hq hpart hlp hlq
  refine ⟨r, hr, hiff.trans ⟨fun hlt => ⟨before, x, y, hpart, hlt⟩, ?_⟩⟩
  intro hleft
  obtain ⟨before', x', y', hpart', hlt⟩ := hleft
  obtain ⟨-, rfl, rfl⟩ := hpart.unique hpart'
  exact hlt

/-- Of two children of one node, one stands before the other. -/
theorem LeftSibling.total (hx : heap.up x = some w) (hy : heap.up y = some w)
    (hxw : heap.HasChild w x) (hne : x ≠ y) : heap.LeftSibling x y ∨ heap.LeftSibling y x := by
  have hidx : (heap.get w).children.idxOf x ≠ (heap.get w).children.idxOf y :=
    fun heq => hne ((List.idxOf_inj hxw).1 heq)
  rcases Nat.lt_or_gt_of_ne hidx with hlt | hlt
  · exact .inl ⟨w, hx, hy, hlt⟩
  · exact .inr ⟨w, hy, hx, hlt⟩

theorem commonParent_above (hp : Trail heap.up p l) (hq : Trail heap.up q l') (hl : l <+: l')
    (hfuel : l'.length ≤ fuel) :
    heap.commonParent fuel p q = some p ∧ heap.commonParent fuel q p = some p := by
  obtain ⟨hpq, hqp⟩ := sameParent_above hp hq hl hfuel
  have hsame : ∀ {m n}, heap.sameParent fuel m n = some (p, p) →
      heap.commonParent fuel m n = some p := by
    intro m n heq
    rw [commonParent, heq]
    exact if_pos rfl
  exact ⟨hsame hpq, hsame hqp⟩

theorem commonParent_part (hp : Trail heap.up p (root :: l)) (hq : Trail heap.up q (root :: l'))
    (hpart : PartAt before x y (root :: l) (root :: l')) (hfuel : (root :: l).length ≤ fuel)
    (hfuel' : (root :: l').length ≤ fuel) :
    ∃ w, heap.commonParent fuel p q = some w ∧ Trail heap.up w before := by
  obtain ⟨w, hw, hx, -⟩ := part_parent hp hq hpart
  refine ⟨w, ?_, hw⟩
  rw [commonParent, sameParent_part hp hq hpart hfuel hfuel']
  show (if x = y then _ else _) = _
  rw [if_neg hpart.ne]
  exact hx

theorem commonParent_lowest (h : Rooted heap root) (hfuel : heap.nodes.length < fuel)
    (hp : heap.InTree root p) (hq : heap.InTree root q) :
    ∃ w, heap.commonParent fuel p q = some w ∧ heap.InTree w p ∧ heap.InTree w q ∧
      ∀ m, heap.InTree root m → heap.InTree m p → heap.InTree m q → heap.InTree m w := by
  obtain ⟨l, hpt⟩ := h.exists_trail hp
  obtain ⟨l', hqt⟩ := h.exists_trail hq
  have hlp := (trail_length hpt).trans hfuel
  have hlq := (trail_length hqt).trans hfuel
  by_cases habove : root :: l <+: root :: l'
  · exact ⟨p, (commonParent_above hpt hqt habove hlq).1, .refl,
      (h.inTree_iff hp hq hpt hqt).2 habove, fun m _ hm _ => hm⟩
  by_cases hbelow : root :: l' <+: root :: l
  · exact ⟨q, (commonParent_above hqt hpt hbelow hlp).2,
      (h.inTree_iff hq hp hqt hpt).2 hbelow, .refl, fun m _ _ hm => hm⟩
  obtain ⟨before, x, y, hpart⟩ := exists_partAt habove hbelow
  obtain ⟨w, hw, hwt⟩ := commonParent_part hpt hqt hpart hlp hlq
  obtain ⟨hwroot, hwp⟩ := h.inTree_of_start hp hpt hwt hpart.start.1
  refine ⟨w, hw, hwp, (h.inTree_of_start hq hqt hwt hpart.start.2).2, ?_⟩
  intro m hm hmp hmq
  obtain ⟨lm, hmt⟩ := h.exists_trail hm
  have hmp := (h.inTree_iff hm hp hmt hpt).1 hmp
  have hmq := (h.inTree_iff hm hq hmt hqt).1 hmq
  exact (h.inTree_iff hm hwroot hmt hwt).2
    (List.prefix_of_prefix_length_le hmp hpart.start.1 (hpart.length_le hmp hmq))

end Order

/-- The order of the nodes below a root in the document. -/
structure DocumentOrder (h : Heap) (fuel : Nat) (root : Node) : Prop where
  returns : ∀ a b, h.InTree root a → h.InTree root b → ∃ r, h.precedes fuel a b = some r
  irrefl : ∀ a, h.InTree root a → h.precedes fuel a a = some false
  trans : ∀ a b c, h.InTree root a → h.InTree root b → h.InTree root c →
    h.precedes fuel a b = some true → h.precedes fuel b c = some true →
      h.precedes fuel a c = some true
  asymm : ∀ a b, h.InTree root a → h.InTree root b →
    h.precedes fuel a b = some true → h.precedes fuel b a = some false
  above : ∀ a b, h.InTree root a → h.InTree root b → h.InTree a b ∨ h.InTree b a →
    h.precedes fuel a b = some false
  apart : ∀ a b, h.InTree root a → h.InTree root b → ¬ h.InTree a b → ¬ h.InTree b a →
    (h.precedes fuel a b = some true ∧ h.precedes fuel b a = some false) ∨
      (h.precedes fuel a b = some false ∧ h.precedes fuel b a = some true)
  dominating : ∀ a b, h.InTree root a → h.InTree root b → h.InTree a b →
    h.commonParent fuel a b = some a ∧ h.commonParent fuel b a = some a
  lowest : ∀ a b, h.InTree root a → h.InTree root b →
    ∃ c, h.commonParent fuel a b = some c ∧ h.InTree c a ∧ h.InTree c b ∧
      ∀ m, h.InTree root m → h.InTree m a → h.InTree m b → h.InTree m c

/-- Precedence is the strict order of the document on the nodes of a tree, and the common parent
the lowest node above two nodes. -/
theorem document_order (h : Rooted heap root) (hfuel : heap.nodes.length < fuel) :
    DocumentOrder heap fuel root := by
  have htrail : ∀ {n}, heap.InTree root n → ∃ l, Trail heap.up n (root :: l) :=
    fun hn => h.exists_trail hn
  have hlength : ∀ {n l}, Trail heap.up n (root :: l) → (root :: l).length ≤ fuel :=
    fun ht => (trail_length ht).trans hfuel
  have hasymm : ∀ a b, heap.InTree root a → heap.InTree root b →
      heap.precedes fuel a b = some true → heap.precedes fuel b a = some false := by
    intro a b ha hb hab
    obtain ⟨la, hat⟩ := htrail ha
    obtain ⟨lb, hbt⟩ := htrail hb
    obtain ⟨r, hr, hleft⟩ := precedes_iff hat hbt hfuel
    obtain ⟨r', hr', hleft'⟩ := precedes_iff hbt hat hfuel
    rw [hab] at hr
    cases hr
    cases r' with
    | false => exact hr'
    | true =>
      have hback := (hleft.1 rfl).asymm fun _ _ hxy => hxy.asymm
      exact absurd (hleft'.1 rfl) hback
  have habove : ∀ a b, heap.InTree root a → heap.InTree root b → heap.InTree a b →
      heap.precedes fuel a b = some false ∧ heap.precedes fuel b a = some false := by
    intro a b ha hb hab
    obtain ⟨la, hat⟩ := htrail ha
    obtain ⟨lb, hbt⟩ := htrail hb
    exact precedes_above hat hbt ((h.inTree_iff ha hb hat hbt).1 hab) (hlength hbt)
  constructor
  case returns =>
    intro a b ha hb
    obtain ⟨la, hat⟩ := htrail ha
    obtain ⟨lb, hbt⟩ := htrail hb
    obtain ⟨r, hr, -⟩ := precedes_iff hat hbt hfuel
    exact ⟨r, hr⟩
  case irrefl =>
    intro a ha
    exact (habove a a ha ha .refl).1
  case trans =>
    intro a b c ha hb hc hab hbc
    obtain ⟨la, hat⟩ := htrail ha
    obtain ⟨lb, hbt⟩ := htrail hb
    obtain ⟨lc, hct⟩ := htrail hc
    obtain ⟨r, hr, hleft⟩ := precedes_iff hat hbt hfuel
    obtain ⟨r', hr', hleft'⟩ := precedes_iff hbt hct hfuel
    obtain ⟨r'', hr'', hleft''⟩ := precedes_iff hat hct hfuel
    rw [hab] at hr
    rw [hbc] at hr'
    cases hr
    cases hr'
    have hac := (hleft.1 rfl).trans (hleft'.1 rfl) (LeftSibling.irrefl heap)
      fun _ _ _ hxy hyz => hxy.trans hyz
    rw [hr'', hleft''.2 hac]
  case asymm => exact hasymm
  case above =>
    intro a b ha hb hab
    rcases hab with hab | hba
    · exact (habove a b ha hb hab).1
    · exact (habove b a hb ha hba).2
  case apart =>
    intro a b ha hb hab hba
    obtain ⟨la, hat⟩ := htrail ha
    obtain ⟨lb, hbt⟩ := htrail hb
    rw [h.inTree_iff ha hb hat hbt] at hab
    rw [h.inTree_iff hb ha hbt hat] at hba
    obtain ⟨before, x, y, hpart⟩ := exists_partAt hab hba
    obtain ⟨w, -, hx, hy⟩ := part_parent hat hbt hpart
    obtain ⟨r, hr, hleft⟩ := precedes_part hat hbt hpart (hlength hat) (hlength hbt)
    obtain ⟨r', hr', hleft'⟩ := precedes_part hbt hat hpart.symm (hlength hbt) (hlength hat)
    have hxin := (h.inTree_of_start ha hat (hat.start hpart.left) hpart.left).1
    rcases LeftSibling.total hx hy (h.child_of_up hxin hx).2 hpart.ne with hxy | hyx
    · rw [hleft.2 hxy] at hr
      exact .inl ⟨hr, hasymm a b ha hb hr⟩
    · rw [hleft'.2 hyx] at hr'
      exact .inr ⟨hasymm b a hb ha hr', hr'⟩
  case dominating =>
    intro a b ha hb hab
    obtain ⟨la, hat⟩ := htrail ha
    obtain ⟨lb, hbt⟩ := htrail hb
    exact commonParent_above hat hbt ((h.inTree_iff ha hb hat hbt).1 hab) (hlength hbt)
  case lowest =>
    intro a b ha hb
    exact commonParent_lowest h hfuel ha hb

/-- Two groups below a node, and one below the second of them. -/
theorem document_order_groups :
    DocumentOrder ⟨[{ children := [1, 2] }, { parent := some 0 }, { parent := some 0, children := [3] },
      { parent := some 2 }]⟩ 5 0 := by
  have hparent : ∀ p < 4, ∀ c ∈ (Heap.get ⟨[{ children := [1, 2] }, { parent := some 0 },
      { parent := some 0, children := [3] }, { parent := some 2 }]⟩ p).children,
      (Heap.get ⟨[{ children := [1, 2] }, { parent := some 0 },
      { parent := some 0, children := [3] }, { parent := some 2 }]⟩ c).parent = some p := by
    decide
  refine document_order ⟨rfl, fun p c _ hc => ?_⟩ (Nat.lt_succ_self 4)
  exact hparent p (lt_of_mem_children hc) c hc

end Heap

theorem NodeOp.rooted_of_run (hrun : Run (fun h op h' => Step h op h' ∧ op.Tidy) {} ops heap)
    (htop : (heap.get root).parent = none) : heap.Rooted root := by
  have hagree : heap.Agree := by
    apply hrun.invariant _ Heap.Agree.empty
    intro h op h' hagree hstep
    exact hstep.1.agree hagree hstep.2
  exact hagree.rooted htop

end Trieste
