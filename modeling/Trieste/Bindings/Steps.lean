import Mathlib.Logic.Relation
import Trieste.Bindings.Generator
import Trieste.Library.ShortCircuit
import Trieste.Library.Fuel

namespace Trieste.Bindings
set_option autoImplicit true
open Library Relation Wf

/-- What a generation has left to do: a node, a child of a node, a binding to its last child, the
children beyond the least number, or what is below the children. -/
inductive Task
  | node (depth : Nat) (n : Node)
  | choice (c : Wf.Choice) (depth : Nat) (n : Node)
  | bind (n : Node)
  | more (c : Wf.Choice) (depth : Nat) (n : Node) (left : Nat)
  | children (depth : Nat) (n : Node)
  deriving DecidableEq

structure Config where
  tasks : List Task
  scopes : Scopes
  index : Nat
  deriving DecidableEq

namespace Generator
variable (g : Generator)

def fieldTasks (f : Fields) (depth : Nat) (n : Node) (fields : List Field) : List Task :=
  fields.flatMap fun field =>
    .choice field.choice depth n :: if f.binding = field.name then [.bind n] else []

def shapeTasks (depth : Nat) (n : Node) : Shape → List Task
  | .fields f => fieldTasks f depth n f.fields
  | .sequence q =>
    List.replicate q.minLen (.choice q.choice depth n) ++
      if g.targetDepth ≤ depth ∨ (q.choice.types.map g.weightFor).sum % UInt64.size = 0 then []
      else [.more q.choice depth n (q.maxLen - q.minLen)]

end Generator

namespace Wellformed
variable (wf : Wellformed) (g : Generator) (gloc : Generator.FreshLocations) (draws : Draws)

/-- The tasks that take the place of one, with the tree and the number of results after it. -/
def perform : Task → Scopes → Nat → Except Failure (List Task × Scopes × Nat)
  | .node depth n, s, i =>
    match wf.find (s.heap.get n).type with
    | none => .ok ([], s, i)
    | some shape => .ok (g.shapeTasks depth n shape ++ [.children depth n], s, i)
  | .choice c depth n, s, i => (g.genChoice gloc draws c depth n s i).map ([], ·)
  | .bind n, s, i =>
    match s.bind n (s.heap.get ((s.heap.get n).children.getLastD 0)).location with
    | none => .error .noSymbolTable
    | some (s, _) => .ok ([], s, i)
  | .more _ _ _ 0, s, i => .ok ([], s, i)
  | .more c depth n (left + 1), s, i =>
    if (draws i).toNat % 2 = 1 then .ok ([.choice c depth n, .more c depth n left], s, i + 1)
    else .ok ([], s, i + 1)
  | .children depth n, s, i => .ok ((s.heap.get n).children.map (.node (depth + 1)), s, i)

def step (k : Config) : Except Failure (Option Config) :=
  match k.tasks with
  | [] => .ok none
  | t :: rest =>
    (wf.perform g gloc draws t k.scopes k.index).map fun r => some ⟨r.1 ++ rest, r.2.1, r.2.2⟩

/-- The configuration after a number of steps. -/
def run : Nat → Config → Option Config
  | 0, k => some k
  | n + 1, k =>
    match wf.step g gloc draws k with
    | .ok (some k) => run n k
    | _ => none

def Next (k k' : Config) : Prop := wf.step g gloc draws k = .ok (some k')

/-- The configurations of a generation, from the top node on. -/
def Reached (k : Config) : Prop :=
  ReflTransGen (wf.Next g gloc draws) ⟨[.node 0 0], topOnly, 0⟩ k

end Wellformed

namespace Wellformed
variable {wf : Wellformed} {g : Generator} {gloc : Generator.FreshLocations} {draws : Draws}
  {x : Except Failure (Scopes × Nat)}

theorem next_perform (h : wf.perform g gloc draws t s i = .ok (ts, s', i')) (rest : List Task) :
    wf.Next g gloc draws ⟨t :: rest, s, i⟩ ⟨ts ++ rest, s', i'⟩ := by
  rw [Next, step]
  simp only [h]
  rfl

theorem next_done (h : wf.perform g gloc draws t s i = .ok ([], s', i')) (rest : List Task) :
    wf.Next g gloc draws ⟨t :: rest, s, i⟩ ⟨rest, s', i'⟩ := next_perform h rest

theorem step_throws (h : wf.perform g gloc draws t s i = .error e) (rest : List Task) :
    wf.step g gloc draws ⟨t :: rest, s, i⟩ = .error e := by
  rw [step]
  simp only [h]
  rfl

theorem run_reaches (h : wf.run g gloc draws n k = some k') :
    ReflTransGen (wf.Next g gloc draws) k k' := by
  induction n generalizing k with
  | zero =>
    cases h
    exact .refl
  | succ n ih =>
    rw [run] at h
    split at h
    · next hstep => exact .head hstep (ih h)
    · cases h

def Performs (wf : Wellformed) (g : Generator) (gloc : Generator.FreshLocations) (draws : Draws)
    (tasks : List Task) (s : Scopes) (i : Nat) (rest : List Task) :
    Except Failure (Scopes × Nat) → Prop
  | .ok r => ReflTransGen (wf.Next g gloc draws) ⟨tasks ++ rest, s, i⟩ ⟨rest, r.1, r.2⟩
  | .error e => ∃ k, ReflTransGen (wf.Next g gloc draws) ⟨tasks ++ rest, s, i⟩ k ∧
      wf.step g gloc draws k = .error e

theorem Performs.bind {f : Scopes × Nat → Except Failure (Scopes × Nat)}
    (h : wf.Performs g gloc draws tasks s i (tasks' ++ rest) x)
    (hf : ∀ r, x = .ok r → wf.Performs g gloc draws tasks' r.1 r.2 rest (f r)) :
    wf.Performs g gloc draws (tasks ++ tasks') s i rest (x >>= f) := by
  have happend : tasks ++ tasks' ++ rest = tasks ++ (tasks' ++ rest) := List.append_assoc ..
  cases x with
  | error e =>
    obtain ⟨k, hk, he⟩ := h
    exact ⟨k, happend ▸ hk, he⟩
  | ok r =>
    have hr := hf r rfl
    rw [ok_bind]
    cases hfr : f r with
    | error e =>
      rw [hfr] at hr
      obtain ⟨k, hk, he⟩ := hr
      exact ⟨k, happend ▸ h.trans hk, he⟩
    | ok r' =>
      rw [hfr] at hr
      rw [Performs, happend]
      exact h.trans hr

theorem Performs.done (s : Scopes) (i : Nat) (rest : List Task) :
    wf.Performs g gloc draws [] s i rest (.ok (s, i)) := .refl

theorem performs_choice (c : Wf.Choice) (depth : Nat) (n : Node) (s : Scopes) (i : Nat)
    (rest : List Task) :
    wf.Performs g gloc draws [.choice c depth n] s i rest
      (g.genChoice gloc draws c depth n s i) := by
  cases h : g.genChoice gloc draws c depth n s i with
  | error e =>
    refine ⟨_, .refl, step_throws ?_ rest⟩
    rw [perform, h]
    rfl
  | ok r =>
    apply ReflTransGen.single
    apply next_done
    rw [perform, h]
    rfl

theorem performs_fields (f : Fields) (depth : Nat) (n : Node) (fields : List Field) (s : Scopes)
    (i : Nat) (rest : List Task) :
    wf.Performs g gloc draws (Generator.fieldTasks f depth n fields) s i rest
      (g.genFields gloc draws f depth n fields (s, i)) := by
  induction fields generalizing s i with
  | nil => exact .done s i rest
  | cons field fields ih =>
    rw [Generator.genFields, Generator.fieldTasks, List.flatMap_cons, List.cons_append,
      ← List.singleton_append]
    apply (performs_choice field.choice depth n s i _).bind
    intro r _
    obtain ⟨s, i⟩ := r
    dsimp only
    by_cases hbinding : f.binding = field.name
    · rw [if_pos hbinding, if_pos hbinding]
      cases hbind : s.bind n (s.heap.get ((s.heap.get n).children.getLastD 0)).location with
      | none =>
        refine ⟨_, .refl, step_throws ?_ _⟩
        rw [perform, hbind]
      | some r =>
        have hfirst : wf.Performs g gloc draws [.bind n] s i
            (Generator.fieldTasks f depth n fields ++ rest) (.ok (r.1, i)) := by
          apply ReflTransGen.single
          apply next_done
          rw [perform, hbind]
        apply hfirst.bind (f := fun r => g.genFields gloc draws f depth n fields r)
        intro r' hr'
        cases hr'
        exact ih r.1 i
    · rw [if_neg hbinding, if_neg hbinding, List.nil_append]
      exact ih s i

theorem performs_count (c : Wf.Choice) (depth : Nat) (n : Node) (count : Nat) (s : Scopes) (i : Nat)
    (rest : List Task) :
    wf.Performs g gloc draws (List.replicate count (.choice c depth n)) s i rest
      (g.genCount gloc draws c depth n count (s, i)) := by
  induction count generalizing s i with
  | zero => exact .done s i rest
  | succ count ih =>
    rw [Generator.genCount, List.replicate_succ, ← List.singleton_append]
    exact (performs_choice c depth n s i _).bind fun r _ => ih r.1 r.2

theorem performs_more (c : Wf.Choice) (depth : Nat) (n : Node) (left : Nat) (s : Scopes) (i : Nat)
    (rest : List Task) :
    wf.Performs g gloc draws [.more c depth n left] s i rest
      (g.genMore gloc draws c depth n left (s, i)) := by
  induction left generalizing s i with
  | zero =>
    apply ReflTransGen.single
    exact next_done (by rw [perform]) rest
  | succ left ih =>
    rw [Generator.genMore]
    by_cases hodd : (draws i).toNat % 2 = 1
    · rw [if_pos hodd]
      have hnext : wf.Next g gloc draws ⟨.more c depth n (left + 1) :: rest, s, i⟩
          ⟨[.choice c depth n, .more c depth n left] ++ rest, s, i + 1⟩ :=
        next_perform (by rw [perform, if_pos hodd]) rest
      have hrest : wf.Performs g gloc draws ([.choice c depth n] ++ [.more c depth n left]) s
          (i + 1) rest (g.genChoice gloc draws c depth n s (i + 1) >>=
            g.genMore gloc draws c depth n left) :=
        (performs_choice c depth n s (i + 1) _).bind fun r _ => ih r.1 r.2
      cases hx : g.genChoice gloc draws c depth n s (i + 1) >>=
          g.genMore gloc draws c depth n left with
      | error e =>
        rw [hx] at hrest
        obtain ⟨k, hk, he⟩ := hrest
        exact ⟨k, .head hnext hk, he⟩
      | ok r =>
        rw [hx] at hrest
        exact .head hnext hrest
    · rw [if_neg hodd]
      apply ReflTransGen.single
      exact next_done (by rw [perform, if_neg hodd]) rest

theorem performs_shape (depth : Nat) (n : Node) (shape : Shape) (s : Scopes) (i : Nat)
    (rest : List Task) :
    wf.Performs g gloc draws (g.shapeTasks depth n shape) s i rest
      (g.genShape gloc draws depth n s i shape) := by
  cases shape with
  | fields f => exact performs_fields f depth n f.fields s i rest
  | sequence q =>
    rw [Generator.genShape, Generator.shapeTasks]
    apply (performs_count q.choice depth n q.minLen s i _).bind
    intro r _
    dsimp only
    split
    · exact .done r.1 r.2 rest
    · exact performs_more q.choice depth n (q.maxLen - q.minLen) r.1 r.2 rest

def nodeTasks (pending : List (Nat × Node)) : List Task := pending.map fun p => .node p.1 p.2

theorem next_leaf (h : wf.find (s.heap.get n).type = none) (depth : Nat) (i : Nat)
    (pending : List (Nat × Node)) :
    wf.Next g gloc draws ⟨nodeTasks ((depth, n) :: pending), s, i⟩ ⟨nodeTasks pending, s, i⟩ :=
  next_done (by rw [perform, h]) _

theorem next_node (h : wf.find (s.heap.get n).type = some shape) (depth : Nat) (i : Nat)
    (rest : List Task) :
    wf.Next g gloc draws ⟨.node depth n :: rest, s, i⟩
      ⟨g.shapeTasks depth n shape ++ .children depth n :: rest, s, i⟩ := by
  have hnext : wf.Next g gloc draws ⟨.node depth n :: rest, s, i⟩
      ⟨(g.shapeTasks depth n shape ++ [.children depth n]) ++ rest, s, i⟩ :=
    next_perform (by rw [perform, h]) rest
  rwa [List.append_assoc] at hnext

theorem next_children (depth : Nat) (n : Node) (s : Scopes) (i : Nat)
    (pending : List (Nat × Node)) :
    wf.Next g gloc draws ⟨.children depth n :: nodeTasks pending, s, i⟩
      ⟨nodeTasks ((s.heap.get n).children.map (depth + 1, ·) ++ pending), s, i⟩ := by
  have hnext : wf.Next g gloc draws ⟨.children depth n :: nodeTasks pending, s, i⟩
      ⟨(s.heap.get n).children.map (.node (depth + 1)) ++ nodeTasks pending, s, i⟩ :=
    next_perform (by rw [perform]) _
  have htasks : nodeTasks ((s.heap.get n).children.map (depth + 1, ·) ++ pending) =
      (s.heap.get n).children.map (.node (depth + 1)) ++ nodeTasks pending := by
    rw [nodeTasks, List.map_append, List.map_map]
    rfl
  rwa [← htasks] at hnext

theorem shape_leads (h : wf.find (s.heap.get n).type = some shape)
    (hshape : g.genShape gloc draws depth n s i shape = .ok (s', i'))
    (pending : List (Nat × Node)) :
    TransGen (wf.Next g gloc draws) ⟨nodeTasks ((depth, n) :: pending), s, i⟩
      ⟨nodeTasks ((s'.heap.get n).children.map (depth + 1, ·) ++ pending), s', i'⟩ := by
  have hperforms : wf.Performs g gloc draws (g.shapeTasks depth n shape) s i _ _ :=
    performs_shape depth n shape s i (.children depth n :: nodeTasks pending)
  rw [hshape] at hperforms
  exact .head' (next_node h depth i _) (hperforms.tail (next_children depth n s' i' pending))

theorem shape_throws (h : wf.find (s.heap.get n).type = some shape)
    (hshape : g.genShape gloc draws depth n s i shape = .error e) (pending : List (Nat × Node)) :
    ∃ k, ReflTransGen (wf.Next g gloc draws) ⟨nodeTasks ((depth, n) :: pending), s, i⟩ k ∧
      wf.step g gloc draws k = .error e := by
  have hperforms : wf.Performs g gloc draws (g.shapeTasks depth n shape) s i _ _ :=
    performs_shape depth n shape s i (.children depth n :: nodeTasks pending)
  rw [hshape] at hperforms
  obtain ⟨k, hk, he⟩ := hperforms
  exact ⟨k, .head (next_node h depth i _) hk, he⟩

def ending (r : Except Failure (Scopes × Nat)) : Except Failure Config :=
  r.map fun r => ⟨[], r.1, r.2⟩

theorem loop_of_genNodes (h : wf.genNodes g gloc draws fuel pending s i = some r) :
    ∃ n, loop (wf.step g gloc draws) n ⟨nodeTasks pending, s, i⟩ = some (ending r) := by
  induction fuel generalizing pending s i with
  | zero => cases h
  | succ fuel ih =>
    cases pending with
    | nil =>
      cases h
      exact ⟨1, rfl⟩
    | cons p pending =>
      obtain ⟨depth, n⟩ := p
      rw [genNodes] at h
      cases hfind : wf.find (s.heap.get n).type with
      | none =>
        rw [hfind] at h
        obtain ⟨m, hm⟩ := ih h
        exact ⟨m + 1, (loop_next (next_leaf hfind depth i pending) m).trans hm⟩
      | some shape =>
        simp only [hfind] at h
        cases hshape : g.genShape gloc draws depth n s i shape with
        | error e =>
          simp only [hshape, Option.some.injEq] at h
          obtain ⟨k, hk, he⟩ := shape_throws hfind hshape pending
          have hloop : loop (wf.step g gloc draws) 1 k = some (.error e) := by rw [loop, he]
          rw [← h]
          exact reaches_loop hk hloop
        | ok r =>
          simp only [hshape] at h
          obtain ⟨m, hm⟩ := ih h
          exact reaches_loop (shape_leads hfind hshape pending).to_reflTransGen hm

end Wellformed

end Trieste.Bindings
