import Mathlib.Data.Finset.Basic
import Mathlib.Logic.Function.Basic
import Trieste.Rewrite.Semantics

namespace Trieste
set_option autoImplicit true
open Library

/-- A table of 128 buckets. A bucket without a value of its own shows the default value. -/
structure DefaultMap (α : Type) where
  default : α
  map : Fin 128 → Option α := fun _ => none
  empty : Bool := true

abbrev DefaultMapHash := Token → Fin 128

namespace DefaultMap

def modifyAll (m : DefaultMap α) (f : α → α) : DefaultMap α where
  default := f m.default
  map i := (m.map i).map f
  empty := false

def modify (m : DefaultMap α) (hash : DefaultMapHash) (t : Token) (f : α → α) : DefaultMap α where
  default := m.default
  map := Function.update m.map (hash t) (some (f ((m.map (hash t)).getD m.default)))
  empty := false

def get (m : DefaultMap α) (hash : DefaultMapHash) (t : Token) : α :=
  (m.map (hash t)).getD m.default

@[simp] theorem get_modifyAll (m : DefaultMap α) (f : α → α) (hash : DefaultMapHash) (t : Token) :
    (m.modifyAll f).get hash t = f (m.get hash t) := by
  cases h : m.map (hash t) <;> simp [modifyAll, get, h]

@[simp] theorem get_modify (m : DefaultMap α) (hash : DefaultMapHash) (t u : Token) (f : α → α) :
    (m.modify hash t f).get hash u =
      if hash t = hash u then f (m.get hash u) else m.get hash u := by
  by_cases h : hash t = hash u
  · simp [modify, get, h]
  · simp [modify, get, h, Function.update_of_ne (Ne.symm h)]

theorem get_foldl_modify (ts : List Token) (m : DefaultMap α) (hash : DefaultMapHash) (u : Token)
    (f : α → α) : (ts.foldl (fun m t => m.modify hash t f) m).get hash u =
      f^[ts.countP fun t => hash t = hash u] (m.get hash u) := by
  induction ts generalizing m with
  | nil => rfl
  | cons t ts ih =>
    rw [List.foldl_cons, ih, get_modify]
    by_cases h : hash t = hash u <;> simp [h]

end DefaultMap

variable {N α : Type}

abbrev Rule (N α : Type) := Pattern N × α

abbrev RuleMap (N α : Type) := DefaultMap (DefaultMap (List (Rule N α)))

/-- The order in which a set of tokens is gone through. -/
structure SetOrder where
  list : Finset Token → List Token
  toFinset : ∀ s, (list s).toFinset = s

/-- The lambda `add` of `compile_rules`. -/
def addRule (hash : DefaultMapHash) (order : SetOrder) (rule : Rule N α)
    (rules : DefaultMap (List (Rule N α))) : DefaultMap (List (Rule N α)) :=
  let fast := rule.1.fastPattern
  if fast.starts = ∅ ∨ fast.passThrough then rules.modifyAll fun v => v ++ [rule]
  else (order.list fast.starts).foldl
    (fun rules start => rules.modify hash start fun v => v ++ [rule]) rules

def compileRule (hash : DefaultMapHash) (order : SetOrder) (ruleMap : RuleMap N α)
    (rule : Rule N α) : RuleMap N α :=
  let parents := rule.1.fastPattern.parents
  if parents = ∅ then ruleMap.modifyAll (addRule hash order rule)
  else (order.list parents).foldl
    (fun ruleMap parent => ruleMap.modify hash parent (addRule hash order rule)) ruleMap

def compileRules (hash : DefaultMapHash) (order : SetOrder) (rules : List (Rule N α)) :
    RuleMap N α :=
  rules.foldl (compileRule hash order) { default := { default := [] } }

/-- The rules tried at a child of this type under a parent of this type. -/
def RuleMap.select (ruleMap : RuleMap N α) (hash : DefaultMapHash) (parent start : Token) :
    List (Rule N α) :=
  (ruleMap.get hash parent).get hash start

/-- How often a set of tokens, or the universal empty set, meets the bucket of a token. -/
def bucketHits (hash : DefaultMapHash) (order : SetOrder) (universal : Prop) [Decidable universal]
    (s : Finset Token) (t : Token) : Nat :=
  if universal then 1 else (order.list s).countP fun u => hash u = hash t

/-- How often a rule is entered for a parent and a start type. -/
def FastPattern.copies (hash : DefaultMapHash) (order : SetOrder) (fast : FastPattern)
    (parent start : Token) : Nat :=
  bucketHits hash order (fast.parents = ∅) fast.parents parent *
    bucketHits hash order (fast.starts = ∅ ∨ fast.passThrough) fast.starts start

theorem get_addRule (hash : DefaultMapHash) (order : SetOrder) (rule : Rule N α)
    (rules : DefaultMap (List (Rule N α))) (start : Token) :
    (addRule hash order rule rules).get hash start = rules.get hash start ++ List.replicate
      (bucketHits hash order (rule.1.fastPattern.starts = ∅ ∨ rule.1.fastPattern.passThrough)
        rule.1.fastPattern.starts start) rule := by
  have happend (n : Nat) (v : List (Rule N α)) :
      (fun v => v ++ [rule])^[n] v = v ++ List.replicate n rule := by
    induction n generalizing v with
    | zero => simp
    | succ n ih => rw [Function.iterate_succ_apply, ih, List.append_assoc]; rfl
  simp only [addRule, bucketHits]
  split
  · simp
  · rw [DefaultMap.get_foldl_modify, happend]

theorem select_compileRule (hash : DefaultMapHash) (order : SetOrder) (ruleMap : RuleMap N α)
    (rule : Rule N α) (parent start : Token) :
    (compileRule hash order ruleMap rule).select hash parent start =
      ruleMap.select hash parent start ++
        List.replicate (rule.1.fastPattern.copies hash order parent start) rule := by
  have hiter (n k : Nat) (hk : k = bucketHits hash order
      (rule.1.fastPattern.starts = ∅ ∨ rule.1.fastPattern.passThrough)
        rule.1.fastPattern.starts start) (rules : DefaultMap (List (Rule N α))) :
      ((addRule hash order rule)^[n] rules).get hash start =
        rules.get hash start ++ List.replicate (n * k) rule := by
    induction n generalizing rules with
    | zero => simp
    | succ n ih =>
      rw [Function.iterate_succ_apply, ih, get_addRule, List.append_assoc, ← hk,
        List.replicate_append_replicate, Nat.succ_mul, Nat.add_comm]
  simp only [compileRule, RuleMap.select, FastPattern.copies]
  by_cases hp : rule.1.fastPattern.parents = ∅
  · simp [hp, bucketHits, get_addRule]
  · rw [if_neg hp, DefaultMap.get_foldl_modify, hiter _ _ rfl]
    simp [bucketHits, hp]

/-- The table holds the rules in the order in which they were declared. -/
theorem select_compileRules (hash : DefaultMapHash) (order : SetOrder) (rules : List (Rule N α))
    (parent start : Token) : (compileRules hash order rules).select hash parent start =
      rules.flatMap fun rule =>
        List.replicate (rule.1.fastPattern.copies hash order parent start) rule := by
  have hfold (ruleMap : RuleMap N α) :
      (rules.foldl (compileRule hash order) ruleMap).select hash parent start =
        ruleMap.select hash parent start ++ rules.flatMap fun rule =>
          List.replicate (rule.1.fastPattern.copies hash order parent start) rule := by
    induction rules generalizing ruleMap with
    | nil => simp
    | cons rule rules ih =>
      rw [List.foldl_cons, ih, select_compileRule, List.flatMap_cons, List.append_assoc]
  rw [compileRules, hfold]
  rfl

end Trieste
