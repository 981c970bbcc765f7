import Mathlib.Logic.Function.Basic

namespace Trieste.Intrusive
set_option autoImplicit true

/-- An object with the class that its reference count is a base of. -/
structure Object (Kind : Type) where
  type : Kind
  address : Nat
  deriving DecidableEq

/-- The place of an `intrusive_ptr`: a variable or a member of an object. -/
inductive Handle (Kind : Type)
  | var (n : Nat)
  | member (o : Object Kind) (n : Nat)
  deriving DecidableEq

def Handle.owner : Handle Kind → Option (Object Kind)
  | .var _ => none
  | .member o _ => some o

/-- The handles that exist, with their pointers, and the objects that are not deleted. Each class
has its `work_list`; the calls of its `recursion_safe_delete_this` on the stack are counted. -/
structure Store (Kind : Type) where
  handles : List (Handle Kind) := []
  ptr : Handle Kind → Option (Object Kind) := fun _ => none
  objects : List (Object Kind) := []
  intrusiveRefcount : Object Kind → Nat := fun _ => 0
  workList : Kind → Option (List (Object Kind)) := fun _ => none
  calls : Kind → Nat := fun _ => 0
  deepest : Nat := 0
  deleted : List (Object Kind) := []

variable {Kind : Type} [DecidableEq Kind]

namespace Store

def setPtr (s : Store Kind) (h : Handle Kind) (p : Option (Object Kind)) : Store Kind :=
  { s with ptr := Function.update s.ptr h p }

def setRefcount (s : Store Kind) (o : Object Kind) (n : Nat) : Store Kind :=
  { s with intrusiveRefcount := Function.update s.intrusiveRefcount o n }

def setWorkList (s : Store Kind) (type : Kind) (workList : Option (List (Object Kind))) : Store Kind :=
  { s with workList := Function.update s.workList type workList }

/-- A call of `recursion_safe_delete_this` begins. -/
def enter (s : Store Kind) (type : Kind) : Store Kind :=
  { s with
    calls := Function.update s.calls type (s.calls type + 1)
    deepest := max s.deepest (s.calls type + 1) }

/-- A call of `recursion_safe_delete_this` returns. -/
def leave (s : Store Kind) (type : Kind) : Store Kind :=
  { s with calls := Function.update s.calls type (s.calls type - 1) }

/-- The handles whose destructors run with that of the object. -/
def members (s : Store Kind) (o : Object Kind) : List (Handle Kind) :=
  s.handles.filter fun h => h.owner = some o

def forget (s : Store Kind) (h : Handle Kind) : Store Kind :=
  { s with handles := s.handles.erase h }

def free (s : Store Kind) (o : Object Kind) : Store Kind :=
  { s with objects := s.objects.erase o, deleted := s.deleted ++ [o] }

def construct (s : Store Kind) (h : Handle Kind) (p : Option (Object Kind)) : Store Kind :=
  { s with handles := h :: s.handles, ptr := Function.update s.ptr h p }

/-- `new T`, with a reference count of 0. -/
def allocate (s : Store Kind) (o : Object Kind) : Store Kind :=
  { s with
    objects := o :: s.objects
    intrusiveRefcount := Function.update s.intrusiveRefcount o 0 }

end Store

mutual

/-- `intrusive_dec_ref` -/
def intrusiveDecRef : Nat → Store Kind → Object Kind → Option (Store Kind)
  | 0, _, _ => none
  | fuel + 1, s, p =>
    if p ∈ s.objects ∧ 0 < s.intrusiveRefcount p then
      let prevRc := s.intrusiveRefcount p
      let s := s.setRefcount p (prevRc - 1)
      if prevRc = 1 then recursionSafeDeleteThis fuel s p else some s
    else none

/-- `recursion_safe_delete_this` -/
def recursionSafeDeleteThis : Nat → Store Kind → Object Kind → Option (Store Kind)
  | 0, _, _ => none
  | fuel + 1, s, self =>
    let s := s.enter self.type
    match s.workList self.type with
    | some workList => some ((s.setWorkList self.type (some (workList ++ [self]))).leave self.type)
    | none =>
      (deleteAll fuel (s.setWorkList self.type (some [self])) self.type).map fun s =>
        (s.setWorkList self.type none).leave self.type

/-- The loop of the outer case, which ends when the work list is empty. -/
def deleteAll : Nat → Store Kind → Kind → Option (Store Kind)
  | 0, _, _ => none
  | fuel + 1, s, type =>
    match s.workList type with
    | none => none
    | some workList =>
      match workList.getLast? with
      | none => some s
      | some ptr =>
        (delete fuel (s.setWorkList type (some workList.dropLast)) ptr).bind fun s =>
          deleteAll fuel s type

/-- `delete`, with the destructors of the members and the assertion on the reference count. -/
def delete : Nat → Store Kind → Object Kind → Option (Store Kind)
  | 0, _, _ => none
  | fuel + 1, s, o =>
    if o ∈ s.objects then
      (destroyAll fuel s (s.members o)).bind fun s =>
        if s.intrusiveRefcount o = 0 then some (s.free o) else none
    else none

def destroyAll : Nat → Store Kind → List (Handle Kind) → Option (Store Kind)
  | 0, _, _ => none
  | _ + 1, s, [] => some s
  | fuel + 1, s, h :: hs => (destroy fuel s h).bind fun s => destroyAll fuel s hs

/-- `~intrusive_ptr` -/
def destroy : Nat → Store Kind → Handle Kind → Option (Store Kind)
  | 0, _, _ => none
  | fuel + 1, s, h => (decRef fuel s h).map fun s => s.forget h

/-- `dec_ref`, which clears the pointer last. -/
def decRef : Nat → Store Kind → Handle Kind → Option (Store Kind)
  | 0, _, _ => none
  | fuel + 1, s, h =>
    match s.ptr h with
    | none => some s
    | some p => (intrusiveDecRef fuel s p).map fun s => s.setPtr h none

end

def incRef (s : Store Kind) (h : Handle Kind) : Option (Store Kind) :=
  match s.ptr h with
  | none => some s
  | some p =>
    if p ∈ s.objects then some (s.setRefcount p (s.intrusiveRefcount p + 1)) else none

/-- The destructor of a local `intrusive_ptr` that holds an old pointer. -/
def destroyLocal (fuel : Nat) (s : Store Kind) : Option (Object Kind) → Option (Store Kind)
  | none => some s
  | some p => intrusiveDecRef fuel s p

/-- The operations on handles; the first handle is the one that the member function is called on. -/
inductive Op (Kind : Type)
  | construct (h : Handle Kind)
  | fromPointer (h : Handle Kind) (o : Object Kind)
  | make (h : Handle Kind) (o : Object Kind)
  | copy (h other : Handle Kind)
  | move (h other : Handle Kind)
  | assign (h other : Handle Kind)
  | moveAssign (h other : Handle Kind)
  | swap (h other : Handle Kind)
  | reset (h : Handle Kind)
  | destroy (h : Handle Kind)

def Op.apply (fuel : Nat) (s : Store Kind) : Op Kind → Option (Store Kind)
  | .construct h => some (s.construct h none)
  | .fromPointer h o => incRef (s.construct h (some o)) h
  | .make h o => incRef ((s.allocate o).construct h (some o)) h
  | .copy h other => incRef (s.construct h (s.ptr other)) h
  | .move h other => some ((s.setPtr other none).construct h (s.ptr other))
  | .assign h other =>
    if s.ptr h = s.ptr other then some s
    else
      (incRef s other).bind fun s =>
        destroyLocal fuel (s.setPtr h (s.ptr other)) (s.ptr h)
  | .moveAssign h other =>
    destroyLocal fuel ((s.setPtr h (s.ptr other)).setPtr other none) (s.ptr h)
  | .swap h other => some ((s.setPtr h (s.ptr other)).setPtr other (s.ptr h))
  | .reset h => decRef fuel s h
  | .destroy h => Intrusive.destroy fuel s h

/-- The handle can be constructed, as a variable or as a member of an object that exists. -/
def Store.HasRoom (s : Store Kind) (h : Handle Kind) : Prop :=
  h ∉ s.handles ∧ ∀ o, h.owner = some o → o ∈ s.objects

/-- The handles that are used exist, and new handles and objects are new. -/
def Op.Allowed (s : Store Kind) : Op Kind → Prop
  | .construct h => s.HasRoom h
  | .fromPointer h o => s.HasRoom h ∧ o ∈ s.objects
  | .make h o => s.HasRoom h ∧ o ∉ s.objects ∧ o ∉ s.deleted
  | .copy h other | .move h other => s.HasRoom h ∧ other ∈ s.handles
  | .assign h other | .moveAssign h other | .swap h other => h ∈ s.handles ∧ other ∈ s.handles
  | .reset h | .destroy h => h ∈ s.handles

end Trieste.Intrusive
