import Mathlib.Data.UInt
import Mathlib.Logic.Function.Iterate

namespace Trieste
set_option autoImplicit true

/-- The two words of a generator. -/
structure XorOshiro (stateBits : Nat) where
  x : BitVec stateBits
  y : BitVec stateBits
  deriving DecidableEq

/-- The distances of the shifts and rotations. -/
structure Shifts where
  a : Nat
  b : Nat
  c : Nat

namespace XorOshiro
variable {w : Nat}

def rotl (x : BitVec w) (k : Nat) : BitVec w := x <<< k ||| x >>> (w - k)

def zero : XorOshiro w := ⟨0, 0⟩

def next (k : Shifts) (s : XorOshiro w) : XorOshiro w :=
  let y := s.y ^^^ s.x
  { x := rotl s.x k.a ^^^ y ^^^ y <<< k.b
    y := rotl y k.c }

def result (resultBits : Nat) (s : XorOshiro w) : BitVec resultBits :=
  ((s.x + s.y) >>> (w - resultBits)).setWidth resultBits

/-- `operator()`, which aborts where both words get zero. -/
def draw (k : Shifts) (resultBits : Nat) (s : XorOshiro w) :
    Option (BitVec resultBits × XorOshiro w) :=
  let s' := s.next k
  if s'.x = 0 ∧ s'.y = 0 then none else some (s.result resultBits, s')

/-- The constructor, which throws the first result away. -/
def make (k : Shifts) (resultBits : Nat) (x y : BitVec w) : Option (XorOshiro w) :=
  if x = 0 ∧ y = 0 then none else (draw k resultBits ⟨x, y⟩).map Prod.snd

theorem getLsbD_rotl_high (x : BitVec w) (hi : i < w - k) :
    (rotl x k).getLsbD (i + k) = x.getLsbD i := by
  have hlt : i + k < w := by omega
  have hright : x.getLsbD (w - k + (i + k)) = false := BitVec.getLsbD_of_ge x _ (by omega)
  have hlow : ¬ i + k < k := by omega
  simp only [rotl, BitVec.getLsbD_or, BitVec.getLsbD_shiftLeft, BitVec.getLsbD_ushiftRight,
    hright, Bool.or_false, hlt, hlow, decide_true, decide_false, Bool.not_false, Bool.true_and,
    Nat.add_sub_cancel]

theorem getLsbD_rotl_low (x : BitVec w) (hi : i < k) :
    (rotl x k).getLsbD i = x.getLsbD (w - k + i) := by
  simp only [rotl, BitVec.getLsbD_or, BitVec.getLsbD_shiftLeft, BitVec.getLsbD_ushiftRight,
    hi, decide_true, Bool.not_true, Bool.and_false, Bool.false_and, Bool.false_or]

theorem rotl_injective (hk : k ≤ w) : Function.Injective fun x : BitVec w => rotl x k := by
  intro x x' h
  have hbits (i : Nat) : (rotl x k).getLsbD i = (rotl x' k).getLsbD i :=
    congrArg (fun v => BitVec.getLsbD v i) h
  apply BitVec.eq_of_getLsbD_eq
  intro i hi
  by_cases hlow : i < w - k
  · have hbit := hbits (i + k)
    rwa [getLsbD_rotl_high x hlow, getLsbD_rotl_high x' hlow] at hbit
  · have hbit := hbits (i - (w - k))
    have hlt : i - (w - k) < k := by omega
    have hi' : w - k + (i - (w - k)) = i := by omega
    rwa [getLsbD_rotl_low x hlt, getLsbD_rotl_low x' hlt, hi'] at hbit

theorem next_injective {k : Shifts} (ha : k.a ≤ w) (hc : k.c ≤ w) :
    Function.Injective fun s : XorOshiro w => s.next k := by
  intro s s' h
  have hy : s.y ^^^ s.x = s'.y ^^^ s'.x :=
    rotl_injective hc (congrArg XorOshiro.y h)
  have hx : rotl s.x k.a = rotl s'.x k.a := by
    have hxor := congrArg XorOshiro.x h
    simp only [next, hy] at hxor
    exact (BitVec.xor_left_inj _).1 ((BitVec.xor_left_inj _).1 hxor)
  have hsame : s.x = s'.x := rotl_injective ha hx
  rw [hsame] at hy
  cases s
  cases s'
  rw [mk.injEq]
  exact ⟨hsame, (BitVec.xor_left_inj _).1 hy⟩

theorem next_zero (k : Shifts) : (zero : XorOshiro w).next k = zero := by
  simp [next, zero, rotl]

theorem next_ne_zero {k : Shifts} {s : XorOshiro w} (ha : k.a ≤ w) (hc : k.c ≤ w) (h : s ≠ zero) :
    s.next k ≠ zero := by
  intro hz
  apply h
  apply next_injective ha hc
  exact hz.trans (next_zero k).symm

theorem eq_zero_iff {s : XorOshiro w} : s = zero ↔ s.x = 0 ∧ s.y = 0 := by
  cases s
  simp [zero]

theorem draw_of_ne_zero {k : Shifts} {s : XorOshiro w} (ha : k.a ≤ w) (hc : k.c ≤ w)
    (h : s ≠ zero) (resultBits : Nat) :
    draw k resultBits s = some (s.result resultBits, s.next k) := by
  have hne : ¬ ((s.next k).x = 0 ∧ (s.next k).y = 0) := by
    rw [← eq_zero_iff]
    exact next_ne_zero ha hc h
  simp only [draw, if_neg hne]

end XorOshiro

/-- `p128r32` -/
abbrev Rand := XorOshiro 64

namespace Rand
open XorOshiro

def shifts : Shifts := ⟨55, 14, 36⟩

def next (r : Rand) : Rand := XorOshiro.next shifts r

def result (r : Rand) : UInt32 := UInt32.ofBitVec (XorOshiro.result 32 r)

def make (seed : UInt64) : Option Rand := XorOshiro.make shifts 32 seed.toBitVec 0

/-- The words after the constructor and some results; nothing where the generator has aborted. -/
def state (seed : UInt64) : Nat → Option Rand
  | 0 => make seed
  | n + 1 => (state seed n).bind fun r => (XorOshiro.draw shifts 32 r).map Prod.snd

theorem next_ne_zero {r : Rand} (h : r ≠ zero) : r.next ≠ zero :=
  XorOshiro.next_ne_zero (by decide) (by decide) h

theorem draw_eq {r : Rand} (h : r ≠ zero) :
    XorOshiro.draw shifts 32 r = some (XorOshiro.result 32 r, r.next) :=
  draw_of_ne_zero (by decide) (by decide) h 32

theorem make_eq {seed : UInt64} (h : seed ≠ 0) : make seed = some (next ⟨seed.toBitVec, 0⟩) := by
  have hword : seed.toBitVec ≠ 0 := fun hz => h (UInt64.toBitVec_inj.1 hz)
  have hstate : (⟨seed.toBitVec, 0⟩ : Rand) ≠ zero := fun hz => hword (eq_zero_iff.1 hz).1
  rw [make, XorOshiro.make, if_neg (fun hz => hword hz.1), draw_eq hstate]
  rfl

/-- From a seed other than zero, all states are reached and none is zero. -/
theorem state_eq {seed : UInt64} (h : seed ≠ 0) (n : Nat) :
    state seed n = some (next^[n + 1] ⟨seed.toBitVec, 0⟩) ∧
      next^[n + 1] ⟨seed.toBitVec, 0⟩ ≠ zero := by
  have hstart : (⟨seed.toBitVec, 0⟩ : Rand) ≠ zero :=
    fun hz => h (UInt64.toBitVec_inj.1 (eq_zero_iff.1 hz).1)
  induction n with
  | zero => exact ⟨make_eq h, next_ne_zero hstart⟩
  | succ n ih =>
    obtain ⟨hstate, hne⟩ := ih
    rw [Function.iterate_succ_apply']
    refine ⟨?_, next_ne_zero hne⟩
    rw [state, hstate, Option.bind_some, draw_eq hne, Option.map_some]

theorem state_zero (n : Nat) : state 0 n = none := by
  induction n with
  | zero => rfl
  | succ n ih => rw [state, ih, Option.bind_none]

end Rand

end Trieste
