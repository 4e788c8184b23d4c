namespace LoopLegality

/-- No word can hold the result of an operation that nothing checks. The run ends there. -/
structure Overflow
deriving DecidableEq, Inhabited, Repr

namespace Word

def Fits (n : Int) : Prop := -9223372036854775808 ≤ n ∧ n ≤ 9223372036854775807

instance (n : Int) : Decidable (Fits n) := inferInstanceAs (Decidable (_ ∧ _))

def fit? (n : Int) : Option Int := if Fits n then some n else none

def unsigned? (n : Int) : Option Nat :=
  if 0 ≤ n ∧ n ≤ 18446744073709551615 then some n.toNat else none

def add? (a b : Int) : Option Int := fit? (a + b)

def sub? (a b : Int) : Option Int := fit? (a - b)

def mul? (a b : Int) : Option Int := fit? (a * b)

def neg? (a : Int) : Option Int := fit? (-a)

def div? (a b : Int) : Option Int := if b = 0 then none else fit? (a.tdiv b)

/-- Remainder with the sign of the dividend, undefined wherever the quotient is. -/
def rem? (a b : Int) : Option Int := (div? a b).map fun _ => a.tmod b

def shiftLeft? (a b : Int) : Option Int :=
  if 0 ≤ b ∧ b < 64 then some (Int.bmod (a * Int.pow 2 b.toNat) 18446744073709551616) else none

def shiftRight? (a b : Int) : Option Int :=
  if 0 ≤ b ∧ b < 64 then some (a / Int.pow 2 b.toNat) else none

def bits (n : Int) : BitVec 64 := BitVec.ofInt 64 n

def land (a b : Int) : Int := (bits a &&& bits b).toInt

def lor (a b : Int) : Int := (bits a ||| bits b).toInt

def lxor (a b : Int) : Int := (bits a ^^^ bits b).toInt

def complement (a : Int) : Int := -a - 1

def unchecked (n : Nat) : Except Overflow Nat := if Fits n then .ok n else .error ⟨⟩

def abs (n : Int) : Except Overflow Nat := unchecked n.natAbs

/-- The common factor of what is known to divide and one more number. -/
def gcd (g : Nat) (n : Int) : Except Overflow Nat := unchecked (Nat.gcd g n.natAbs)

theorem fit?_eq_some {n m : Int} : fit? n = some m ↔ Fits n ∧ n = m := by
  by_cases h : Fits n <;> simp [fit?, h]

theorem fit?_of_fits {n : Int} (h : Fits n) : fit? n = some n := if_pos h

theorem fit?_eq_none {n : Int} : fit? n = none ↔ ¬ Fits n := by
  by_cases h : Fits n <;> simp [fit?, h]

theorem eq_of_add? {a b c : Int} (h : add? a b = some c) : c = a + b :=
  (fit?_eq_some.mp h).2.symm

theorem eq_of_sub? {a b c : Int} (h : sub? a b = some c) : c = a - b :=
  (fit?_eq_some.mp h).2.symm

theorem eq_of_mul? {a b c : Int} (h : mul? a b = some c) : c = a * b :=
  (fit?_eq_some.mp h).2.symm

theorem eq_of_neg? {a c : Int} (h : neg? a = some c) : c = -a :=
  (fit?_eq_some.mp h).2.symm

end Word

end LoopLegality
