namespace LoopLegality.Text.Binary64

def infinity : Nat := 0x7ff0000000000000

/-- The integer nearest to `n / d`, an exact half going to the even one. -/
def roundDiv (n d : Nat) : Nat :=
  let q := n / d
  let r := n % d
  if 2 * r < d then q
  else if d < 2 * r then q + 1
  else q + q % 2

def scaled (n d : Nat) (q : Int) : Nat × Nat :=
  if 0 ≤ q then (n, d * Nat.pow 2 q.toNat) else (n * Nat.pow 2 (-q).toNat, d)

/-- The pattern of the binary64 number nearest to `n / d`, for positive `n` and `d`.
The significand is counted in units of `2 ^ q` and fills 53 bits unless the number is too
small for that; a carry out of the significand is a carry into the exponent. -/
def ofRatio (n d : Nat) : Nat :=
  let low : Int := (Nat.log2 n : Int) - Nat.log2 d - 53
  let trial := scaled n d low
  let q := max (-1074) (if trial.1 / trial.2 < Nat.pow 2 53 then low else low + 1)
  let exact := scaled n d q
  min infinity ((q + 1074).toNat * Nat.pow 2 52 + roundDiv exact.1 exact.2)

/-- The pattern of the binary64 number nearest to `m * 10 ^ e`. Exponents far outside the
range of the format are settled without computing the power. -/
def ofDecimal (m : Nat) (e : Int) : Nat :=
  if m = 0 then 0
  else if 400 < e then infinity
  else if e < -400 - (Nat.log2 m : Int) then 0
  else if 0 ≤ e then ofRatio (m * Nat.pow 10 e.toNat) 1
  else ofRatio m (Nat.pow 10 (-e).toNat)

end LoopLegality.Text.Binary64
