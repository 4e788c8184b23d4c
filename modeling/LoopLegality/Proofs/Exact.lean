import LoopLegality.Proofs.Bounds
import LoopLegality.Proofs.NormalForm
import Mathlib.Data.Int.Bitwise

namespace LoopLegality

namespace Word

variable {a b n : Int}

theorem getLsbD_bits (a : Int) {i : Nat} (hi : i < 64) : (bits a).getLsbD i = a.testBit i := by
  rw [bits]
  cases a with
  | ofNat m =>
    rw [Int.ofNat_eq_natCast, BitVec.ofInt_natCast, BitVec.getLsbD_ofNat, decide_eq_true hi,
      Bool.true_and]
    rfl
  | negSucc m =>
    rw [BitVec.ofInt_negSucc_eq_not_ofNat, BitVec.getLsbD_not, BitVec.getLsbD_ofNat,
      decide_eq_true hi, Bool.true_and, Bool.true_and]
    rfl

theorem toInt_bits (h : Fits n) : (bits n).toInt = n := by
  obtain ⟨hlow, hhigh⟩ := h
  apply BitVec.toInt_ofInt_eq_self (by decide)
  · norm_num
    exact hlow
  · norm_num
    omega

theorem fits_natBitwise (f : Bool → Bool → Bool) {k m : Nat} (hk : k < 2 ^ 63) (hm : m < 2 ^ 63) :
    Fits (Int.natBitwise f k m) := by
  unfold Int.natBitwise Fits
  cases f false false with
  | false =>
    have h := Nat.bitwise_lt_two_pow (f := f) hk hm
    simp only [cond_false]
    omega
  | true =>
    have h := Nat.bitwise_lt_two_pow (f := fun x y => !f x y) hk hm
    simp only [cond_true]
    omega

theorem Fits.magnitude (h : Fits a) :
    ∃ k < 2 ^ 63, a = Int.ofNat k ∨ a = Int.negSucc k := by
  obtain ⟨hlow, hhigh⟩ := h
  cases a with
  | ofNat k =>
    rw [Int.ofNat_eq_natCast] at hhigh
    exact ⟨k, by omega, .inl rfl⟩
  | negSucc k => exact ⟨k, by omega, .inr rfl⟩

theorem fits_bitwise (f : Bool → Bool → Bool) (ha : Fits a) (hb : Fits b) :
    Fits (Int.bitwise f a b) := by
  obtain ⟨k, hk, ha⟩ := ha.magnitude
  obtain ⟨m, hm, hb⟩ := hb.magnitude
  obtain rfl | rfl := ha <;> obtain rfl | rfl := hb
  all_goals
    rw [Int.bitwise]
    exact fits_natBitwise _ hk hm

theorem fits_toInt (z : BitVec 64) : Fits z.toInt := by
  have hlow := z.le_toInt
  have hhigh := z.toInt_lt
  unfold Fits
  omega

theorem toInt_eq_bitwise {f : Bool → Bool → Bool} {z : BitVec 64} (ha : Fits a) (hb : Fits b)
    (hz : ∀ i < 64, z.getLsbD i = f ((bits a).getLsbD i) ((bits b).getLsbD i)) :
    z.toInt = Int.bitwise f a b := by
  have hbits : z = bits (Int.bitwise f a b) := by
    apply BitVec.eq_of_getLsbD_eq
    intro i hi
    rw [hz i hi, getLsbD_bits _ hi, getLsbD_bits _ hi, getLsbD_bits _ hi, Int.testBit_bitwise]
  rw [hbits, toInt_bits (fits_bitwise f ha hb)]

theorem land_eq (ha : Fits a) (hb : Fits b) : land a b = Int.land a b := by
  rw [← Int.bitwise_and]
  exact toInt_eq_bitwise ha hb fun i _ => BitVec.getLsbD_and

theorem lor_eq (ha : Fits a) (hb : Fits b) : lor a b = Int.lor a b := by
  rw [← Int.bitwise_or]
  exact toInt_eq_bitwise ha hb fun i _ => BitVec.getLsbD_or

theorem lxor_eq (ha : Fits a) (hb : Fits b) : lxor a b = Int.xor a b := by
  rw [← Int.bitwise_xor]
  exact toInt_eq_bitwise ha hb fun i _ => BitVec.getLsbD_xor

theorem complement_eq (a : Int) : complement a = Int.lnot a := by
  cases a with
  | ofNat m =>
    rw [complement, Int.lnot, Int.ofNat_eq_natCast]
    omega
  | negSucc m =>
    rw [complement, Int.lnot]
    omega

theorem fits_bmod (n : Int) : Fits (Int.bmod n 18446744073709551616) := by
  unfold Fits
  have := Int.le_bmod (x := n) (m := 18446744073709551616) (by decide)
  have := Int.bmod_lt (x := n) (m := 18446744073709551616) (by decide)
  omega

theorem bmod_eq_self_iff : Int.bmod n 18446744073709551616 = n ↔ Fits n := by
  constructor
  · intro h
    exact h ▸ fits_bmod n
  · intro h
    unfold Fits at h
    exact Int.bmod_eq_of_le (by omega) (by omega)

theorem fits_tmod (hb : Fits b) (hne : b ≠ 0) : Fits (a.tmod b) := by
  have habs := Int.natAbs_tmod a b
  have hlt : a.natAbs % b.natAbs < b.natAbs := Nat.mod_lt _ (by omega)
  unfold Fits at *
  omega

theorem fits_ediv (ha : Fits a) {d : Int} (hd : 0 < d) : Fits (a / d) := by
  unfold Fits at *
  obtain hneg | hpos := lt_or_ge a 0
  · have hlow : a ≤ a / d := by
      apply Int.le_ediv_of_mul_le hd
      nlinarith
    have hhigh : a / d < 0 := Int.ediv_neg_of_neg_of_pos hneg hd
    omega
  · have hlow : 0 ≤ a / d := Int.ediv_nonneg hpos hd.le
    have hhigh : a / d ≤ a := Int.ediv_le_self d hpos
    omega

theorem fits_truth (p : Bool) : Fits (truth p) := by
  cases p <;> decide

end Word

/-- An operator over all integers. Division goes toward zero, a shift is a product or a quotient
that is rounded down, and bits are those of two's complement without end. -/
def BinaryOp.ideal? (op : BinaryOp) (a b : Int) : Option Int :=
  match op with
  | add => some (a + b)
  | sub => some (a - b)
  | mul => some (a * b)
  | div => if b = 0 then none else some (a.tdiv b)
  | mod => if b = 0 then none else some (a.tmod b)
  | shl => if b < 0 then none else some (a * 2 ^ b.toNat)
  | shr => if b < 0 then none else some (a / 2 ^ b.toNat)
  | bitAnd => some (Int.land a b)
  | bitOr => some (Int.lor a b)
  | bitXor => some (Int.xor a b)
  | eq => some (truth (a = b))
  | ne => some (truth (a ≠ b))
  | lt => some (truth (a < b))
  | le => some (truth (a ≤ b))
  | gt => some (truth (b < a))
  | ge => some (truth (b ≤ a))
  | and => some (truth (a ≠ 0 ∧ b ≠ 0))
  | or => some (truth (a ≠ 0 ∨ b ≠ 0))

def UnaryOp.ideal? (op : UnaryOp) (a : Int) : Option Int :=
  match op with
  | plus => some a
  | neg => some (-a)
  | not => some (truth (a = 0))
  | complement => some (Int.lnot a)
  | _ => none

/-- The value over all integers, with the right operand of `&&` and `||` and the branches of a
conditional evaluated on demand. Casts change nothing. -/
def Expr.ideal? (v : Values) : Expr → Option Int
  | .int n _ => some n
  | .ident x _ => some (v x)
  | .unary op e _ => do op.ideal? (← e.ideal? v)
  | .binary op l r _ => do
    let a ← l.ideal? v
    match op with
    | .and => if a = 0 then return 0 else return truth ((← r.ideal? v) ≠ 0)
    | .or => if a = 0 then return truth ((← r.ideal? v) ≠ 0) else return 1
    | op => op.ideal? a (← r.ideal? v)
  | .conditional c t f _ => do
    if (← c.ideal? v) = 0 then f.ideal? v else t.ideal? v
  | .cast _ e _ => e.ideal? v
  | _ => none

/-- What leaves an operator on words without a value: a result that fits no word, a divisor that
is zero, an amount of a shift outside the word. -/
def BinaryOp.Undefined (op : BinaryOp) (a b : Int) : Prop :=
  match op with
  | add => ¬ Word.Fits (a + b)
  | sub => ¬ Word.Fits (a - b)
  | mul => ¬ Word.Fits (a * b)
  | div | mod => b = 0 ∨ ¬ Word.Fits (a.tdiv b)
  | shl | shr => b < 0 ∨ 64 ≤ b
  | _ => False

def UnaryOp.Undefined (op : UnaryOp) (a : Int) : Prop :=
  match op with
  | neg => ¬ Word.Fits (-a)
  | plus | not | complement => False
  | _ => True

namespace BinaryOp

variable {op : BinaryOp} {a b n : Int}

theorem undefined_iff : op.result? a b = none ↔ op.Undefined a b := by
  cases op with
  | add | sub | mul => exact Word.fit?_eq_none
  | div =>
    by_cases hb : b = 0
    · simp [BinaryOp.result?, Undefined, Word.div?, hb]
    · simp [BinaryOp.result?, Undefined, Word.div?, hb, Word.fit?_eq_none]
  | mod =>
    by_cases hb : b = 0
    · simp [BinaryOp.result?, Undefined, Word.rem?, Word.div?, hb]
    · simp [BinaryOp.result?, Undefined, Word.rem?, Word.div?, hb, Word.fit?_eq_none]
  | shl | shr =>
    by_cases hb : 0 ≤ b ∧ b < 64
    · simp [BinaryOp.result?, Undefined, Word.shiftLeft?, Word.shiftRight?, hb]
    · simp only [BinaryOp.result?, Undefined, Word.shiftLeft?, Word.shiftRight?, hb, if_false,
        true_iff]
      omega
  | _ => simp [BinaryOp.result?, Undefined]

/-- A left shift multiplies, and drops the bits that leave the word. -/
theorem shl_of_result? (h : shl.result? a b = some n) :
    shl.ideal? a b = some (a * 2 ^ b.toNat) ∧
      n = Int.bmod (a * 2 ^ b.toNat) 18446744073709551616 := by
  simp only [BinaryOp.result?, Word.shiftLeft?] at h
  split at h
  · next hb =>
    cases h
    exact ⟨if_neg (by omega), rfl⟩
  · cases h

theorem fits_of_settled? (h : op.settled? a = some n) : Word.Fits n := by
  unfold settled? at h
  split at h
  · split at h
    · cases h
      decide
    · cases h
  · split at h
    · cases h
    · cases h
      decide
  · cases h

/-- Apart from left shifts, the value on words is that over all integers. -/
theorem ideal?_of_result? (hop : op ≠ .shl) (ha : Word.Fits a) (hb : Word.Fits b)
    (h : op.result? a b = some n) : op.ideal? a b = some n := by
  cases op with
  | add => rw [ideal?, Word.eq_of_add? h]
  | sub => rw [ideal?, Word.eq_of_sub? h]
  | mul => rw [ideal?, Word.eq_of_mul? h]
  | div =>
    simp only [BinaryOp.result?, Word.div?] at h
    split at h
    · cases h
    · next hne =>
      obtain ⟨-, rfl⟩ := Word.fit?_eq_some.mp h
      exact if_neg hne
  | mod =>
    simp only [BinaryOp.result?, Word.rem?, Word.div?] at h
    split at h
    · cases h
    · next hne =>
      obtain ⟨q, -, rfl⟩ := Option.map_eq_some_iff.mp h
      exact if_neg hne
  | shl => exact (hop rfl).elim
  | shr =>
    simp only [BinaryOp.result?, Word.shiftRight?] at h
    split at h
    · next hamount =>
      cases h
      exact if_neg (by omega)
    · cases h
  | bitAnd => rw [ideal?, ← Word.land_eq ha hb, ← h, BinaryOp.result?]
  | bitOr => rw [ideal?, ← Word.lor_eq ha hb, ← h, BinaryOp.result?]
  | bitXor => rw [ideal?, ← Word.lxor_eq ha hb, ← h, BinaryOp.result?]
  | eq | ne | lt | le | gt | ge | and | or =>
    rw [← h]
    simp [ideal?, BinaryOp.result?, bne, beq_eq_decide]

theorem fits_of_result? (ha : Word.Fits a) (hb : Word.Fits b) (h : op.result? a b = some n) :
    Word.Fits n := by
  cases op with
  | add | sub | mul =>
    obtain ⟨hfits, rfl⟩ := Word.fit?_eq_some.mp h
    exact hfits
  | div =>
    simp only [BinaryOp.result?, Word.div?] at h
    split at h
    · cases h
    · obtain ⟨hfits, rfl⟩ := Word.fit?_eq_some.mp h
      exact hfits
  | mod =>
    have hideal := ideal?_of_result? (by decide) ha hb h
    simp only [ideal?] at hideal
    split at hideal
    · cases hideal
    · next hne =>
      cases hideal
      exact Word.fits_tmod hb hne
  | shl =>
    obtain ⟨-, rfl⟩ := shl_of_result? h
    exact Word.fits_bmod _
  | shr =>
    simp only [BinaryOp.result?, Word.shiftRight?] at h
    split at h
    · cases h
      exact Word.fits_ediv ha (Int.pow_pos (by decide))
    · cases h
  | bitAnd | bitOr | bitXor =>
    cases h
    exact Word.fits_toInt _
  | eq | ne | lt | le | gt | ge | and | or =>
    cases h
    exact Word.fits_truth _

end BinaryOp

namespace UnaryOp

variable {op : UnaryOp} {a n : Int}

theorem undefined_iff : op.result? a = none ↔ op.Undefined a := by
  cases op with
  | neg => exact Word.fit?_eq_none
  | _ => simp [UnaryOp.result?, Undefined]

theorem ideal?_of_result? (h : op.result? a = some n) : op.ideal? a = some n := by
  cases op with
  | plus => exact h
  | neg => rw [ideal?, Word.eq_of_neg? h]
  | not =>
    rw [← h]
    simp [ideal?, UnaryOp.result?, beq_eq_decide]
  | complement => rw [ideal?, ← Word.complement_eq, ← h, UnaryOp.result?]
  | _ => cases h

theorem fits_of_result? (ha : Word.Fits a) (h : op.result? a = some n) : Word.Fits n := by
  cases op with
  | plus =>
    cases h
    exact ha
  | neg =>
    obtain ⟨hfits, rfl⟩ := Word.fit?_eq_some.mp h
    exact hfits
  | not =>
    cases h
    exact Word.fits_truth _
  | complement =>
    cases h
    unfold Word.complement Word.Fits at *
    omega
  | _ => cases h

end UnaryOp

def ConstEnv.OfWords (env : ConstEnv) : Prop := ∀ x n, env.get? x = some n → Word.Fits n

theorem ConstEnv.agrees_getD (env : ConstEnv) :
    env.Agrees fun x => (env.get? x).getD 0 := by
  intro x n h
  simp [h]

namespace Expr

variable {env : ConstEnv} {v : Values} {e i j : Expr} {n : Int}

structure OfWords (e : Expr) : Prop where
  ints : ∀ n s, .int n s ∈ e.nodes → Word.Fits n
  chars : ∀ t s, .char t s ∉ e.nodes

/-- Evaluation demands the value of a part. It does not demand a right operand that the left one
makes superfluous, nor the branch that is not taken. -/
inductive Demands (env : ConstEnv) : Expr → Expr → Prop
  | self (e : Expr) : Demands env e e
  | operand {e i : Expr} (op : UnaryOp) (s : Span) (h : Demands env e i) :
      Demands env (.unary op e s) i
  | left {l i : Expr} (op : BinaryOp) (r : Expr) (s : Span) (h : Demands env l i) :
      Demands env (.binary op l r s) i
  | right {op : BinaryOp} {l r i : Expr} {a : Int} (s : Span) (ha : l.eval? env = some a)
      (hop : op.settled? a = none) (h : Demands env r i) : Demands env (.binary op l r s) i
  | test {c i : Expr} (t f : Expr) (s : Span) (h : Demands env c i) :
      Demands env (.conditional c t f s) i
  | yes {c t i : Expr} {a : Int} (f : Expr) (s : Span) (hc : c.eval? env = some a) (ha : a ≠ 0)
      (h : Demands env t i) : Demands env (.conditional c t f s) i
  | no {c f i : Expr} (t : Expr) (s : Span) (hc : c.eval? env = some 0) (h : Demands env f i) :
      Demands env (.conditional c t f s) i
  | cast {e i : Expr} (t : String) (s : Span) (h : Demands env e i) :
      Demands env (.cast t e s) i

def isForeign : Expr → Bool
  | float .. | str .. | field .. | subscript .. | call .. | assign .. | sizeOfType _ | sizeOf ..
  | comma .. => true
  | _ => false

/-- A part has no value though those it is made of have one. -/
inductive Stuck (env : ConstEnv) : Expr → Prop
  | foreign {e : Expr} (h : e.isForeign = true) : Stuck env e
  | unknown {x : Symbol} (s : Span) (h : env.get? x = none) : Stuck env (.ident x s)
  | unary {op : UnaryOp} {e : Expr} {a : Int} (s : Span) (ha : e.eval? env = some a)
      (h : op.Undefined a) : Stuck env (.unary op e s)
  | binary {op : BinaryOp} {l r : Expr} {a b : Int} (s : Span) (ha : l.eval? env = some a)
      (hop : op.settled? a = none) (hb : r.eval? env = some b) (h : op.Undefined a b) :
      Stuck env (.binary op l r s)

/-- No left shift that evaluation demands drops a bit that counts. -/
def KeepsBits (env : ConstEnv) (e : Expr) : Prop :=
  ∀ l r s a b, Demands env e (.binary .shl l r s) → l.eval? env = some a →
    r.eval? env = some b → Word.Fits (a * 2 ^ b.toNat)

namespace Demands

theorem trans (h : Demands env e i) (h' : Demands env i j) : Demands env e j := by
  induction h with
  | self e => exact h'
  | operand op s h ih => exact .operand op s (ih h')
  | left op r s h ih => exact .left op r s (ih h')
  | right s ha hop h ih => exact .right s ha hop (ih h')
  | test t f s h ih => exact .test t f s (ih h')
  | yes f s hc ha h ih => exact .yes f s hc ha (ih h')
  | no t s hc h ih => exact .no t s hc (ih h')
  | cast t s h ih => exact .cast t s (ih h')

theorem nodes_subset (h : Demands env e i) : i.nodes ⊆ e.nodes := by
  induction h with
  | self e => exact List.Subset.refl _
  | operand op s h ih | cast t s h ih => exact List.subset_cons_of_subset _ ih
  | left op r s h ih =>
    exact List.subset_cons_of_subset _ (List.subset_append_of_subset_left _ ih)
  | right s ha hop h ih =>
    exact List.subset_cons_of_subset _ (List.subset_append_of_subset_right _ ih)
  | test t f s h ih =>
    apply List.subset_cons_of_subset
    exact List.subset_append_of_subset_left _ (List.subset_append_of_subset_left _ ih)
  | yes f s hc ha h ih =>
    apply List.subset_cons_of_subset
    exact List.subset_append_of_subset_left _ (List.subset_append_of_subset_right _ ih)
  | no t s hc h ih =>
    exact List.subset_cons_of_subset _ (List.subset_append_of_subset_right _ ih)

theorem eval?_eq_none (h : Demands env e i) (hi : i.eval? env = none) : e.eval? env = none := by
  induction h with
  | self e => exact hi
  | operand op s h ih | left op r s h ih | test t f s h ih => simp [eval?, ih hi]
  | right s ha hop h ih => simp [eval?, ha, hop, ih hi]
  | yes f s hc ha h ih => simp [eval?, hc, ha, ih hi]
  | no t s hc h ih => simp [eval?, hc, ih hi]
  | cast t s h ih => exact ih hi

theorem exists_eval? (h : Demands env e i) (hn : e.eval? env = some n) :
    ∃ m, i.eval? env = some m := by
  rw [← Option.ne_none_iff_exists']
  intro hi
  rw [h.eval?_eq_none hi] at hn
  cases hn

theorem exists_stuck (h : Demands env e i) (hi : ∃ j, Demands env i j ∧ j.Stuck env) :
    ∃ j, Demands env e j ∧ j.Stuck env := by
  obtain ⟨j, hj, hstuck⟩ := hi
  exact ⟨j, h.trans hj, hstuck⟩

end Demands

theorem OfWords.of_demands (he : e.OfWords) (h : Demands env e i) : i.OfWords where
  ints n s hn := he.ints n s (h.nodes_subset hn)
  chars t s ht := he.chars t s (h.nodes_subset ht)

theorem Stuck.eval?_eq_none (h : e.Stuck env) : e.eval? env = none := by
  cases h with
  | foreign h =>
    cases e with
    | float | str | field | subscript | call | assign | sizeOfType | sizeOf | comma => rfl
    | _ => cases h
  | unknown s h => exact h
  | unary s ha h => simpa [eval?, ha] using UnaryOp.undefined_iff.mpr h
  | binary s ha hop hb h => simpa [eval?, ha, hop, hb] using BinaryOp.undefined_iff.mpr h

/-- If the whole has no value, evaluation demands a part that is stuck. -/
theorem exists_stuck : ∀ (e : Expr), e.OfWords → e.eval? env = none →
    ∃ i, Demands env e i ∧ i.Stuck env
  | .int n s, _, h => by cases h
  | .char t s, he, _ => (he.chars t s (mem_nodes_self _)).elim
  | .ident x s, _, h => ⟨_, .self _, .unknown s h⟩
  | .unary op e s, he, h => by
    have hsub : Demands env (.unary op e s) e := .operand op s (.self e)
    cases ha : e.eval? env with
    | none =>
      exact hsub.exists_stuck (exists_stuck e (he.of_demands hsub) ha)
    | some a =>
      have hop : op.result? a = none := by simpa [eval?, ha] using h
      exact ⟨_, .self _, .unary s ha (UnaryOp.undefined_iff.mp hop)⟩
  | .binary op l r s, he, h => by
    have hleft : Demands env (.binary op l r s) l := .left op r s (.self l)
    cases ha : l.eval? env with
    | none =>
      exact hleft.exists_stuck (exists_stuck l (he.of_demands hleft) ha)
    | some a =>
      cases hs : op.settled? a with
      | some n => simp [eval?, ha, hs] at h
      | none =>
        have hright : Demands env (.binary op l r s) r := .right s ha hs (.self r)
        cases hb : r.eval? env with
        | none =>
          exact hright.exists_stuck (exists_stuck r (he.of_demands hright) hb)
        | some b =>
          have hop : op.result? a b = none := by simpa [eval?, ha, hs, hb] using h
          exact ⟨_, .self _, .binary s ha hs hb (BinaryOp.undefined_iff.mp hop)⟩
  | .conditional c t f s, he, h => by
    have htest : Demands env (.conditional c t f s) c := .test t f s (.self c)
    cases ha : c.eval? env with
    | none =>
      exact htest.exists_stuck (exists_stuck c (he.of_demands htest) ha)
    | some a =>
      by_cases hzero : a = 0
      · subst hzero
        have hno : Demands env (.conditional c t f s) f := .no t s ha (.self f)
        have hf : f.eval? env = none := by simpa [eval?, ha] using h
        exact hno.exists_stuck (exists_stuck f (he.of_demands hno) hf)
      · have hyes : Demands env (.conditional c t f s) t := .yes f s ha hzero (.self t)
        have ht : t.eval? env = none := by simpa [eval?, ha, hzero] using h
        exact hyes.exists_stuck (exists_stuck t (he.of_demands hyes) ht)
  | .cast t e s, he, h => by
    have hsub : Demands env (.cast t e s) e := .cast t s (.self e)
    exact hsub.exists_stuck (exists_stuck e (he.of_demands hsub) h)
  | .float .., _, _ | .str .., _, _ | .field .., _, _ | .subscript .., _, _ | .call .., _, _
  | .assign .., _, _ | .sizeOfType _, _, _ | .sizeOf .., _, _ | .comma .., _, _ =>
    ⟨_, .self _, .foreign rfl⟩

theorem ideal?_binary (op : BinaryOp) (l r : Expr) (s : Span) {a : Int}
    (ha : l.ideal? v = some a) : (Expr.binary op l r s).ideal? v =
      (op.settled? a).or ((r.ideal? v).bind (op.ideal? a)) := by
  cases op with
  | and =>
    by_cases hz : a = 0
    · simp [ideal?, ha, hz, BinaryOp.settled?]
    · cases hb : r.ideal? v <;> simp [ideal?, ha, hb, hz, BinaryOp.settled?, BinaryOp.ideal?]
  | or =>
    by_cases hz : a = 0
    · cases hb : r.ideal? v <;> simp [ideal?, ha, hb, hz, BinaryOp.settled?, BinaryOp.ideal?]
    · simp [ideal?, ha, hz, BinaryOp.settled?]
  | _ => simp [ideal?, ha, BinaryOp.settled?]

theorem eval?_binary_eq_some {op : BinaryOp} {l r : Expr} {s : Span}
    (h : (binary op l r s).eval? env = some n) : ∃ a, l.eval? env = some a ∧
      (op.settled? a = some n ∨
        op.settled? a = none ∧ ∃ b, r.eval? env = some b ∧ op.result? a b = some n) := by
  obtain ⟨a, ha, h⟩ := Option.bind_eq_some_iff.mp h
  refine ⟨a, ha, ?_⟩
  cases hs : op.settled? a with
  | some m =>
    rw [hs] at h
    exact .inl h
  | none =>
    rw [hs] at h
    exact .inr ⟨rfl, Option.bind_eq_some_iff.mp h⟩

theorem eval?_strict_eq_some {op : BinaryOp} {l r : Expr} {s : Span}
    (hop : ∀ a, op.settled? a = none) (h : (binary op l r s).eval? env = some n) :
    ∃ a b, l.eval? env = some a ∧ r.eval? env = some b ∧ op.result? a b = some n := by
  obtain ⟨a, ha, h | ⟨-, b, hb, h⟩⟩ := eval?_binary_eq_some h
  · rw [hop] at h
    cases h
  · exact ⟨a, b, ha, hb, h⟩

theorem eval?_conditional_eq_some {c t f : Expr} {s : Span}
    (h : (conditional c t f s).eval? env = some n) :
    c.eval? env = some 0 ∧ f.eval? env = some n ∨
      ∃ a, c.eval? env = some a ∧ a ≠ 0 ∧ t.eval? env = some n := by
  obtain ⟨a, ha, h⟩ := Option.bind_eq_some_iff.mp h
  by_cases hzero : a = 0
  · exact .inl ⟨hzero ▸ ha, by simpa [hzero] using h⟩
  · exact .inr ⟨a, ha, hzero, by simpa [hzero] using h⟩

theorem fits_of_eval? (henv : env.OfWords) : ∀ (e : Expr) {n : Int}, e.OfWords →
    e.eval? env = some n → Word.Fits n
  | .int n s, _, he, h => by
    cases h
    exact he.ints n s (mem_nodes_self _)
  | .char t s, _, he, _ => (he.chars t s (mem_nodes_self _)).elim
  | .ident x s, n, _, h => henv x n h
  | .unary op e s, n, he, h => by
    obtain ⟨a, ha, hop⟩ := Option.bind_eq_some_iff.mp h
    have hsub : Demands env (.unary op e s) e := .operand op s (.self e)
    exact UnaryOp.fits_of_result? (fits_of_eval? henv e (he.of_demands hsub) ha) hop
  | .binary op l r s, n, he, h => by
    obtain ⟨a, ha, hs | ⟨hs, b, hb, hop⟩⟩ := eval?_binary_eq_some h
    · exact BinaryOp.fits_of_settled? hs
    · have hleft : Demands env (.binary op l r s) l := .left op r s (.self l)
      have hright : Demands env (.binary op l r s) r := .right s ha hs (.self r)
      exact BinaryOp.fits_of_result? (fits_of_eval? henv l (he.of_demands hleft) ha)
        (fits_of_eval? henv r (he.of_demands hright) hb) hop
  | .conditional c t f s, n, he, h => by
    obtain ⟨hc, h⟩ | ⟨a, hc, ha, h⟩ := eval?_conditional_eq_some h
    · have hno : Demands env (.conditional c t f s) f := .no t s hc (.self f)
      exact fits_of_eval? henv f (he.of_demands hno) h
    · have hyes : Demands env (.conditional c t f s) t := .yes f s hc ha (.self t)
      exact fits_of_eval? henv t (he.of_demands hyes) h
  | .cast t e s, n, he, h => by
    have hsub : Demands env (.cast t e s) e := .cast t s (.self e)
    exact fits_of_eval? henv e (he.of_demands hsub) h
  | .float .., _, _, h | .str .., _, _, h | .field .., _, _, h | .subscript .., _, _, h
  | .call .., _, _, h | .assign .., _, _, h | .sizeOfType _, _, _, h | .sizeOf .., _, _, h
  | .comma .., _, _, h => by cases h

theorem KeepsBits.of_demands (h : e.KeepsBits env) (hi : Demands env e i) :
    i.KeepsBits env :=
  fun l r s a b hs => h l r s a b (hi.trans hs)

/-- Evaluation that drops no bits gives the value over all integers. -/
theorem ideal?_of_eval? (henv : env.OfWords) (hv : env.Agrees v) : ∀ (e : Expr) {n : Int},
    e.OfWords → e.KeepsBits env → e.eval? env = some n → e.ideal? v = some n
  | .int n s, _, _, _, h => h
  | .char t s, _, he, _, _ => (he.chars t s (mem_nodes_self _)).elim
  | .ident x s, n, _, _, h => by rw [ideal?, hv x n h]
  | .unary op e s, n, he, hk, h => by
    obtain ⟨a, ha, hop⟩ := Option.bind_eq_some_iff.mp h
    have hsub : Demands env (.unary op e s) e := .operand op s (.self e)
    have hideal := ideal?_of_eval? henv hv e (he.of_demands hsub) (hk.of_demands hsub) ha
    simpa [ideal?, hideal] using UnaryOp.ideal?_of_result? hop
  | .binary op l r s, n, he, hk, h => by
    obtain ⟨a, ha, h⟩ := eval?_binary_eq_some h
    have hleft : Demands env (.binary op l r s) l := .left op r s (.self l)
    have hwords := he.of_demands hleft
    rw [ideal?_binary op l r s (ideal?_of_eval? henv hv l hwords (hk.of_demands hleft) ha)]
    obtain hs | ⟨hs, b, hb, hop⟩ := h
    · rw [hs, Option.some_or]
    · have hright : Demands env (.binary op l r s) r := .right s ha hs (.self r)
      have hwords' := he.of_demands hright
      rw [hs, ideal?_of_eval? henv hv r hwords' (hk.of_demands hright) hb, Option.none_or,
        Option.bind_some]
      by_cases hshl : op = .shl
      · subst hshl
        obtain ⟨hideal, hn⟩ := BinaryOp.shl_of_result? hop
        rw [hideal, hn, Word.bmod_eq_self_iff.mpr (hk l r s a b (.self _) ha hb)]
      · exact BinaryOp.ideal?_of_result? hshl (fits_of_eval? henv l hwords ha)
          (fits_of_eval? henv r hwords' hb) hop
  | .conditional c t f s, n, he, hk, h => by
    have htest : Demands env (.conditional c t f s) c := .test t f s (.self c)
    have hideal {a : Int} : c.eval? env = some a → c.ideal? v = some a :=
      ideal?_of_eval? henv hv c (he.of_demands htest) (hk.of_demands htest)
    obtain ⟨hc, h⟩ | ⟨a, hc, ha, h⟩ := eval?_conditional_eq_some h
    · have hno : Demands env (.conditional c t f s) f := .no t s hc (.self f)
      have hf := ideal?_of_eval? henv hv f (he.of_demands hno) (hk.of_demands hno) h
      simpa [ideal?, hideal hc] using hf
    · have hyes : Demands env (.conditional c t f s) t := .yes f s hc ha (.self t)
      have ht := ideal?_of_eval? henv hv t (he.of_demands hyes) (hk.of_demands hyes) h
      simpa [ideal?, hideal hc, ha] using ht
  | .cast t e s, n, he, hk, h => by
    have hsub : Demands env (.cast t e s) e := .cast t s (.self e)
    exact ideal?_of_eval? henv hv e (he.of_demands hsub) (hk.of_demands hsub) h
  | .float .., _, _, _, h | .str .., _, _, _, h | .field .., _, _, _, h
  | .subscript .., _, _, _, h | .call .., _, _, _, h | .assign .., _, _, _, h
  | .sizeOfType _, _, _, _, h | .sizeOf .., _, _, _, h | .comma .., _, _, _, h => by cases h

theorem fits_of_shl {l r : Expr} {s : Span} {a b : Int} (ha : l.eval? env = some a)
    (hb : r.eval? env = some b) (hl : l.ideal? v = some a) (hr : r.ideal? v = some b)
    (hn : (binary .shl l r s).eval? env = some n) (hv : (binary .shl l r s).ideal? v = some n) :
    Word.Fits (a * 2 ^ b.toNat) := by
  have hop : BinaryOp.shl.result? a b = some n := by
    simpa [eval?, ha, hb, BinaryOp.settled?] using hn
  obtain ⟨hideal, hwrap⟩ := BinaryOp.shl_of_result? hop
  have hexact : BinaryOp.shl.ideal? a b = some n := by
    simpa [ideal?, hl, hr] using hv
  have heq : a * 2 ^ b.toNat = n := Option.some.inj (hideal.symm.trans hexact)
  exact Word.bmod_eq_self_iff.mp (hwrap.symm.trans heq.symm)

/-- Evaluation has no answer exactly where it demands a part that is stuck. An answer is a word,
and with all the values on the way to it is exact, under every valuation that agrees with the
constants, exactly if no left shift drops bits. -/
theorem eval?_exact_iff_keepsBits (he : e.OfWords) (henv : env.OfWords) :
    (e.eval? env = none ↔ ∃ i, Demands env e i ∧ i.Stuck env) ∧
      ∀ n, e.eval? env = some n → Word.Fits n ∧
        (e.KeepsBits env ↔
          ∀ v, env.Agrees v → ∀ i, Demands env e i → i.ideal? v = i.eval? env) := by
  refine ⟨⟨exists_stuck e he, fun ⟨i, hi, hs⟩ => hi.eval?_eq_none hs.eval?_eq_none⟩, fun n hn =>
    ⟨fits_of_eval? henv e he hn, fun hk v hv i hi => ?_, fun h l r s a b hs ha hb => ?_⟩⟩
  · obtain ⟨m, hm⟩ := hi.exists_eval? hn
    rw [hm]
    exact ideal?_of_eval? henv hv i (he.of_demands hi) (hk.of_demands hi) hm
  · have hexact := h _ (ConstEnv.agrees_getD env)
    have hleft : Demands env e l := hs.trans (.left .shl r s (.self l))
    have hright : Demands env e r := hs.trans (.right s ha rfl (.self r))
    obtain ⟨m, hm⟩ := hs.exists_eval? hn
    exact fits_of_shl ha hb ((hexact l hleft).trans ha) ((hexact r hright).trans hb) hm
      ((hexact _ hs).trans hm)

/-- `1 << 63` -/
def topBit : Expr := .binary .shl (.int 1 .none) (.int 63 .none) .none

theorem topBit_ofWords : topBit.OfWords := by
  constructor
  · intro n s hn
    simp only [topBit, nodes, List.cons_append, List.nil_append, List.mem_cons, reduceCtorEq,
      Expr.int.injEq, List.not_mem_nil, or_false, false_or] at hn
    obtain ⟨rfl, -⟩ | ⟨rfl, -⟩ := hn <;> decide
  · simp [topBit, nodes]

/-- A shift into the sign bit has an answer, and it is not the power of two. -/
theorem eval?_topBit : topBit.OfWords ∧ ConstEnv.OfWords .empty ∧
    topBit.eval? .empty = some (-9223372036854775808) ∧
    (∀ v, topBit.ideal? v = some 9223372036854775808) ∧ ¬ topBit.KeepsBits .empty := by
  have hempty : ConstEnv.OfWords .empty := fun x n h => by cases h
  have heval : topBit.eval? .empty = some (-9223372036854775808) := by decide
  have hideal : ∀ v, topBit.ideal? v = some 9223372036854775808 := fun v => rfl
  refine ⟨topBit_ofWords, hempty, heval, hideal, fun hk => ?_⟩
  have hexact := ((eval?_exact_iff_keepsBits topBit_ofWords hempty).2 _ heval).2.mp hk
  have h := hexact _ (ConstEnv.agrees_getD .empty) _ (.self topBit)
  rw [hideal, heval] at h
  exact absurd h (by decide)

end Expr

namespace Linear

variable {env : ConstEnv} {v : Values} {e : Expr} {l : Linear} {n : Int}

theorem Reduction.ideal? (h : Reduction e l) (v : Values) : e.ideal? v = some (l.eval v) := by
  induction h with
  | int n s => rw [eval_const, Expr.ideal?]
  | ident x s => rw [eval_var, Expr.ideal?]
  | plus s h ih => simp [Expr.ideal?, ih, UnaryOp.ideal?]
  | neg s h hm ih => simp [Expr.ideal?, ih, UnaryOp.ideal?, eval_neg? hm]
  | add s hl hm hr ihl ihm => simp [Expr.ideal?, ihl, ihm, BinaryOp.ideal?, eval_add? hr]
  | sub s hl hm hr ihl ihm => simp [Expr.ideal?, ihl, ihm, BinaryOp.ideal?, eval_sub? hr]
  | scaleLeft s hl hm hk hr ihl ihm =>
    simp [Expr.ideal?, ihl, ihm, BinaryOp.ideal?, eval_scale? hr, eval_of_constant? hk]
  | scaleRight s hl hm hk hr ihl ihm =>
    simp [Expr.ideal?, ihl, ihm, BinaryOp.ideal?, eval_scale? hr, eval_of_constant? hk, mul_comm]

theorem Reduction.eval_of_eval? (h : Reduction e l) (hv : env.Agrees v)
    (hn : e.eval? env = some n) : l.eval v = n := by
  induction h generalizing n with
  | int k s =>
    cases hn
    exact eval_const k v
  | ident x s => rw [eval_var, hv x n hn]
  | plus s h ih =>
    obtain ⟨a, ha, hop⟩ := Option.bind_eq_some_iff.mp hn
    cases hop
    exact ih ha
  | neg s h hm ih =>
    obtain ⟨a, ha, hop⟩ := Option.bind_eq_some_iff.mp hn
    rw [eval_neg? hm, ih ha, Word.eq_of_neg? hop]
  | add s hl hm hr ihl ihm =>
    obtain ⟨a, b, ha, hb, hop⟩ := Expr.eval?_strict_eq_some (fun _ => rfl) hn
    rw [eval_add? hr, ihl ha, ihm hb, Word.eq_of_add? hop]
  | sub s hl hm hr ihl ihm =>
    obtain ⟨a, b, ha, hb, hop⟩ := Expr.eval?_strict_eq_some (fun _ => rfl) hn
    rw [eval_sub? hr, ihl ha, ihm hb, Word.eq_of_sub? hop]
  | scaleLeft s hl hm hk hr ihl ihm =>
    obtain ⟨a, b, ha, hb, hop⟩ := Expr.eval?_strict_eq_some (fun _ => rfl) hn
    rw [eval_scale? hr, ← eval_of_constant? hk v, ihl ha, ihm hb, Word.eq_of_mul? hop]
  | scaleRight s hl hm hk hr ihl ihm =>
    obtain ⟨a, b, ha, hb, hop⟩ := Expr.eval?_strict_eq_some (fun _ => rfl) hn
    rw [eval_scale? hr, ← eval_of_constant? hk v, ihl ha, ihm hb, Word.eq_of_mul? hop, mul_comm]

/-- The number that is left of an expression's linear form once the constants are put in. -/
def folded? (env : ConstEnv) (e : Expr) : Option Int := do
  let l ← ofExpr? e
  let m ← l.fold? env.get?
  m.constant?

theorem eq_of_folded? (hn : e.eval? env = some n) {m : Int} (hm : folded? env e = some m) :
    n = m := by
  obtain ⟨l, hl, hm⟩ := Option.bind_eq_some_iff.mp hm
  obtain ⟨f, hf, hm⟩ := Option.bind_eq_some_iff.mp hm
  have hv := ConstEnv.agrees_getD env
  calc n = l.eval _ := ((reduction_of_ofExpr? e hl).eval_of_eval? hv hn).symm
    _ = f.eval _ := (eval_fold hf hv).symm
    _ = m := eval_of_constant? hm _

end Linear

namespace Expr

variable {env : ConstEnv} {n m : Int}

def readings (env : ConstEnv) (e : Expr) : List (Option Int) :=
  [e.int?, e.eval? env, Linear.folded? env e]

theorem eval_or_folded {e : Expr} (h : some n ∈ e.readings env) :
    e.eval? env = some n ∨ Linear.folded? env e = some n := by
  simp only [readings, List.mem_cons, List.not_mem_nil, or_false] at h
  obtain h | h | h := h
  · exact .inl (eval?_of_int? env e h.symm)
  · exact .inl h.symm
  · exact .inr h.symm

/-- The linear form of an expression means the same as the expression, and no two of the readings
differ. -/
theorem linear_and_readings_exact (e : Expr) :
    (∀ l, Linear.ofExpr? e = some l → ∀ v,
      e.ideal? v = some (l.constant + Linear.sumOf v l.terms.entries)) ∧
      ∀ env n m, some n ∈ e.readings env → some m ∈ e.readings env → n = m := by
  refine ⟨fun l hl v => (Linear.reduction_of_ofExpr? e hl).ideal? v, fun env n m hn hm => ?_⟩
  obtain hn | hn := eval_or_folded hn <;> obtain hm | hm := eval_or_folded hm
  · exact Option.some.inj (hn.symm.trans hm)
  · exact Linear.eq_of_folded? hn hm
  · exact (Linear.eq_of_folded? hm hn).symm
  · exact Option.some.inj (hn.symm.trans hm)

/-- `2 * (i + 3) - j` -/
def doubled : Expr :=
  .binary .sub (.binary .mul (.int 2 .none)
    (.binary .add (.ident 0 .none) (.int 3 .none) .none) .none) (.ident 1 .none) .none

/-- With `i = 1` and `j = 2` the number is 6 in whatever way it is read. -/
theorem readings_doubled :
    (∀ v, doubled.ideal? v = some (6 + Linear.sumOf v [(0, 2), (1, -1)])) ∧
      doubled.readings ((IndexMap.empty.insert 0 1).insert 1 2) = [none, some 6, some 6] ∧
      ∀ m, some m ∈ doubled.readings ((IndexMap.empty.insert 0 1).insert 1 2) → 6 = m := by
  obtain ⟨hlinear, heq⟩ := linear_and_readings_exact doubled
  have hall : doubled.readings ((IndexMap.empty.insert 0 1).insert 1 2) =
      [none, some 6, some 6] := by decide
  exact ⟨hlinear _ rfl, hall, fun m hm => heq _ 6 m (by simp [hall]) hm⟩

end Expr

end LoopLegality
