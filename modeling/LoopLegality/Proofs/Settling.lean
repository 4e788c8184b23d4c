import Mathlib.Logic.Function.Iterate

namespace LoopLegality

variable {τ ρ X : Type}

/-- After `n` unfoldings the answer to a call is `r`, whatever stands for the calls that nest
deeper: the recursion ends there. -/
def Settles (body : τ → τ) (call : τ → ρ) (n : Nat) (r : ρ) : Prop := ∀ f, call (body^[n] f) = r

/-- A recursion whose body looks only at smaller calls, and its unfoldings. What is looked at may
depend on the answers to earlier calls, so one side is known to be `Good`, as unfoldings are. -/
structure Measured (body : τ → τ) (unfolding : Nat → τ) (eval : τ → X → ρ) (Good : τ → Prop)
    (Inv : X → Prop) (size : X → Nat) : Prop where
  succ : ∀ n, unfolding (n + 1) = body (unfolding n)
  good : ∀ n, Good (unfolding n)
  congr : ∀ ⦃f g x⦄, Good g → Inv x → (∀ y, Inv y → size y < size x → eval f y = eval g y) →
    eval (body f) x = eval (body g) x

namespace Measured

variable {body : τ → τ} {unfolding : Nat → τ} {eval : τ → X → ρ} {Good : τ → Prop}
  {Inv : X → Prop} {size : X → Nat} {x : X} {n m : Nat}

/-- Such a recursion ends, within as many unfoldings as the measure of the call says. -/
theorem settles (h : Measured body unfolding eval Good Inv size) (hx : Inv x) (hn : size x < n) :
    Settles body (eval · x) n (eval (unfolding n) x) := by
  intro f
  induction n generalizing x with
  | zero => exact absurd hn (Nat.not_lt_zero _)
  | succ n ih =>
    rw [Function.iterate_succ_apply', h.succ]
    exact h.congr (h.good n) hx fun y hy hlt => ih hy (by omega)

theorem eval_of_le (h : Measured body unfolding eval Good Inv size) (hx : Inv x) (hn : size x < n)
    (hm : n ≤ m) : eval (unfolding m) x = eval (unfolding n) x := by
  obtain ⟨k, rfl⟩ := Nat.exists_eq_add_of_le hm
  have hiterate : unfolding (n + k) = body^[n] (unfolding k) := by
    clear hn hm
    induction n with
    | zero => rw [Nat.zero_add, Function.iterate_zero, id]
    | succ n ih => rw [Nat.succ_add, h.succ, ih, Function.iterate_succ_apply']
  rw [hiterate]
  exact h.settles hx hn _

theorem unfolds (h : Measured body unfolding eval Good Inv size) {f : τ} {budget : X → Nat}
    (hf : ∀ x, eval f x = eval (unfolding (budget x)) x) (hbudget : ∀ x, size x < budget x)
    (hx : Inv x) : eval (body f) x = eval f x := by
  obtain ⟨k, hk⟩ := Nat.exists_eq_add_of_lt (hbudget x)
  rw [hf, hk, h.succ]
  refine h.congr (h.good _) hx fun y hy hlt => ?_
  rw [hf]
  obtain hle | hle := Nat.le_total (budget y) (size x + k)
  · exact (h.eval_of_le hy (hbudget y) hle).symm
  · exact h.eval_of_le hy (by omega) hle

end Measured

end LoopLegality
