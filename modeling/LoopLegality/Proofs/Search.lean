import LoopLegality.Direction.Search
import LoopLegality.Proofs.Feasibility

namespace LoopLegality

/-- The first distance other than zero is positive. -/
def LexPositive : List Int → Prop
  | [] => False
  | n :: ns => 0 < n ∨ n = 0 ∧ LexPositive ns

def LexNonnegative : List Int → Prop
  | [] => True
  | n :: ns => 0 < n ∨ n = 0 ∧ LexNonnegative ns

theorem LexPositive.lexNonnegative {ns : List Int} (h : LexPositive ns) : LexNonnegative ns := by
  induction ns with
  | nil => exact h.elim
  | cons n ns ih => exact h.imp_right (And.imp_right ih)

theorem lexNonnegative_of_zero {ns : List Int} (h : ∀ n ∈ ns, n = 0) : LexNonnegative ns := by
  induction ns with
  | nil => trivial
  | cons n ns ih =>
    exact Or.inr ⟨h n List.mem_cons_self, ih fun m hm => h m (List.mem_cons_of_mem _ hm)⟩

theorem LexPositive.exists_ne_zero {ns : List Int} (h : LexPositive ns) : ∃ n ∈ ns, n ≠ 0 := by
  induction ns with
  | nil => exact h.elim
  | cons n ns ih =>
    obtain h | ⟨-, h⟩ := h
    · exact ⟨n, List.mem_cons_self, h.ne'⟩
    · obtain ⟨m, hm, hne⟩ := ih h
      exact ⟨m, List.mem_cons_of_mem _ hm, hne⟩

namespace Direction

/-- The distances from the source to the sink that an entry admits. -/
def Admits : Direction → Int → Prop
  | lt, n => 0 < n
  | le, n => 0 ≤ n
  | eq, n => n = 0
  | gt, n => n < 0
  | ge, n => n ≤ 0
  | any, _ => True

theorem admits_ofDistance (n : Int) : (ofDistance n).Admits n := by
  rw [ofDistance]
  split
  · assumption
  · split
    · assumption
    · show 0 < n
      omega

theorem forall₂_admits_ofDistance (ns : List Int) :
    List.Forall₂ Admits (ns.map ofDistance) ns := by
  induction ns with
  | nil => exact .nil
  | cons n ns ih => exact .cons (admits_ofDistance n) ih

theorem forall₂_admits_any (ns : List Int) :
    List.Forall₂ Admits (List.replicate ns.length any) ns := by
  induction ns with
  | nil => exact .nil
  | cons n ns ih => exact .cons trivial ih

theorem ofDistance_eq_eq {n : Int} : ofDistance n = eq ↔ n = 0 := by
  rw [ofDistance]
  split
  · simp; omega
  · split <;> simp_all

theorem ofDistance_eq_of_admits {m n : Int} (h : (ofDistance m).Admits n) :
    ofDistance m = ofDistance n := by
  unfold ofDistance at *
  split at h
  · have hn : n < 0 := h
    simp [*]
  · split at h
    · obtain rfl : n = 0 := h
      simp [*]
    · have hn : 0 < n := h
      simp [*, hn.le.not_gt, hn.ne']

theorem eq_of_admits {v : List Direction} {ns : List Int} (h : List.Forall₂ Admits v ns)
    (hv : ∀ d ∈ v, ∃ m, d = ofDistance m) : v = ns.map ofDistance := by
  induction h with
  | nil => rfl
  | @cons d n v ns hd _ ih =>
    rw [List.forall_mem_cons] at hv
    obtain ⟨⟨m, rfl⟩, hv⟩ := hv
    rw [List.map_cons, ← ih hv, ofDistance_eq_of_admits hd]

end Direction

namespace ConstraintSystem

variable {s : ConstraintSystem} {x : Nat → Int}

theorem pad_of_length {cs : List Int} (h : cs.length = s.vars) : s.pad cs = cs := by
  simp [pad, ← h]

theorem satisfies_addLe {cs : List Int} (h : cs.length = s.vars) (b : Int) :
    (s.addLe cs b).Satisfies x ↔ s.Satisfies x ∧ Row.dotFrom x 0 cs ≤ b := by
  have hp : s.pad cs = cs := pad_of_length h
  simp only [Satisfies, addLe, hp, List.forall_mem_append, List.forall_mem_singleton, Row.value]
  tauto

theorem satisfies_addEq {cs : List Int} (h : cs.length = s.vars) (b : Int) :
    (s.addEq cs b).Satisfies x ↔ s.Satisfies x ∧ Row.dotFrom x 0 cs = b := by
  have hp : s.pad cs = cs := pad_of_length h
  simp only [Satisfies, addEq, hp, List.forall_mem_append, List.forall_mem_singleton, Row.value]
  tauto

end ConstraintSystem

namespace DependenceProblem

variable {x : Nat → Int}

theorem dotFrom_difference (x : Nat → Int) {n a b : Nat} (ha : a < n) (hb : b < n) :
    Row.dotFrom x 0 (difference n a b) = x a - x b := by
  rw [difference, Row.dotFrom_range]
  simp only [sub_mul, ite_mul, one_mul, zero_mul, Finset.sum_sub_distrib, Finset.sum_ite_eq',
    Finset.mem_range, ha, hb, if_true]

@[simp] theorem vars_restrict (s : ConstraintSystem) (d : Direction) (l : Nat × Nat) :
    (restrict s d l).vars = s.vars := by
  cases d <;> rfl

/-- A restriction adds exactly that the entry admits the distance between the two columns. -/
theorem satisfies_restrict {s : ConstraintSystem} {l : Nat × Nat} (h₁ : l.1 < s.vars)
    (h₂ : l.2 < s.vars) (d : Direction) :
    (restrict s d l).Satisfies x ↔ s.Satisfies x ∧ d.Admits (x l.2 - x l.1) := by
  have hl (a b : Nat) : (difference s.vars a b).length = s.vars := by simp [difference]
  cases d with
  | lt | le =>
    rw [restrict, ConstraintSystem.satisfies_addLe (hl _ _), dotFrom_difference x h₁ h₂]
    simp only [Direction.Admits]
    constructor <;> rintro ⟨hs, hd⟩ <;> exact ⟨hs, by omega⟩
  | gt =>
    rw [restrict, ConstraintSystem.satisfies_addLe (hl _ _), dotFrom_difference x h₂ h₁]
    simp only [Direction.Admits]
    constructor <;> rintro ⟨hs, hd⟩ <;> exact ⟨hs, by omega⟩
  | ge =>
    rw [restrict, ConstraintSystem.satisfies_addLe (hl _ _), dotFrom_difference x h₂ h₁]
    exact Iff.rfl
  | eq =>
    rw [restrict, ConstraintSystem.satisfies_addEq (hl _ _), dotFrom_difference x h₁ h₂]
    simp only [Direction.Admits]
    constructor <;> rintro ⟨hs, hd⟩ <;> exact ⟨hs, by omega⟩
  | any => simp [restrict, Direction.Admits]

def distances (p : DependenceProblem) (x : Nat → Int) : List Int :=
  p.levels.map fun l => x l.2 - x l.1

def Levelled (p : DependenceProblem) : Prop :=
  ∀ l ∈ p.levels, l.1 < p.system.vars ∧ l.2 < p.system.vars

theorem satisfies_constrained {p : DependenceProblem} (hp : p.Levelled)
    (hx : p.system.Satisfies x) {ds : List Direction}
    (hd : List.Forall₂ Direction.Admits ds (p.distances x)) : (p.constrained ds).Satisfies x := by
  obtain ⟨s, levels⟩ := p
  rw [constrained]
  simp only [Levelled, distances] at *
  induction levels generalizing s ds with
  | nil => simpa using hx
  | cons l levels ih =>
    cases hd with
    | cons hdl hds =>
      obtain ⟨h₁, h₂⟩ := hp l List.mem_cons_self
      apply ih (restrict s _ l)
      · exact fun k hk => by simpa using hp k (List.mem_cons_of_mem _ hk)
      · exact (satisfies_restrict h₁ h₂ _).mpr ⟨hx, hdl⟩
      · exact hds

theorem mayHold_eq_ok {p : DependenceProblem} {chosen : List Direction} {n : Nat} {b : Bool} :
    p.mayHold chosen n = .ok b ↔
      ∃ f, p.test (chosen ++ List.replicate n .any) = .ok f ∧ f.mayHold = b := by
  simp only [mayHold, bind_eq_ok, pure_eq_ok]

theorem mayHold_ne_false {p : DependenceProblem} (hp : p.Levelled) (hx : p.system.Satisfies x)
    {ns ms : List Int} (hd : p.distances x = ns ++ ms) :
    p.mayHold (ns.map Direction.ofDistance) ms.length ≠ .ok false := by
  intro h
  obtain ⟨f, hf, hno⟩ := mayHold_eq_ok.mp h
  obtain rfl : f = .infeasible := by simpa [Feasibility.mayHold] using hno
  refine ConstraintSystem.feasibility_ne_infeasible (satisfies_constrained hp hx ?_) hf
  rw [hd]
  exact List.rel_append (Direction.forall₂_admits_ofDistance ns)
    (Direction.forall₂_admits_any ms)

theorem ofDistance_mem_candidates {ns : List Int} {m : Int} {ms : List Int}
    (h : LexNonnegative (ns ++ m :: ms)) :
    Direction.ofDistance m ∈ candidates (ns.map Direction.ofDistance) := by
  rw [candidates]
  split
  · next hz =>
    have hm : 0 ≤ m := by
      induction ns with
      | nil => rcases h with h | ⟨h, -⟩ <;> omega
      | cons n ns ih =>
        simp only [List.map_cons, List.all_cons, Bool.and_eq_true, beq_iff_eq,
          Direction.ofDistance_eq_eq] at hz
        obtain h | ⟨-, h⟩ := h
        · omega
        · exact ih h hz.2
    rw [Direction.ofDistance, if_neg (by omega)]
    split <;> simp
  · rw [Direction.ofDistance]
    split
    · simp
    · split <;> simp

theorem exists_ofDistance {chosen : List Direction} {d : Direction} (h : d ∈ candidates chosen) :
    ∃ m, d = Direction.ofDistance m := by
  have hd : d = .lt ∨ d = .eq ∨ d = .gt := by
    rw [candidates] at h
    split at h <;> simp at h <;> tauto
  obtain rfl | rfl | rfl := hd
  · exact ⟨1, rfl⟩
  · exact ⟨0, rfl⟩
  · exact ⟨-1, rfl⟩

/-- No test on the way from the chosen entries to the end of a vector rules it out. -/
def Survives (p : DependenceProblem) : List Direction → List Direction → Prop
  | chosen, [] => p.mayHold chosen 0 ≠ .ok false
  | chosen, d :: v => p.mayHold chosen (v.length + 1) ≠ .ok false ∧ p.Survives (chosen ++ [d]) v

theorem Survives.mayHold {p : DependenceProblem} {chosen v : List Direction}
    (h : p.Survives chosen v) : p.mayHold chosen v.length ≠ .ok false := by
  cases v with
  | nil => exact h
  | cons d v => exact h.1

theorem survives_of_satisfies {p : DependenceProblem} (hp : p.Levelled) (hx : p.system.Satisfies x)
    (ns ms : List Int) (hd : p.distances x = ns ++ ms) :
    p.Survives (ns.map Direction.ofDistance) (ms.map Direction.ofDistance) := by
  induction ms generalizing ns with
  | nil => exact mayHold_ne_false hp hx hd
  | cons m ms ih =>
    have hrest := ih (ns ++ [m]) (by simpa using hd)
    rw [List.map_append] at hrest
    refine ⟨?_, hrest⟩
    simpa using mayHold_ne_false hp hx hd

/-- What the search lists of the vectors that extend the chosen entries by `n`: none if their
test rules them out. -/
def Lists (p : DependenceProblem) (n : Nat) (chosen : List Direction)
    (vs : List (List Direction)) : Prop :=
  p.mayHold chosen n = .ok true ∧ p.refine n chosen = .ok vs ∨
    p.mayHold chosen n = .ok false ∧ vs = []

theorem lists_iff {p : DependenceProblem} {n : Nat} {chosen : List Direction}
    {vs : List (List Direction)} : p.Lists n chosen vs ↔
      (do if ← p.mayHold chosen n then p.refine n chosen else return []) = .ok vs := by
  rw [bind_eq_ok]
  constructor
  · rintro (⟨hb, h⟩ | ⟨hb, rfl⟩)
    · exact ⟨true, hb, h⟩
    · exact ⟨false, hb, rfl⟩
  · rintro ⟨_ | _, hb, h⟩
    · exact Or.inr ⟨hb, (pure_eq_ok.mp h).symm⟩
    · exact Or.inl ⟨hb, h⟩

theorem directions_eq_ok {p : DependenceProblem} {vs : List (List Direction)} :
    p.directions = .ok vs ↔ p.Lists p.depth [] vs := lists_iff.symm

theorem refine_succ_eq_ok {p : DependenceProblem} {n : Nat} {chosen : List Direction}
    {vs : List (List Direction)} : p.refine (n + 1) chosen = .ok vs ↔
      ∃ found, List.Forall₂ (fun d ws => p.Lists n (chosen ++ [d]) ws) (candidates chosen) found ∧
        found.flatten = vs := by
  simp only [refine, bind_eq_ok, pure_eq_ok, mapM_eq_ok, lists_iff]

/-- The search follows the signs of distances in order as far as they survive. -/
theorem mem_of_lists {p : DependenceProblem} (ns ms : List Int) {vs : List (List Direction)}
    (h : p.Lists ms.length (ns.map Direction.ofDistance) vs)
    (hs : p.Survives (ns.map Direction.ofDistance) (ms.map Direction.ofDistance))
    (hn : LexNonnegative (ns ++ ms)) : (ns ++ ms).map Direction.ofDistance ∈ vs := by
  obtain ⟨-, h⟩ | ⟨hno, -⟩ := h
  · induction ms generalizing ns vs with
    | nil =>
      cases h
      simp
    | cons m ms ih =>
      have hn' : LexNonnegative ((ns ++ [m]) ++ ms) := by simpa using hn
      have hmap : ns.map Direction.ofDistance ++ [Direction.ofDistance m] =
          (ns ++ [m]).map Direction.ofDistance := by simp
      -- the chosen entries grow by the sign of the next distance
      have hs' := hs.2
      rw [hmap] at hs'
      obtain ⟨found, hfound, rfl⟩ := refine_succ_eq_ok.mp h
      obtain ⟨ws, hws, hlists⟩ := exists_of_mem_left hfound (ofDistance_mem_candidates hn)
      refine List.mem_flatten.mpr ⟨ws, hws, ?_⟩
      rw [hmap] at hlists
      obtain ⟨-, hlists⟩ | ⟨hno, -⟩ := hlists
      · simpa using ih (ns ++ [m]) hs' hn' hlists
      · exact absurd hno (by simpa using hs'.mayHold)
  · exact absurd hno (by simpa using hs.mayHold)

theorem mem_directions {p : DependenceProblem} {vs : List (List Direction)}
    (h : p.directions = .ok vs) {ns : List Int} (hlen : ns.length = p.depth)
    (hs : p.Survives [] (ns.map Direction.ofDistance)) (hn : LexNonnegative ns) :
    ns.map Direction.ofDistance ∈ vs := by
  rw [directions_eq_ok, ← hlen] at h
  exact mem_of_lists [] ns h hs hn

/-- The search lists only vectors that survive, and each of their entries is the sign of one
distance. -/
theorem survives_of_lists {p : DependenceProblem} {n : Nat} {chosen w : List Direction}
    {vs : List (List Direction)} (h : p.Lists n chosen vs) (hw : w ∈ vs) :
    ∃ v, w = chosen ++ v ∧ v.length = n ∧ p.Survives chosen v ∧ p.mayHold w 0 = .ok true ∧
      ∀ d ∈ v, ∃ m, d = Direction.ofDistance m := by
  obtain ⟨hc, h⟩ | ⟨-, rfl⟩ := h
  · have hne : p.mayHold chosen n ≠ .ok false := by simp [hc]
    induction n generalizing chosen vs with
    | zero =>
      cases h
      obtain rfl := List.mem_singleton.mp hw
      exact ⟨[], (List.append_nil _).symm, rfl, hne, hc, List.forall_mem_nil _⟩
    | succ n ih =>
      obtain ⟨found, hfound, rfl⟩ := refine_succ_eq_ok.mp h
      obtain ⟨ws, hws, hw⟩ := List.mem_flatten.mp hw
      obtain ⟨d, hd, hlists⟩ := exists_of_mem_right hfound hws
      obtain ⟨hc', hlists⟩ | ⟨-, rfl⟩ := hlists
      · obtain ⟨v, rfl, hlen, hv, hlast, hsign⟩ := ih hw hc' hlists (by simp [hc'])
        refine ⟨d :: v, by simp, by simp [hlen], ⟨by rwa [hlen], hv⟩, hlast, ?_⟩
        exact List.forall_mem_cons.mpr ⟨exists_ofDistance hd, hsign⟩
      · cases hw
  · cases hw

theorem survives_of_mem_directions {p : DependenceProblem} {vs : List (List Direction)}
    (h : p.directions = .ok vs) {v : List Direction} {ns : List Int} (hv : v ∈ vs)
    (hadmits : List.Forall₂ Direction.Admits v ns) :
    p.Survives [] (ns.map Direction.ofDistance) := by
  obtain ⟨v, rfl, -, hs, -, hsign⟩ := survives_of_lists (directions_eq_ok.mp h) hv
  rwa [Direction.eq_of_admits hadmits hsign] at hs

end DependenceProblem

end LoopLegality
