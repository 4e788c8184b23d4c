import LoopLegality.Constraint.Tighten
import Mathlib.Data.List.Forall2

namespace LoopLegality

section

variable {ε α β : Type}

theorem bind_eq_ok {x : Except ε α} {f : α → Except ε β} {b : β} :
    (x >>= f) = .ok b ↔ ∃ a, x = .ok a ∧ f a = .ok b := by
  cases x with
  | error e => simp [bind, Except.bind]
  | ok a => simp [bind, Except.bind]

theorem ok_bind (a : α) (f : α → Except ε β) : (Except.ok a >>= f) = f a := rfl

theorem error_bind (e : ε) (f : α → Except ε β) : (Except.error e >>= f) = .error e := rfl

theorem pure_eq_ok {a b : α} : (pure a : Except ε α) = .ok b ↔ a = b := by
  simp [pure, Except.pure]

theorem mapError_eq_ok {ε' : Type} {x : Except ε α} {f : ε → ε'} {a : α} :
    x.mapError f = .ok a ↔ x = .ok a := by
  cases x <;> simp [Except.mapError]

theorem toOption_eq_some {x : Except ε α} {a : α} : x.toOption = some a ↔ x = .ok a := by
  cases x <;> simp [Except.toOption]

theorem toOption_mapM (f : α → Except ε β) (as : List α) :
    (as.mapM f).toOption = as.mapM fun a => (f a).toOption := by
  induction as with
  | nil => rfl
  | cons a as ih =>
    rw [List.mapM_cons, List.mapM_cons, ← ih]
    cases f a with
    | error e => rfl
    | ok b => cases as.mapM f <;> rfl

theorem mapM_eq_some {f : α → Option β} {as : List α} {bs : List β} :
    as.mapM f = some bs ↔ List.Forall₂ (fun a b => f a = some b) as bs := by
  induction as generalizing bs with
  | nil => simp [eq_comm]
  | cons a as ih =>
    simp only [List.mapM_cons, Option.bind_eq_bind, Option.bind_eq_some_iff, Option.pure_def,
      Option.some.injEq, List.forall₂_cons_left_iff, ih]
    constructor
    · rintro ⟨b, hb, bs', hbs, rfl⟩
      exact ⟨b, bs', hb, hbs, rfl⟩
    · rintro ⟨b, bs', hb, hbs, rfl⟩
      exact ⟨b, hb, bs', hbs, rfl⟩

theorem mapM_eq_ok {f : α → Except ε β} {as : List α} {bs : List β} :
    as.mapM f = .ok bs ↔ List.Forall₂ (fun a b => f a = .ok b) as bs := by
  rw [← toOption_eq_some, toOption_mapM, mapM_eq_some]
  simp only [toOption_eq_some]

theorem mapM_map_eq {α' β' : Type} {f : α → Except ε β} {f' : α' → Except ε β'} {k : α → α'}
    {g : β → β'} (h : ∀ a, f' (k a) = (f a).map g) (as : List α) :
    (as.map k).mapM f' = (as.mapM f).map (List.map g) := by
  induction as with
  | nil => rfl
  | cons a as ih =>
    rw [List.map_cons, List.mapM_cons, List.mapM_cons, h, ih]
    cases f a with
    | error e => rfl
    | ok b => cases as.mapM f <;> rfl

section Forall₂

variable {R : α → β → Prop} {as : List α} {bs : List β}

theorem exists_of_mem_right (h : List.Forall₂ R as bs) {b : β} (hb : b ∈ bs) :
    ∃ a ∈ as, R a b := by
  induction h with
  | nil => cases hb
  | cons hab hs ih =>
    obtain rfl | hb := List.mem_cons.mp hb
    · exact ⟨_, List.mem_cons_self, hab⟩
    · obtain ⟨a, ha, hr⟩ := ih hb
      exact ⟨a, List.mem_cons_of_mem _ ha, hr⟩

theorem exists_of_mem_left (h : List.Forall₂ R as bs) {a : α} (ha : a ∈ as) : ∃ b ∈ bs, R a b :=
  exists_of_mem_right h.flip ha

theorem exists_forall₂ (h : ∀ a ∈ as, ∃ b, R a b) : ∃ bs, List.Forall₂ R as bs := by
  induction as with
  | nil => exact ⟨[], .nil⟩
  | cons a as ih =>
    rw [List.forall_mem_cons] at h
    obtain ⟨⟨b, hb⟩, hrest⟩ := h
    obtain ⟨bs, hbs⟩ := ih hrest
    exact ⟨b :: bs, .cons hb hbs⟩

theorem forall₂_map {g : α → β} (h : ∀ a ∈ as, R a (g a)) : List.Forall₂ R as (as.map g) :=
  List.forall₂_map_right_iff.mpr (List.forall₂_same.mpr h)

end Forall₂

theorem mapM_eq_ok_map {f : α → Except ε β} {g : α → β} (hg : ∀ a b, f a = .ok b → g a = b)
    {as : List α} {bs : List β} :
    as.mapM f = .ok bs ↔ (∀ a ∈ as, f a = .ok (g a)) ∧ as.map g = bs := by
  rw [mapM_eq_ok]
  constructor
  · intro h
    induction h with
    | nil => exact ⟨List.forall_mem_nil _, rfl⟩
    | cons hab _ ih =>
      obtain rfl := hg _ _ hab
      exact ⟨List.forall_mem_cons.mpr ⟨hab, ih.1⟩, by rw [List.map_cons, ih.2]⟩
  · rintro ⟨h, rfl⟩
    exact forall₂_map h

theorem findSomeM?_eq_ok_some {f : α → Except ε (Option β)} {as : List α} {b : β}
    (h : as.findSomeM? f = .ok (some b)) : ∃ a ∈ as, f a = .ok (some b) := by
  induction as with
  | nil => cases h
  | cons a as ih =>
    rw [List.findSomeM?_cons] at h
    obtain ⟨o, ho, h⟩ := bind_eq_ok.mp h
    cases o with
    | some b' =>
      obtain rfl : b' = b := by simpa [pure, Except.pure] using h
      exact ⟨a, List.mem_cons_self, ho⟩
    | none =>
      obtain ⟨a', ha, hb⟩ := ih h
      exact ⟨a', List.mem_cons_of_mem _ ha, hb⟩

theorem findSomeM?_eq_ok_none {f : α → Except ε (Option β)} {as : List α} :
    as.findSomeM? f = .ok none ↔ ∀ a ∈ as, f a = .ok none := by
  induction as with
  | nil => simp [pure, Except.pure]
  | cons a as ih =>
    rw [List.findSomeM?_cons, bind_eq_ok, List.forall_mem_cons, ← ih]
    constructor
    · rintro ⟨o, ho, h⟩
      cases o with
      | some b => cases h
      | none => exact ⟨ho, h⟩
    · rintro ⟨ho, h⟩
      exact ⟨none, ho, h⟩

theorem exists_findSomeM?_eq_ok {f : α → Except ε (Option β)} {as : List α}
    (h : ∀ a ∈ as, ∃ o, f a = .ok o) : ∃ o, as.findSomeM? f = .ok o := by
  induction as with
  | nil => exact ⟨none, rfl⟩
  | cons a as ih =>
    obtain ⟨o, ho⟩ := h a List.mem_cons_self
    rw [List.findSomeM?_cons, ho]
    cases o with
    | some b => exact ⟨some b, rfl⟩
    | none => exact ih fun a ha => h a (List.mem_cons_of_mem _ ha)

theorem allM_eq_ok_true {p : α → Except ε Bool} {as : List α} :
    as.allM p = .ok true ↔ ∀ a ∈ as, p a = .ok true := by
  induction as with
  | nil => simp [pure, Except.pure]
  | cons a as ih =>
    rw [List.allM_cons, bind_eq_ok, List.forall_mem_cons, ← ih]
    constructor
    · rintro ⟨b, hb, h⟩
      cases b with
      | false => cases h
      | true => exact ⟨hb, h⟩
    · rintro ⟨hb, h⟩
      exact ⟨true, hb, h⟩

theorem exists_allM_eq_ok {p : α → Except ε Bool} {as : List α} (h : ∀ a ∈ as, ∃ b, p a = .ok b) :
    ∃ b, as.allM p = .ok b := by
  induction as with
  | nil => exact ⟨true, rfl⟩
  | cons a as ih =>
    obtain ⟨b, hb⟩ := h a List.mem_cons_self
    rw [List.allM_cons, hb]
    cases b with
    | false => exact ⟨false, rfl⟩
    | true => exact ih fun a ha => h a (List.mem_cons_of_mem _ ha)

theorem exists_of_allM_eq_ok_false {p : α → Except ε Bool} {as : List α}
    (h : as.allM p = .ok false) : ∃ a ∈ as, p a = .ok false := by
  induction as with
  | nil => cases h
  | cons a as ih =>
    rw [List.allM_cons] at h
    obtain ⟨b, hb, h⟩ := bind_eq_ok.mp h
    cases b with
    | false => exact ⟨a, List.mem_cons_self, hb⟩
    | true =>
      obtain ⟨a', ha, hp⟩ := ih h
      exact ⟨a', List.mem_cons_of_mem _ ha, hp⟩

end

namespace Stop

variable {α : Type} {a : α}

@[simp] theorem checked_some (a : α) : checked (some a) = .ok a := rfl

@[simp] theorem checked_none : checked (none : Option α) = .error gaveUp := rfl

@[simp] theorem unchecked_ok (a : α) : unchecked (.ok a) = .ok a := rfl

@[simp] theorem checked_eq_ok {x : Option α} : checked x = .ok a ↔ x = some a := by
  cases x <;> simp [checked]

@[simp] theorem unchecked_eq_ok {x : Except Overflow α} : unchecked x = .ok a ↔ x = .ok a := by
  cases x <;> simp [unchecked]

end Stop

namespace Word

variable {n : Int} {g m : Nat}

theorem unchecked_eq_ok {n : Nat} : unchecked n = .ok m ↔ Fits n ∧ n = m := by
  by_cases h : Fits n <;> simp [unchecked, h]

theorem abs_eq_ok : abs n = .ok m ↔ Fits n.natAbs ∧ n.natAbs = m := unchecked_eq_ok

theorem gcd_eq_ok : gcd g n = .ok m ↔ Fits (Nat.gcd g n.natAbs) ∧ Nat.gcd g n.natAbs = m :=
  unchecked_eq_ok

/-- Only the least word has no absolute value among the words. -/
theorem fits_natAbs_iff (hn : Fits n) : Fits n.natAbs ↔ n ≠ -9223372036854775808 := by
  unfold Fits at *
  omega

end Word

end LoopLegality
