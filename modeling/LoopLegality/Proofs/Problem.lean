import LoopLegality.Dependence.Problem
import LoopLegality.Proofs.Linear
import LoopLegality.Proofs.Search

namespace LoopLegality

namespace Terms

variable {x y : Nat → Int} {n : Nat}

def value (t : Terms) (x : Nat → Int) : Int := Linear.sumOf x t.entries

def Below (t : Terms) (n : Nat) : Prop := ∀ e ∈ t.entries, e.1 < n

theorem value_insert (t : Terms) (k : Nat) (c : Int) (x : Nat → Int) :
    Terms.value (t.insert k c) x = t.value x + (c - (t.get? k).getD 0) * x k :=
  Linear.sumOf_insertEntry x k c t.sorted

theorem value_empty (x : Nat → Int) : Terms.value .empty x = 0 := rfl

theorem value_unit (k : Nat) (x : Nat → Int) : (unit k).value x = x k := by
  simp [unit, value_insert, value_empty]

theorem value_congr {t : Terms} (ht : t.Below n) (h : ∀ v < n, x v = y v) :
    t.value x = t.value y :=
  Linear.sumOf_congr fun e he => h e.1 (ht e he)

theorem Below.mono {t : Terms} {m : Nat} (ht : t.Below n) (h : n ≤ m) : t.Below m :=
  fun e he => (ht e he).trans_le h

theorem below_empty (n : Nat) : Terms.Below .empty n := fun e he => by
  simp [IndexMap.empty] at he

theorem below_insert {t : Terms} (ht : t.Below n) {k : Nat} (hk : k < n) (c : Int) :
    Terms.Below (t.insert k c) n := by
  intro e he
  obtain rfl | he := IndexMap.mem_insertEntry he
  · exact hk
  · exact ht e he

theorem below_unit {k : Nat} (hk : k < n) : (unit k).Below n :=
  below_insert (below_empty n) hk 1

theorem get?_of_below {t : Terms} (ht : t.Below n) : t.get? n = none := by
  have hfind {es : List (Nat × Int)} (h : ∀ e ∈ es, e.1 < n) : IndexMap.find n es = none := by
    induction es with
    | nil => rfl
    | cons a es ih =>
      have ha : a.1 ≠ n := (h a List.mem_cons_self).ne
      rw [IndexMap.find, if_neg ha, ih fun e he => h e (List.mem_cons_of_mem _ he)]
  exact hfind ht

theorem subtract_spec {es : List (Nat × Int)} {a d : Terms}
    (h : es.foldlM (fun (d : Terms) (e : Nat × Int) => do
      return d.insert e.1 (← Word.sub? ((d.get? e.1).getD 0) e.2)) a = some d) :
    (∀ x, d.value x = a.value x - Linear.sumOf x es) ∧
      ∀ n, a.Below n → (∀ e ∈ es, e.1 < n) → d.Below n := by
  induction es generalizing a with
  | nil =>
    obtain rfl : a = d := by simpa using h
    exact ⟨fun x => by simp [Linear.sumOf], fun n ha _ => ha⟩
  | cons e es ih =>
    simp only [List.foldlM_cons, Option.bind_eq_bind, Option.bind_eq_some_iff, Option.pure_def,
      Option.some.injEq] at h
    obtain ⟨a', ⟨m, hm, rfl⟩, h⟩ := h
    obtain ⟨hv, hb⟩ := ih h
    refine ⟨fun x => ?_, fun n ha hes => ?_⟩
    · rw [hv, value_insert, Word.eq_of_sub? hm, Linear.sumOf]
      ring
    · exact hb n (below_insert ha (hes e List.mem_cons_self) m)
        fun e he => hes e (List.mem_cons_of_mem _ he)

theorem sumOf_filter_nonzero (x : Nat → Int) (es : List (Nat × Int)) :
    Linear.sumOf x (es.filter fun e => e.2 != 0) = Linear.sumOf x es := by
  induction es with
  | nil => rfl
  | cons e es ih =>
    by_cases he : e.2 = 0
    · simp [he, Linear.sumOf, ih]
    · simp [he, Linear.sumOf, ih]

theorem sub?_spec {a b c : Terms} (h : a.sub? b = some c) :
    (∀ x, c.value x = a.value x - b.value x) ∧ ∀ n, a.Below n → b.Below n → c.Below n := by
  simp only [sub?, Option.bind_eq_bind, Option.bind_eq_some_iff, Option.pure_def,
    Option.some.injEq] at h
  obtain ⟨d, hd, rfl⟩ := h
  obtain ⟨hv, hb⟩ := subtract_spec hd
  refine ⟨fun x => ?_, fun n ha hb' e he => hb n ha hb' e (List.mem_of_mem_filter he)⟩
  exact (sumOf_filter_nonzero x d.entries).trans (hv x)

theorem dotFrom_dense {t : Terms} (ht : t.Below n) (x : Nat → Int) :
    Row.dotFrom x 0 (t.dense n) = t.value x := by
  obtain ⟨es, hs⟩ := t
  rw [dense, Row.dotFrom_range]
  simp only [Below, value, IndexMap.get?] at *
  induction es with
  | nil => simp [IndexMap.find, Linear.sumOf]
  | cons e es ih =>
    obtain ⟨he, hs⟩ := List.pairwise_cons.mp hs
    have hen : e.1 < n := ht e List.mem_cons_self
    have hsplit (v : Nat) : (IndexMap.find v (e :: es)).getD 0 =
        (if v = e.1 then e.2 else 0) + (IndexMap.find v es).getD 0 := by
      by_cases hv : e.1 = v
      · have hn : IndexMap.find v es = none := IndexMap.find_eq_none (hv ▸ he)
        simp [IndexMap.find, hv, hn]
      · simp [IndexMap.find, hv, Ne.symm hv]
    simp only [hsplit, add_mul, ite_mul, zero_mul, Finset.sum_add_distrib, Finset.sum_ite_eq',
      Finset.mem_range, hen, if_true, Linear.sumOf]
    rw [ih hs fun e he => ht e (List.mem_cons_of_mem _ he)]

end Terms

def ConstEnv.Agrees (env : ConstEnv) (σ : Symbol → Int) : Prop :=
  ∀ y n, env.get? y = some n → σ y = n

/-- The index is a whole number of steps from its first value and not beyond its last, as far
as these have a linear form. -/
def CountedLoop.Admits (l : CountedLoop) (σ : Symbol → Int) : Prop :=
  (∀ lower, l.lowerLinear? = some lower → ∃ k : Nat, σ l.index = lower.eval σ + l.step * k) ∧
    ∀ upper, l.upperLinear? = some upper → σ l.index ≤ upper.eval σ

/-- The same, as far as a word holds the linear forms once the known variables are put in. -/
def CountedLoop.AdmitsIn (l : CountedLoop) (env : ConstEnv) (σ : Symbol → Int) : Prop :=
  (∀ lower, l.lowerLinear? = some lower → lower.fold? env.get? ≠ none →
      ∃ k : Nat, σ l.index = lower.eval σ + l.step * k) ∧
    ∀ upper, l.upperLinear? = some upper → upper.fold? env.get? ≠ none → σ l.index ≤ upper.eval σ

theorem CountedLoop.Admits.admitsIn {l : CountedLoop} {σ : Symbol → Int} (h : l.Admits σ)
    (env : ConstEnv) : l.AdmitsIn env σ :=
  ⟨fun lower hl _ => h.1 lower hl, fun upper hu _ => h.2 upper hu⟩

namespace Draft

variable {α β : Type} {d d' : Draft} {I J : IndexMap Nat} {σ τ : Symbol → Int}
variable {x x' : Nat → Int}

theorem bind_eq_some {m : Build α} {f : α → Build β} {b : β} :
    (m >>= f) d = some (b, d') ↔ ∃ a e, m d = some (a, e) ∧ f a e = some (b, d') := by
  change (m d).bind (fun p => f p.1 p.2) = _ ↔ _
  simp [Option.bind_eq_some_iff]

theorem lift_eq_some {o : Option α} {a : α} :
    (liftM o : Build α) d = some (a, d') ↔ o = some a ∧ d' = d := by
  change (o.bind fun a => some (a, d)) = _ ↔ _
  simp only [Option.bind_eq_some_iff, Option.some.injEq, Prod.mk.injEq]
  constructor
  · rintro ⟨b, hb, rfl, rfl⟩
    exact ⟨hb, rfl⟩
  · rintro ⟨ho, rfl⟩
    exact ⟨a, ho, rfl, rfl⟩

theorem lift_bind_eq_some {o : Option α} {f : α → Build β} {b : β} :
    (liftM o >>= f) d = some (b, d') ↔ ∃ a, o = some a ∧ f a d = some (b, d') := by
  rw [bind_eq_some]
  constructor
  · rintro ⟨a, e, hl, hf⟩
    obtain ⟨ho, rfl⟩ := lift_eq_some.mp hl
    exact ⟨a, ho, hf⟩
  · rintro ⟨a, ho, hf⟩
    exact ⟨a, d, lift_eq_some.mpr ⟨ho, rfl⟩, hf⟩

theorem pure_eq_some {a b : α} : (pure a : Build α) d = some (b, d') ↔ b = a ∧ d' = d := by
  change some (a, d) = some (b, d') ↔ _
  simp [eq_comm]

def columnOf (d : Draft) (I : IndexMap Nat) (y : Symbol) : Option Nat :=
  (I.get? y).or (d.shared.get? y)

/-- A point gives each unknown the value of the symbol it stands for. -/
def Reads (d : Draft) (I : IndexMap Nat) (x : Nat → Int) (σ : Symbol → Int) : Prop :=
  ∀ y v, d.columnOf I y = some v → x v = σ y

structure Grows (d d' : Draft) : Prop where
  unknowns : d.unknowns ≤ d'.unknowns
  shared : ∀ y v, d.shared.get? y = some v → d'.shared.get? y = some v

theorem Grows.refl (d : Draft) : d.Grows d := ⟨le_rfl, fun _ _ h => h⟩

theorem Grows.trans {d'' : Draft} (h : d.Grows d') (h' : d'.Grows d'') : d.Grows d'' :=
  ⟨h.unknowns.trans h'.unknowns, fun y v hv => h'.shared y v (h.shared y v hv)⟩

theorem Grows.columnOf (h : d.Grows d') {y : Symbol} {v : Nat} (hv : d.columnOf I y = some v) :
    d'.columnOf I y = some v := by
  unfold Draft.columnOf at *
  cases hI : I.get? y with
  | none =>
    rw [hI, Option.none_or] at hv
    rw [Option.none_or, h.shared y v hv]
  | some u =>
    rw [hI, Option.some_or] at hv
    rw [Option.some_or, hv]

theorem unknownOf_cases {y : Symbol} {v : Nat} (h : unknownOf I y d = some (v, d')) :
    (d' = d ∧ d.columnOf I y = some v) ∨
      (d.columnOf I y = none ∧ v = d.unknowns ∧
        d' = { d with unknowns := d.unknowns + 1, shared := d.shared.insert y d.unknowns }) := by
  rw [unknownOf] at h
  rw [columnOf]
  cases hI : I.get? y with
  | some u =>
    rw [hI] at h
    obtain ⟨rfl, rfl⟩ := pure_eq_some.mp h
    exact Or.inl ⟨rfl, rfl⟩
  | none =>
    rw [hI] at h
    obtain ⟨_, _, he, hu⟩ := bind_eq_some.mp h
    cases he
    cases hs : d.shared.get? y with
    | some u =>
      simp only [hs] at hu
      obtain ⟨rfl, rfl⟩ := pure_eq_some.mp hu
      exact Or.inl ⟨rfl, rfl⟩
    | none =>
      simp only [hs] at hu
      cases hu
      exact Or.inr ⟨rfl, rfl, rfl⟩

theorem unknownOf_spec {y : Symbol} {v : Nat} (h : unknownOf I y d = some (v, d')) :
    d.Grows d' ∧ d'.columnOf I y = some v := by
  obtain ⟨rfl, hv⟩ | ⟨hn, rfl, rfl⟩ := unknownOf_cases h
  · exact ⟨Grows.refl d', hv⟩
  · unfold columnOf at *
    rw [Option.or_eq_none_iff] at hn
    refine ⟨⟨Nat.le_succ _, fun z v hz => ?_⟩, ?_⟩
    · have hne : y ≠ z := fun he => by simp [← he, hn.2] at hz
      rw [IndexMap.get?_insert, if_neg hne, hz]
    · rw [hn.1, Option.none_or, IndexMap.get?_insert, if_pos rfl]

/-- Terms over unknowns mean the terms over symbols, at every point that reads the symbols. -/
theorem termsOf_spec {ts : List (Symbol × Int)} {terms terms' : Terms}
    (h : termsOf I ts terms d = some (terms', d')) :
    d.Grows d' ∧ ∀ x σ, d'.Reads I x σ → terms'.value x = terms.value x + Linear.sumOf σ ts := by
  induction ts generalizing terms d with
  | nil =>
    obtain ⟨rfl, rfl⟩ := pure_eq_some.mp h
    exact ⟨Grows.refl d', fun x σ _ => by simp [Linear.sumOf]⟩
  | cons t ts ih =>
    obtain ⟨v, e, hv, hrest⟩ := bind_eq_some.mp h
    obtain ⟨m, hm, htail⟩ := lift_bind_eq_some.mp hrest
    obtain ⟨hg, hc⟩ := unknownOf_spec hv
    obtain ⟨hg', ht⟩ := ih htail
    refine ⟨hg.trans hg', fun x σ hr => ?_⟩
    have hx : x v = σ t.1 := hr t.1 v (hg'.columnOf hc)
    have hm' : (terms.get? v).getD 0 + t.2 = m := (Word.fit?_eq_some.mp hm).2
    rw [ht x σ hr, Terms.value_insert, ← hm', hx, Linear.sumOf]
    ring

theorem translate_spec {l : Linear} {terms : Terms} {c : Int}
    (h : translate I l d = some ((terms, c), d')) :
    d.Grows d' ∧ ∀ x σ, d'.Reads I x σ → terms.value x + c = l.eval σ := by
  obtain ⟨t, e, ht, hp⟩ := bind_eq_some.mp h
  obtain ⟨hpair, rfl⟩ := pure_eq_some.mp hp
  obtain ⟨rfl, rfl⟩ := Prod.mk.inj hpair
  obtain ⟨hg, hv⟩ := termsOf_spec ht
  refine ⟨hg, fun x σ hr => ?_⟩
  rw [hv x σ hr, Terms.value_empty, Linear.eval]
  ring

/-- A point satisfies what a draft says so far, with the source at one valuation and the sink
at another. All that the draft mentions are unknowns it has made. -/
structure Models (I J : IndexMap Nat) (σ τ : Symbol → Int) (d : Draft) (x : Nat → Int) :
    Prop where
  sourceBelow : ∀ y v, I.get? y = some v → v < d.unknowns
  sinkBelow : ∀ y v, J.get? y = some v → v < d.unknowns
  sharedBelow : ∀ y v, d.shared.get? y = some v → v < d.unknowns
  rowsBelow : ∀ t ∈ d.le ++ d.eq, t.1.Below d.unknowns
  source : d.Reads I x σ
  sink : d.Reads J x τ
  le : ∀ t ∈ d.le, t.1.value x + t.2 ≤ 0
  eq : ∀ t ∈ d.eq, t.1.value x + t.2 = 0

theorem Models.symm (h : Models I J σ τ d x) : Models J I τ σ d x :=
  ⟨h.sinkBelow, h.sourceBelow, h.sharedBelow, h.rowsBelow, h.sink, h.source, h.le, h.eq⟩

theorem Models.columnBelow (h : Models I J σ τ d x) {y : Symbol} {v : Nat}
    (hv : d.columnOf I y = some v) : v < d.unknowns := by
  obtain hv | ⟨-, hv⟩ := Option.or_eq_some_iff.mp hv
  · exact h.sourceBelow y v hv
  · exact h.sharedBelow y v hv

/-- The values of the unknowns made so far stay. -/
def Extends (d : Draft) (x : Nat → Int) (d' : Draft) (x' : Nat → Int) : Prop :=
  d.unknowns ≤ d'.unknowns ∧ ∀ v < d.unknowns, x' v = x v

theorem Extends.refl (d : Draft) (x : Nat → Int) : Extends d x d x := ⟨le_rfl, fun _ _ => rfl⟩

theorem Extends.trans {d'' : Draft} {x'' : Nat → Int} (h : Extends d x d' x')
    (h' : Extends d' x' d'' x'') : Extends d x d'' x'' :=
  ⟨h.1.trans h'.1, fun v hv => (h'.2 v (hv.trans_le h.1)).trans (h.2 v hv)⟩

theorem extends_update (d : Draft) (x : Nat → Int) (n : Int) {d' : Draft}
    (h : d.unknowns ≤ d'.unknowns) :
    Extends d x d' (Function.update x d.unknowns n) :=
  ⟨h, fun _ hv => Function.update_of_ne hv.ne n x⟩

theorem Models.rows_update (h : Models I J σ τ d x) (n : Int) :
    (∀ t ∈ d.le, t.1.value (Function.update x d.unknowns n) + t.2 ≤ 0) ∧
      ∀ t ∈ d.eq, t.1.value (Function.update x d.unknowns n) + t.2 = 0 := by
  have hv : ∀ t ∈ d.le ++ d.eq, t.1.value (Function.update x d.unknowns n) = t.1.value x :=
    fun t ht => Terms.value_congr (h.rowsBelow t ht) fun v hv => Function.update_of_ne hv.ne n x
  exact ⟨fun t ht => by simpa only [hv t (List.mem_append_left _ ht)] using h.le t ht,
    fun t ht => by simpa only [hv t (List.mem_append_right _ ht)] using h.eq t ht⟩

theorem Reads.update (h : d.Reads I x σ) (hb : ∀ y v, d.columnOf I y = some v → v < d.unknowns)
    (n : Int) : d.Reads I (Function.update x d.unknowns n) σ := by
  intro y v hv
  rw [Function.update_of_ne (hb y v hv).ne]
  exact h y v hv

theorem Models.fresh (h : Models I J σ τ d x) (n : Int) :
    Models I J σ τ { d with unknowns := d.unknowns + 1 } (Function.update x d.unknowns n) where
  sourceBelow y v hv := Nat.lt_succ_of_lt (h.sourceBelow y v hv)
  sinkBelow y v hv := Nat.lt_succ_of_lt (h.sinkBelow y v hv)
  sharedBelow y v hv := Nat.lt_succ_of_lt (h.sharedBelow y v hv)
  rowsBelow t ht := (h.rowsBelow t ht).mono (Nat.le_succ _)
  source := h.source.update (fun _ _ hv => h.columnBelow hv) n
  sink := h.sink.update (fun _ _ hv => h.symm.columnBelow hv) n
  le := (h.rows_update n).1
  eq := (h.rows_update n).2

theorem Reads.share (h : d.Reads I x σ) (hb : ∀ y v, d.columnOf I y = some v → v < d.unknowns)
    {y : Symbol} {n : Int} (hy : I.get? y = none → n = σ y) :
    Reads { d with unknowns := d.unknowns + 1, shared := d.shared.insert y d.unknowns } I
      (Function.update x d.unknowns n) σ := by
  intro z v hv
  rw [columnOf] at hv
  cases hI : I.get? z with
  | some u =>
    obtain rfl : u = v := by simpa [hI] using hv
    exact h.update hb n z u (by simp [columnOf, hI])
  | none =>
    rw [hI, Option.none_or, IndexMap.get?_insert] at hv
    split at hv
    · next hyz =>
      cases hv
      rw [Function.update_self, hy (hyz ▸ hI), hyz]
    · exact h.update hb n z v (by simp [columnOf, hI, hv])

/-- A symbol may get an unknown with its value, which the other side sees unless the symbol is
an index there. -/
theorem Models.share (h : Models I J σ τ d x) {y : Symbol} (hy : J.get? y = none → σ y = τ y) :
    Models I J σ τ { d with unknowns := d.unknowns + 1, shared := d.shared.insert y d.unknowns }
      (Function.update x d.unknowns (σ y)) where
  sourceBelow z v hv := Nat.lt_succ_of_lt (h.sourceBelow z v hv)
  sinkBelow z v hv := Nat.lt_succ_of_lt (h.sinkBelow z v hv)
  sharedBelow z v hv := by
    rw [IndexMap.get?_insert] at hv
    split at hv
    · cases hv
      exact Nat.lt_succ_self _
    · exact Nat.lt_succ_of_lt (h.sharedBelow z v hv)
  rowsBelow t ht := (h.rowsBelow t ht).mono (Nat.le_succ _)
  source := h.source.share (fun _ _ hv => h.columnBelow hv) fun _ => rfl
  sink := h.sink.share (fun _ _ hv => h.symm.columnBelow hv) hy
  le := (h.rows_update _).1
  eq := (h.rows_update _).2

theorem Models.addLe (h : Models I J σ τ d x) {t : Terms} {c : Int} (hb : t.Below d.unknowns)
    (ht : t.value x + c ≤ 0) : Models I J σ τ { d with le := d.le ++ [(t, c)] } x where
  sourceBelow := h.sourceBelow
  sinkBelow := h.sinkBelow
  sharedBelow := h.sharedBelow
  rowsBelow := by
    have hr := h.rowsBelow
    simp only [List.forall_mem_append, List.forall_mem_singleton] at hr ⊢
    exact ⟨⟨hr.1, hb⟩, hr.2⟩
  source := h.source
  sink := h.sink
  le := by
    simp only [List.forall_mem_append, List.forall_mem_singleton]
    exact ⟨h.le, ht⟩
  eq := h.eq

theorem Models.addEq (h : Models I J σ τ d x) {t : Terms} {c : Int} (hb : t.Below d.unknowns)
    (ht : t.value x + c = 0) : Models I J σ τ { d with eq := d.eq ++ [(t, c)] } x where
  sourceBelow := h.sourceBelow
  sinkBelow := h.sinkBelow
  sharedBelow := h.sharedBelow
  rowsBelow := by
    have hr := h.rowsBelow
    simp only [List.forall_mem_append, List.forall_mem_singleton] at hr ⊢
    exact ⟨hr.1, hr.2, hb⟩
  source := h.source
  sink := h.sink
  le := h.le
  eq := by
    simp only [List.forall_mem_append, List.forall_mem_singleton]
    exact ⟨h.eq, ht⟩

def AgreeOutside (I J : IndexMap Nat) (σ τ : Symbol → Int) : Prop :=
  ∀ y, I.get? y = none → J.get? y = none → σ y = τ y

theorem AgreeOutside.symm (h : AgreeOutside I J σ τ) : AgreeOutside J I τ σ :=
  fun y hJ hI => (h y hI hJ).symm

theorem unknownOf_keeps {y : Symbol} {v : Nat} (h : unknownOf I y d = some (v, d'))
    (ha : AgreeOutside I J σ τ) (hm : Models I J σ τ d x) :
    ∃ x', Extends d x d' x' ∧ Models I J σ τ d' x' := by
  obtain ⟨rfl, -⟩ | ⟨hn, -, rfl⟩ := unknownOf_cases h
  · exact ⟨x, Extends.refl d' x, hm⟩
  · have hI : I.get? y = none := (Option.or_eq_none_iff.mp hn).1
    exact ⟨_, extends_update d x (σ y) (Nat.le_succ _), hm.share fun hJ => ha y hI hJ⟩

theorem termsOf_keeps {ts : List (Symbol × Int)} {terms terms' : Terms}
    (h : termsOf I ts terms d = some (terms', d')) (ha : AgreeOutside I J σ τ)
    (hm : Models I J σ τ d x) (hb : terms.Below d.unknowns) :
    ∃ x', Extends d x d' x' ∧ Models I J σ τ d' x' ∧ terms'.Below d'.unknowns := by
  induction ts generalizing terms d x with
  | nil =>
    obtain ⟨rfl, rfl⟩ := pure_eq_some.mp h
    exact ⟨x, Extends.refl d' x, hm, hb⟩
  | cons t ts ih =>
    obtain ⟨v, e, hv, hrest⟩ := bind_eq_some.mp h
    obtain ⟨m, -, htail⟩ := lift_bind_eq_some.mp hrest
    obtain ⟨x₁, hx₁, hm₁⟩ := unknownOf_keeps hv ha hm
    have hv' := hm₁.columnBelow (unknownOf_spec hv).2
    obtain ⟨x₂, hx₂, hm₂, hb₂⟩ := ih htail hm₁ (Terms.below_insert (hb.mono hx₁.1) hv' m)
    exact ⟨x₂, hx₁.trans hx₂, hm₂, hb₂⟩

theorem translate_keeps {l : Linear} {terms : Terms} {c : Int}
    (h : translate I l d = some ((terms, c), d')) (ha : AgreeOutside I J σ τ)
    (hm : Models I J σ τ d x) :
    ∃ x', Extends d x d' x' ∧ Models I J σ τ d' x' ∧ terms.Below d'.unknowns ∧
      terms.value x' + c = l.eval σ := by
  have hspec := (translate_spec h).2
  obtain ⟨t, e, ht, hp⟩ := bind_eq_some.mp h
  obtain ⟨hpair, rfl⟩ := pure_eq_some.mp hp
  obtain ⟨rfl, rfl⟩ := Prod.mk.inj hpair
  obtain ⟨x', hx', hm', hb⟩ := termsOf_keeps ht ha hm (Terms.below_empty _)
  exact ⟨x', hx', hm', hb, hspec x' σ hm'.source⟩

/-- A building step after which the point still satisfies the draft, on new unknowns at values
that the step asks for. -/
def Keeps (I J : IndexMap Nat) (σ τ : Symbol → Int) (m : Build Unit) : Prop :=
  ∀ d x d', Models I J σ τ d x → m d = some ((), d') →
    ∃ x', Extends d x d' x' ∧ Models I J σ τ d' x'

theorem Keeps.pure : Keeps I J σ τ (pure ()) := by
  intro d x d' hm h
  obtain ⟨-, rfl⟩ := pure_eq_some.mp h
  exact ⟨x, Extends.refl d' x, hm⟩

theorem Keeps.seq {m k : Build Unit} (hm : Keeps I J σ τ m) (hk : Keeps I J σ τ k) :
    Keeps I J σ τ (m >>= fun _ => k) := by
  intro d x d' hx h
  obtain ⟨⟨⟩, e, h₁, h₂⟩ := bind_eq_some.mp h
  obtain ⟨x₁, he₁, hx₁⟩ := hm d x e hx h₁
  obtain ⟨x₂, he₂, hx₂⟩ := hk e x₁ d' hx₁ h₂
  exact ⟨x₂, he₁.trans he₂, hx₂⟩

theorem Keeps.lift {o : Option α} {f : α → Build Unit} (h : ∀ a, o = some a → Keeps I J σ τ (f a)) :
    Keeps I J σ τ (liftM o >>= f) := by
  intro d x d' hx hb
  obtain ⟨a, ha, hf⟩ := lift_bind_eq_some.mp hb
  exact h a ha d x d' hx hf

theorem Keeps.symm {m : Build Unit} (h : Keeps I J σ τ m) : Keeps J I τ σ m := by
  intro d x d' hx hm
  obtain ⟨x', he, hx'⟩ := h d x d' hx.symm hm
  exact ⟨x', he, hx'.symm⟩

theorem Models.stride {l : CountedLoop} {terms row : Terms} {u k : Nat} {c n m : Int}
    (hm : Models I J σ τ d x) (hu : u < d.unknowns) (hb : terms.Below d.unknowns)
    (hrow : (Terms.unit u).sub? terms = some row) (hn : Word.neg? l.step = some n)
    (hc : Word.neg? c = some m) (hk : x u = terms.value x + c + l.step * k) :
    Models I J σ τ
      { d with
        unknowns := d.unknowns + 1
        le := d.le ++ [(IndexMap.empty.insert d.unknowns (-1), 0)]
        eq := d.eq ++ [(row.insert d.unknowns n, m)] }
      (Function.update x d.unknowns k) := by
  obtain ⟨hrv, hrb⟩ := Terms.sub?_spec hrow
  have hrb' := hrb d.unknowns (Terms.below_unit hu) hb
  have hx (t : Terms) (ht : t.Below d.unknowns) :
      t.value (Function.update x d.unknowns k) = t.value x :=
    Terms.value_congr ht fun v hv => Function.update_of_ne hv.ne _ x
  have heq := (hm.fresh k).addEq
    (Terms.below_insert (hrb'.mono (Nat.le_succ _)) (Nat.lt_succ_self _) n)
    (by
      show Terms.value (row.insert d.unknowns n) _ + m = 0
      rw [Terms.value_insert, Terms.get?_of_below hrb', hx row hrb', hrv, Terms.value_unit,
        Function.update_self, Word.eq_of_neg? hn, Word.eq_of_neg? hc, hk, Option.getD_none]
      ring)
  exact heq.addLe (Terms.below_insert (Terms.below_empty _) (Nat.lt_succ_self _) _)
    (by simp [Terms.value_insert, Terms.value_empty])

theorem addLower_keeps {l : CountedLoop} {lower : Linear} {u k : Nat}
    (hu : I.get? l.index = some u) (ha : AgreeOutside I J σ τ)
    (hk : σ l.index = lower.eval σ + l.step * k) : Keeps I J σ τ (addLower l u I lower) := by
  intro d x d' hm h
  obtain ⟨⟨terms, c⟩, d₁, ht, hrest⟩ := bind_eq_some.mp h
  obtain ⟨x₁, he₁, hm₁, hb, hv⟩ := translate_keeps ht ha hm
  have hub : u < d₁.unknowns := hm₁.sourceBelow _ _ hu
  have hux : x₁ u = terms.value x₁ + c + l.step * k := by
    rw [hm₁.source l.index u (by simp [columnOf, hu]), hk, hv]
  obtain ⟨row, hrow, hrest⟩ := lift_bind_eq_some.mp hrest
  obtain ⟨hrv, hrb⟩ := Terms.sub?_spec hrow
  have hrow₀ : row.value x₁ + c ≤ 0 := by
    have hpos : 0 ≤ l.step * (k : Int) := mul_nonneg l.step_pos.le (Int.natCast_nonneg k)
    rw [hrv, Terms.value_unit, hux]
    linarith
  obtain ⟨_, d₂, hle, hrest⟩ := bind_eq_some.mp hrest
  cases hle
  have hm₂ := hm₁.addLe (hrb _ hb (Terms.below_unit hub)) hrow₀
  split at hrest
  · obtain ⟨v, d₃, hfresh, hrest⟩ := bind_eq_some.mp hrest
    cases hfresh
    obtain ⟨row', hrow', hrest⟩ := lift_bind_eq_some.mp hrest
    obtain ⟨n, hn, hrest⟩ := lift_bind_eq_some.mp hrest
    obtain ⟨m, hc, hrest⟩ := lift_bind_eq_some.mp hrest
    cases hrest
    exact ⟨_, he₁.trans (extends_update _ x₁ k (Nat.le_succ _)),
      hm₂.stride hub hb hrow' hn hc hux⟩
  · obtain ⟨-, rfl⟩ := pure_eq_some.mp hrest
    exact ⟨x₁, he₁, hm₂⟩

theorem addUpper_keeps {y : Symbol} {upper : Linear} {u : Nat} (hu : I.get? y = some u)
    (ha : AgreeOutside I J σ τ) (hle : σ y ≤ upper.eval σ) :
    Keeps I J σ τ (addUpper u I upper) := by
  intro d x d' hm h
  obtain ⟨⟨terms, c⟩, d₁, ht, hrest⟩ := bind_eq_some.mp h
  obtain ⟨x₁, he₁, hm₁, hb, hv⟩ := translate_keeps ht ha hm
  have hub : u < d₁.unknowns := hm₁.sourceBelow _ _ hu
  have hux : x₁ u = σ y := hm₁.source y u (by simp [columnOf, hu])
  obtain ⟨row, hrow, hrest⟩ := lift_bind_eq_some.mp hrest
  obtain ⟨m, hc, hrest⟩ := lift_bind_eq_some.mp hrest
  cases hrest
  obtain ⟨hrv, hrb⟩ := Terms.sub?_spec hrow
  refine ⟨x₁, he₁, hm₁.addLe (hrb _ (Terms.below_unit hub) hb) ?_⟩
  rw [hrv, Terms.value_unit, hux, Word.eq_of_neg? hc]
  linarith

theorem eval_folded {env : ConstEnv} {l : Option Linear} {m : Linear}
    (h : folded? env l = some m) (hσ : env.Agrees σ) :
    ∃ l', l = some l' ∧ l'.fold? env.get? = some m ∧ m.eval σ = l'.eval σ := by
  simp only [folded?, Option.bind_eq_bind, Option.bind_eq_some_iff] at h
  obtain ⟨l', rfl, hf⟩ := h
  exact ⟨l', rfl, hf, Linear.eval_fold hf hσ⟩

theorem addBounds_keeps {l : CountedLoop} {env : ConstEnv} (ha : AgreeOutside I J σ τ)
    (hσ : env.Agrees σ) (hl : l.AdmitsIn env σ) : Keeps I J σ τ (addBounds l I env) := by
  refine Keeps.lift fun u hu => ?_
  have hlower (lower : Linear) (hf : folded? env l.lowerLinear? = some lower) :
      Keeps I J σ τ (addLower l u I lower) := by
    obtain ⟨lower', hl', hfold, he⟩ := eval_folded hf hσ
    obtain ⟨k, hk⟩ := hl.1 lower' hl' (hfold ▸ nofun)
    exact addLower_keeps hu ha (he ▸ hk)
  have hupper (upper : Linear) (hf : folded? env l.upperLinear? = some upper) :
      Keeps I J σ τ (addUpper u I upper) := by
    obtain ⟨upper', hu', hfold, he⟩ := eval_folded hf hσ
    exact addUpper_keeps hu ha (he ▸ hl.2 upper' hu' (hfold ▸ nofun))
  cases hlo : folded? env l.lowerLinear? <;> cases hup : folded? env l.upperLinear?
  · exact Keeps.pure
  · exact hupper _ hup
  · exact Keeps.seq (hlower _ hlo) Keeps.pure
  · exact Keeps.seq (hlower _ hlo) (hupper _ hup)

theorem addAllBounds_keeps {loops : IndexMap CountedLoop} {env : ConstEnv} {ids : List LoopId}
    (ha : AgreeOutside I J σ τ) (hσ : env.Agrees σ)
    (hl : ∀ id ∈ ids, ∀ l, loops.get? id = some l → l.AdmitsIn env σ) :
    Keeps I J σ τ (addAllBounds loops I env ids) := by
  induction ids with
  | nil => exact Keeps.pure
  | cons id ids ih =>
    refine Keeps.lift fun l hget => Keeps.seq ?_ ?_
    · exact addBounds_keeps ha hσ (hl id List.mem_cons_self l hget)
    · exact ih fun id hid => hl id (List.mem_cons_of_mem _ hid)

theorem addMeeting_keeps {env : ConstEnv} {a b : Linear} (ha : AgreeOutside I J σ τ)
    (hσ : env.Agrees σ) (hτ : env.Agrees τ) (he : a.eval σ = b.eval τ) :
    Keeps I J σ τ (addMeeting env I J a b) := by
  refine Keeps.lift fun a' hfa => ?_
  intro d x d' hm h
  obtain ⟨⟨l, lc⟩, d₁, hl, hrest⟩ := bind_eq_some.mp h
  obtain ⟨x₁, he₁, hm₁, hb₁, hv₁⟩ := translate_keeps hl ha hm
  obtain ⟨b', hfb, hrest⟩ := lift_bind_eq_some.mp hrest
  obtain ⟨⟨r, rc⟩, d₂, hr, hrest⟩ := bind_eq_some.mp hrest
  obtain ⟨x₂, he₂, hm₂, hb₂, hv₂⟩ := translate_keeps hr ha.symm hm₁.symm
  obtain ⟨row, hrow, hrest⟩ := lift_bind_eq_some.mp hrest
  obtain ⟨m, hc, hrest⟩ := lift_bind_eq_some.mp hrest
  cases hrest
  obtain ⟨hrv, hrb⟩ := Terms.sub?_spec hrow
  have hlx : l.value x₂ = l.value x₁ := Terms.value_congr hb₁ he₂.2
  refine ⟨x₂, he₁.trans he₂, hm₂.symm.addEq (hrb _ (hb₁.mono he₂.1) hb₂) ?_⟩
  have ha' := Linear.eval_fold hfa hσ
  have hb' := Linear.eval_fold hfb hτ
  rw [hrv, hlx, Word.eq_of_sub? hc]
  linarith

theorem addMeetings_keeps {env : ConstEnv} {pairs : List (Linear × Linear)}
    (ha : AgreeOutside I J σ τ) (hσ : env.Agrees σ) (hτ : env.Agrees τ)
    (he : ∀ p ∈ pairs, p.1.eval σ = p.2.eval τ) :
    Keeps I J σ τ (addMeetings env I J pairs) := by
  induction pairs with
  | nil => exact Keeps.pure
  | cons p pairs ih =>
    exact Keeps.seq (addMeeting_keeps ha hσ hτ (he p List.mem_cons_self))
      (ih fun q hq => he q (List.mem_cons_of_mem _ hq))

def Indexes (d : Draft) (x : Nat → Int) (σ : Symbol → Int) (m : IndexMap Nat) : Prop :=
  ∀ y v, m.get? y = some v → v < d.unknowns ∧ x v = σ y

theorem Indexes.mono {m : IndexMap Nat} (h : Indexes d x σ m) (he : Extends d x d' x') :
    Indexes d' x' σ m := by
  intro y v hv
  obtain ⟨hb, hx⟩ := h y v hv
  exact ⟨hb.trans_le he.1, (he.2 v hb).trans hx⟩

theorem Indexes.insert {m : IndexMap Nat} (h : Indexes d x σ m) {y : Symbol} {v : Nat}
    (hv : v < d.unknowns) (hx : x v = σ y) : Indexes d x σ (m.insert y v) := by
  intro z u hu
  rw [IndexMap.get?_insert] at hu
  split at hu
  · next hyz =>
    cases hu
    exact ⟨hv, hyz ▸ hx⟩
  · exact h z u hu

theorem models_of_indexes (hs : d.shared = .empty) (hle : d.le = []) (heq : d.eq = [])
    (hI : Indexes d x σ I) (hJ : Indexes d x τ J) : Models I J σ τ d x := by
  have hcolumn (K : IndexMap Nat) (y : Symbol) : d.columnOf K y = K.get? y := by
    rw [columnOf, hs]
    exact Option.or_none
  exact {
    sourceBelow := fun y v hv => (hI y v hv).1
    sinkBelow := fun y v hv => (hJ y v hv).1
    sharedBelow := fun y v hv => by rw [hs] at hv; cases hv
    rowsBelow := by simp [hle, heq]
    source := fun y v hv => (hI y v (hcolumn I y ▸ hv)).2
    sink := fun y v hv => (hJ y v (hcolumn J y ▸ hv)).2
    le := by simp [hle]
    eq := by simp [heq] }

theorem indicesOf_cons {loops : IndexMap CountedLoop} {common side k : Nat} {id : LoopId}
    {ids : List LoopId} {m m' : IndexMap Nat}
    (h : indicesOf loops common side k (id :: ids) m d = some (m', d')) :
    ∃ v e l, (k < common ∧ v = 2 * k + side ∧ e = d ∨
        common ≤ k ∧ v = d.unknowns ∧ e = { d with unknowns := d.unknowns + 1 }) ∧
      loops.get? id = some l ∧
      indicesOf loops common side (k + 1) ids (m.insert l.index v) e = some (m', d') := by
  rw [indicesOf] at h
  dsimp only at h
  split at h
  · next hlt =>
    rw [pure_bind] at h
    obtain ⟨l, hl, htail⟩ := lift_bind_eq_some.mp h
    exact ⟨2 * k + side, d, l, Or.inl ⟨hlt, rfl, rfl⟩, hl, htail⟩
  · next hge =>
    obtain ⟨v, e, hv, hrest⟩ := bind_eq_some.mp h
    cases hv
    obtain ⟨l, hl, htail⟩ := lift_bind_eq_some.mp hrest
    exact ⟨d.unknowns, _, l, Or.inr ⟨Nat.le_of_not_lt hge, rfl, rfl⟩, hl, htail⟩

theorem indicesOf_spec {loops : IndexMap CountedLoop} {common side k : Nat}
    {all ids : List LoopId} {m m' : IndexMap Nat}
    (h : indicesOf loops common side k ids m d = some (m', d')) (hids : all.drop k = ids)
    (hside : side < 2) (hcommon : 2 * common ≤ d.unknowns)
    (hx : ∀ j id l, all[j]? = some id → loops.get? id = some l → j < common →
      x (2 * j + side) = σ l.index)
    (hm : Indexes d x σ m) :
    (∃ x', Extends d x d' x' ∧ Indexes d' x' σ m') ∧
      d' = { d with unknowns := d'.unknowns } ∧
      (∀ y, m'.get? y = none → m.get? y = none) ∧
      ∀ id ∈ ids, ∃ l, loops.get? id = some l ∧ m'.get? l.index ≠ none := by
  induction ids generalizing k m d x with
  | nil =>
    obtain ⟨rfl, rfl⟩ := pure_eq_some.mp h
    exact ⟨⟨x, Extends.refl d' x, hm⟩, rfl, fun _ h => h, by simp⟩
  | cons id ids ih =>
    have hk : all[k]? = some id := by
      rw [← List.head?_drop, hids, List.head?_cons]
    have hdrop : all.drop (k + 1) = ids := by
      rw [← List.tail_drop, hids, List.tail_cons]
    obtain ⟨v, e, l, hv, hl, htail⟩ := indicesOf_cons h
    -- the unknown of this loop, at the value of its index
    have hstep : ∃ x₁, Extends d x e x₁ ∧ e = { d with unknowns := e.unknowns } ∧
        v < e.unknowns ∧ x₁ v = σ l.index := by
      obtain ⟨hlt, rfl, rfl⟩ | ⟨-, rfl, rfl⟩ := hv
      · exact ⟨x, Extends.refl e x, rfl, by omega, hx k id l hk hl hlt⟩
      · exact ⟨Function.update x d.unknowns (σ l.index), extends_update d x _ (Nat.le_succ _), rfl,
          Nat.lt_succ_self _, Function.update_self ..⟩
    obtain ⟨x₁, he₁, hd₁, hv₁, hx₁⟩ := hstep
    obtain ⟨⟨x₂, he₂, hm₂⟩, hd₂, hmono, hknown⟩ := ih htail hdrop (hcommon.trans he₁.1)
      (fun j i l' hj hl' hlt => (he₁.2 _ (by omega)).trans (hx j i l' hj hl' hlt))
      ((hm.mono he₁).insert hv₁ hx₁)
    have hmono' (y : Symbol) (hy : m'.get? y = none) : m.get? y = none ∧ l.index ≠ y := by
      have hn := hmono y hy
      rw [IndexMap.get?_insert] at hn
      split at hn
      · cases hn
      · next hne => exact ⟨hn, hne⟩
    refine ⟨⟨x₂, he₁.trans he₂, hm₂⟩, ?_, fun y hy => (hmono' y hy).1, fun i hi => ?_⟩
    · rw [hd₂, hd₁]
    · obtain rfl | hi := List.mem_cons.mp hi
      · exact ⟨l, hl, fun hn => (hmono' l.index hn).2 rfl⟩
      · exact hknown i hi

theorem row?_spec {n : Nat} {t : Terms × Int} {r : Row} (h : row? n t = some r)
    (ht : t.1.Below n) :
    r.coeffs.length = n ∧ ∀ x, (r.Holds x ↔ t.1.value x + t.2 ≤ 0) ∧
      (r.Solves x ↔ t.1.value x + t.2 = 0) := by
  simp only [row?, Option.bind_eq_bind, Option.bind_eq_some_iff, Option.pure_def,
    Option.some.injEq] at h
  obtain ⟨c, hc, rfl⟩ := h
  refine ⟨by simp [Terms.dense], fun x => ?_⟩
  rw [Row.Holds, Row.Solves, Row.value, Terms.dotFrom_dense ht, Word.eq_of_neg? hc]
  dsimp only
  exact ⟨by omega, by omega⟩

theorem satisfies_addAllLe {s : ConstraintSystem} {rs : List Row}
    (h : ∀ r ∈ rs, r.coeffs.length = s.vars) :
    (s.addAllLe rs).vars = s.vars ∧
      ((s.addAllLe rs).Satisfies x ↔ s.Satisfies x ∧ ∀ r ∈ rs, r.Holds x) := by
  induction rs generalizing s with
  | nil => simp [ConstraintSystem.addAllLe]
  | cons r rs ih =>
    have hr := h r List.mem_cons_self
    obtain ⟨hv, hs⟩ := ih (s := s.addLe r.coeffs r.rhs)
      fun r hm => h r (List.mem_cons_of_mem _ hm)
    refine ⟨hv, hs.trans ?_⟩
    rw [ConstraintSystem.satisfies_addLe hr, List.forall_mem_cons, and_assoc]
    rfl

theorem satisfies_addAllEq {s : ConstraintSystem} {rs : List Row}
    (h : ∀ r ∈ rs, r.coeffs.length = s.vars) :
    (s.addAllEq rs).vars = s.vars ∧
      ((s.addAllEq rs).Satisfies x ↔ s.Satisfies x ∧ ∀ r ∈ rs, r.Solves x) := by
  induction rs generalizing s with
  | nil => simp [ConstraintSystem.addAllEq]
  | cons r rs ih =>
    have hr := h r List.mem_cons_self
    obtain ⟨hv, hs⟩ := ih (s := s.addEq r.coeffs r.rhs)
      fun r hm => h r (List.mem_cons_of_mem _ hm)
    refine ⟨hv, hs.trans ?_⟩
    rw [ConstraintSystem.satisfies_addEq hr, List.forall_mem_cons, and_assoc]
    rfl

theorem forall_row?_iff {n : Nat} {ts : List (Terms × Int)} {rs : List Row}
    {R : Row → Prop} {P : Terms × Int → Prop} (h : ts.mapM (row? n) = some rs)
    (hP : ∀ t ∈ ts, ∀ r, row? n t = some r → (R r ↔ P t)) : (∀ r ∈ rs, R r) ↔ ∀ t ∈ ts, P t := by
  constructor
  · intro hr t ht
    obtain ⟨r, hmem, hrow⟩ := exists_of_mem_left (mapM_eq_some.mp h) ht
    exact (hP t ht r hrow).mp (hr r hmem)
  · intro ht r hr
    obtain ⟨t, hmem, hrow⟩ := exists_of_mem_right (mapM_eq_some.mp h) hr
    exact (hP t hmem r hrow).mpr (ht t hmem)

theorem system?_spec {s : ConstraintSystem} (hb : ∀ t ∈ d.le ++ d.eq, t.1.Below d.unknowns)
    (h : d.system? = some s) :
    s.vars = d.unknowns ∧ (s.Satisfies x ↔
      (∀ t ∈ d.le, t.1.value x + t.2 ≤ 0) ∧ ∀ t ∈ d.eq, t.1.value x + t.2 = 0) := by
  simp only [system?, Option.bind_eq_bind, Option.bind_eq_some_iff, Option.pure_def,
    Option.some.injEq] at h
  obtain ⟨les, hles, eqs, heqs, rfl⟩ := h
  obtain ⟨hle, heq⟩ := List.forall_mem_append.mp hb
  have hlen (ts : List (Terms × Int)) (rs : List Row) (hrs : ts.mapM (row? d.unknowns) = some rs)
      (hts : ∀ t ∈ ts, t.1.Below d.unknowns) : ∀ r ∈ rs, r.coeffs.length = d.unknowns := by
    intro r hr
    obtain ⟨t, ht, hrow⟩ := exists_of_mem_right (mapM_eq_some.mp hrs) hr
    exact (row?_spec hrow (hts t ht)).1
  obtain ⟨hv₁, hs₁⟩ := satisfies_addAllLe (s := ConstraintSystem.empty d.unknowns) (x := x)
    (hlen d.le les hles hle)
  obtain ⟨hv₂, hs₂⟩ := satisfies_addAllEq
    (s := (ConstraintSystem.empty d.unknowns).addAllLe les) (x := x)
    fun r hr => (hlen d.eq eqs heqs heq r hr).trans hv₁.symm
  have hempty : (ConstraintSystem.empty d.unknowns).Satisfies x := by
    simp [ConstraintSystem.Satisfies, ConstraintSystem.empty]
  refine ⟨hv₂.trans hv₁, hs₂.trans (and_congr (hs₁.trans ?_) ?_)⟩
  · rw [and_iff_right hempty]
    exact forall_row?_iff hles fun t ht r hr => ((row?_spec hr (hle t ht)).2 x).1
  · exact forall_row?_iff heqs fun t ht r hr => ((row?_spec hr (heq t ht)).2 x).2

theorem Models.system {s : ConstraintSystem} (hm : Models I J σ τ d x) (h : d.system? = some s) :
    s.vars = d.unknowns ∧ s.Satisfies x :=
  (system?_spec hm.rowsBelow h).imp_right fun hs => hs.mpr ⟨hm.le, hm.eq⟩

end Draft

end LoopLegality
