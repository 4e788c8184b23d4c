import LoopLegality.Proofs.Counting
import LoopLegality.Proofs.RegionConstants

namespace LoopLegality

theorem IndexMap.notMem_keys_of_get? {α : Type} {m : IndexMap α} {k : Nat}
    (h : m.get? k = none) : k ∉ m.keys := by
  obtain ⟨es, hs⟩ := m
  simp only [get?, keys] at h ⊢
  clear hs
  induction es with
  | nil => exact List.not_mem_nil
  | cons e es ih =>
    by_cases hk : e.1 = k
    · simp [find, hk] at h
    · rw [find, if_neg hk] at h
      rw [List.map_cons, List.mem_cons, not_or]
      exact ⟨Ne.symm hk, ih h⟩

namespace Linear

variable {l m : Linear} {x y : Symbol} {n : Int}

theorem support_substitute? (h : l.substitute? x n = some m) (hy : y ∈ m.support) :
    y ∈ l.support ∧ y ≠ x := by
  rw [substitute?] at h
  split at h
  · next hx =>
    cases h
    exact ⟨hy, fun he => IndexMap.notMem_keys_of_get? hx (he ▸ hy)⟩
  · simp only [Option.bind_eq_bind, Option.bind_eq_some_iff, Option.pure_def,
      Option.some.injEq] at h
    obtain ⟨_, -, _, -, rfl⟩ := h
    obtain ⟨t, ht, rfl⟩ := List.mem_map.mp hy
    obtain ⟨hmem, hne⟩ := List.mem_filter.mp ht
    exact ⟨List.mem_map_of_mem hmem, by simpa using hne⟩

theorem support_foldlM {f : Linear → Symbol → Option Linear} {P : Prop} {xs : List Symbol}
    (hf : ∀ l l' x, f l x = some l' → y ∈ l'.support → y ∈ l.support ∧ (y = x → P))
    (h : xs.foldlM f l = some m) (hy : y ∈ m.support) : y ∈ l.support ∧ (y ∈ xs → P) := by
  induction xs generalizing l with
  | nil =>
    obtain rfl : l = m := by simpa using h
    exact ⟨hy, fun hx => by cases hx⟩
  | cons x xs ih =>
    simp only [List.foldlM_cons, Option.bind_eq_bind, Option.bind_eq_some_iff] at h
    obtain ⟨l', hl, h⟩ := h
    obtain ⟨hy', hrest⟩ := ih h
    obtain ⟨hmem, hx⟩ := hf l l' x hl hy'
    exact ⟨hmem, fun hxs => (List.mem_cons.mp hxs).elim hx hrest⟩

theorem support_fold? {value? : Symbol → Option Int} (h : l.fold? value? = some m)
    (hy : y ∈ m.support) : value? y = none := by
  have hboth : y ∈ l.support ∧ (y ∈ l.support → value? y = none) := by
    refine support_foldlM (fun l l' x hl hy' => ?_) h hy
    split at hl
    · obtain ⟨hmem, hne⟩ := support_substitute? hl hy'
      exact ⟨hmem, fun he => (hne he).elim⟩
    · next hx =>
      cases hl
      exact ⟨hy', fun he => he ▸ hx⟩
  exact hboth.2 hboth.1

end Linear

def ConstEnv.override (env : ConstEnv) (σ : Symbol → Int) (y : Symbol) : Int :=
  (env.get? y).getD (σ y)

namespace ConstEnv

variable {env : ConstEnv} {σ : Symbol → Int}

theorem agrees_override (env : ConstEnv) (σ : Symbol → Int) : env.Agrees (env.override σ) := by
  intro y n hn
  rw [override, hn, Option.getD_some]

theorem override_of_none {y : Symbol} (h : env.get? y = none) : env.override σ y = σ y := by
  rw [override, h, Option.getD_none]

theorem eval_override {l m : Linear} (h : l.fold? env.get? = some m) :
    l.eval (env.override σ) = m.eval σ := by
  rw [← Linear.eval_fold h (agrees_override env σ)]
  apply Linear.eval_congr
  intro y hy
  exact override_of_none (Linear.support_fold? h hy)

end ConstEnv

def CountedLoop.indicesIn (loops : IndexMap CountedLoop) (ids : List LoopId) : List Symbol :=
  ids.filterMap fun id => (loops.get? id).map (·.index)

namespace Draft

variable {α : Type} {d d' d'' : Draft} {I J : IndexMap Nat} {σ τ : Symbol → Int} {x : Nat → Int}

/-- All that a draft mentions, and all that indices stand for, are unknowns it has made. -/
structure Bounded (I J : IndexMap Nat) (d : Draft) : Prop where
  source : ∀ y v, I.get? y = some v → v < d.unknowns
  sink : ∀ y v, J.get? y = some v → v < d.unknowns
  shared : ∀ y v, d.shared.get? y = some v → v < d.unknowns
  rows : ∀ t ∈ d.le ++ d.eq, t.1.Below d.unknowns

theorem Models.bounded (h : Models I J σ τ d x) : Bounded I J d :=
  ⟨h.sourceBelow, h.sinkBelow, h.sharedBelow, h.rowsBelow⟩

theorem Bounded.symm (h : Bounded I J d) : Bounded J I d :=
  ⟨h.sink, h.source, h.shared, h.rows⟩

theorem Bounded.column (h : Bounded I J d) {y : Symbol} {v : Nat} (hv : d.columnOf I y = some v) :
    v < d.unknowns := by
  obtain hv | ⟨-, hv⟩ := Option.or_eq_some_iff.mp hv
  · exact h.source y v hv
  · exact h.shared y v hv

theorem Bounded.fresh (h : Bounded I J d) : Bounded I J { d with unknowns := d.unknowns + 1 } where
  source y v hv := Nat.lt_succ_of_lt (h.source y v hv)
  sink y v hv := Nat.lt_succ_of_lt (h.sink y v hv)
  shared y v hv := Nat.lt_succ_of_lt (h.shared y v hv)
  rows t ht := (h.rows t ht).mono (Nat.le_succ _)

theorem Bounded.share (h : Bounded I J d) (y : Symbol) :
    Bounded I J { d with unknowns := d.unknowns + 1, shared := d.shared.insert y d.unknowns } where
  source := h.fresh.source
  sink := h.fresh.sink
  shared z v hv := by
    rw [IndexMap.get?_insert] at hv
    split at hv
    · cases hv
      exact Nat.lt_succ_self _
    · exact h.fresh.shared z v hv
  rows := h.fresh.rows

theorem Bounded.add (h : Bounded I J d) (ls es : List (Terms × Int))
    (hls : ∀ t ∈ ls, t.1.Below d.unknowns) (hes : ∀ t ∈ es, t.1.Below d.unknowns) :
    Bounded I J { d with le := d.le ++ ls, eq := d.eq ++ es } where
  source := h.source
  sink := h.sink
  shared := h.shared
  rows := by
    have hr := h.rows
    simp only [List.forall_mem_append] at hr ⊢
    exact ⟨⟨hr.1, hls⟩, hr.2, hes⟩

/-- Rows stay, and so do the unknowns of symbols. -/
structure Includes (d d' : Draft) : Prop extends d.Grows d' where
  le : d.le ⊆ d'.le
  eq : d.eq ⊆ d'.eq

theorem Includes.refl (d : Draft) : d.Includes d := ⟨Grows.refl d, fun _ h => h, fun _ h => h⟩

theorem Includes.trans (h : d.Includes d') (h' : d'.Includes d'') : d.Includes d'' :=
  ⟨h.toGrows.trans h'.toGrows, fun _ ht => h'.le (h.le ht), fun _ ht => h'.eq (h.eq ht)⟩

theorem includes_add (d : Draft) {n : Nat} (hn : d.unknowns ≤ n) (ls es : List (Terms × Int)) :
    d.Includes { d with unknowns := n, le := d.le ++ ls, eq := d.eq ++ es } :=
  ⟨⟨hn, fun _ _ h => h⟩, List.subset_append_left .., List.subset_append_left ..⟩

theorem Models.restrict (h : Models I J σ τ d' x) (hb : Bounded I J d) (hi : d.Includes d') :
    Models I J σ τ d x where
  sourceBelow := hb.source
  sinkBelow := hb.sink
  sharedBelow := hb.shared
  rowsBelow := hb.rows
  source y v hv := h.source y v (hi.columnOf hv)
  sink y v hv := h.sink y v (hi.columnOf hv)
  le t ht := h.le t (hi.le ht)
  eq t ht := h.eq t (hi.eq ht)

theorem unknownOf_bounded {y : Symbol} {v : Nat} (h : unknownOf I y d = some (v, d'))
    (hb : Bounded I J d) : Bounded I J d' ∧ d.Includes d' := by
  have hg := (unknownOf_spec h).1
  obtain ⟨rfl, -⟩ | ⟨-, -, rfl⟩ := unknownOf_cases h
  · exact ⟨hb, Includes.refl d'⟩
  · exact ⟨hb.share y, hg, fun _ ht => ht, fun _ ht => ht⟩

theorem termsOf_bounded {ts : List (Symbol × Int)} {terms terms' : Terms}
    (h : termsOf I ts terms d = some (terms', d')) (hb : Bounded I J d)
    (ht : terms.Below d.unknowns) :
    Bounded I J d' ∧ d.Includes d' ∧ terms'.Below d'.unknowns := by
  induction ts generalizing terms d with
  | nil =>
    obtain ⟨rfl, rfl⟩ := pure_eq_some.mp h
    exact ⟨hb, Includes.refl d', ht⟩
  | cons t ts ih =>
    obtain ⟨v, e, hv, hrest⟩ := bind_eq_some.mp h
    obtain ⟨m, -, htail⟩ := lift_bind_eq_some.mp hrest
    obtain ⟨hb₁, hi₁⟩ := unknownOf_bounded hv hb
    have hv' := hb₁.column (unknownOf_spec hv).2
    obtain ⟨hb₂, hi₂, ht₂⟩ := ih htail hb₁ (Terms.below_insert (ht.mono hi₁.unknowns) hv' m)
    exact ⟨hb₂, hi₁.trans hi₂, ht₂⟩

theorem translate_bounded {l : Linear} {terms : Terms} {c : Int}
    (h : translate I l d = some ((terms, c), d')) (hb : Bounded I J d) :
    Bounded I J d' ∧ d.Includes d' ∧ terms.Below d'.unknowns := by
  obtain ⟨t, e, ht, hp⟩ := bind_eq_some.mp h
  obtain ⟨hpair, rfl⟩ := pure_eq_some.mp hp
  obtain ⟨rfl, rfl⟩ := Prod.mk.inj hpair
  exact termsOf_bounded ht hb (Terms.below_empty _)

/-- A building step after which every point that satisfies the draft has this property. -/
def Means (I J : IndexMap Nat) (P : (Symbol → Int) → (Symbol → Int) → Prop) (m : Build Unit) :
    Prop :=
  ∀ d d', Bounded I J d → m d = some ((), d') →
    Bounded I J d' ∧ d.Includes d' ∧ ∀ x σ τ, Models I J σ τ d' x → P σ τ

section Means

variable {P Q : (Symbol → Int) → (Symbol → Int) → Prop} {m k : Build Unit}

theorem Means.mono (h : Means I J P m) (hPQ : ∀ σ τ, P σ τ → Q σ τ) : Means I J Q m := by
  intro d d' hb hm
  obtain ⟨hb', hi, hP⟩ := h d d' hb hm
  exact ⟨hb', hi, fun x σ τ hx => hPQ σ τ (hP x σ τ hx)⟩

theorem Means.pure : Means I J (fun _ _ => True) (pure ()) := by
  intro d d' hb h
  obtain ⟨-, rfl⟩ := pure_eq_some.mp h
  exact ⟨hb, Includes.refl d', fun _ _ _ _ => trivial⟩

theorem Means.seq (hm : Means I J P m) (hk : Means I J Q k) :
    Means I J (fun σ τ => P σ τ ∧ Q σ τ) (m >>= fun _ => k) := by
  intro d d' hb h
  obtain ⟨⟨⟩, e, h₁, h₂⟩ := bind_eq_some.mp h
  obtain ⟨hb₁, hi₁, hP⟩ := hm d e hb h₁
  obtain ⟨hb₂, hi₂, hQ⟩ := hk e d' hb₁ h₂
  exact ⟨hb₂, hi₁.trans hi₂, fun x σ τ hx => ⟨hP x σ τ (hx.restrict hb₁ hi₂), hQ x σ τ hx⟩⟩

theorem Means.lift {o : Option α} {f : α → Build Unit} (h : ∀ a, o = some a → Means I J P (f a)) :
    Means I J P (liftM o >>= f) := by
  intro d d' hb hm
  obtain ⟨a, ha, hf⟩ := lift_bind_eq_some.mp hm
  exact h a ha d d' hb hf

theorem Means.symm (h : Means I J P m) : Means J I (fun τ σ => P σ τ) m := by
  intro d d' hb hm
  obtain ⟨hb', hi, hP⟩ := h d d' hb.symm hm
  exact ⟨hb'.symm, hi, fun x τ σ hx => hP x σ τ hx.symm⟩

end Means

theorem Models.steps {l : CountedLoop} {terms row : Terms} {u k : Nat} {c n m : Int}
    (hm : Models I J σ τ d x) (hu : u < k) (ht : terms.Below k)
    (hrow : (Terms.unit u).sub? terms = some row) (hn : Word.neg? l.step = some n)
    (hc : Word.neg? c = some m) (hle : (IndexMap.empty.insert k (-1), 0) ∈ d.le)
    (heq : (row.insert k n, m) ∈ d.eq) :
    x u = terms.value x + c + l.step * (x k).toNat := by
  obtain ⟨hrv, hrb⟩ := Terms.sub?_spec hrow
  have hpos : 0 ≤ x k := by
    have h := hm.le _ hle
    simp only [Terms.value_insert, Terms.value_empty, IndexMap.get?_empty, Option.getD_none] at h
    omega
  have hstep := hm.eq _ heq
  dsimp only at hstep
  rw [Terms.value_insert, Terms.get?_of_below (hrb k (Terms.below_unit hu) ht), hrv,
    Terms.value_unit, Word.eq_of_neg? hn, Word.eq_of_neg? hc, Option.getD_none] at hstep
  rw [Int.toNat_of_nonneg hpos]
  linarith

theorem addLower_means {l : CountedLoop} {lower : Linear} {u : Nat} (hu : I.get? l.index = some u) :
    Means I J (fun σ _ => ∃ k : Nat, σ l.index = lower.eval σ + l.step * k)
      (addLower l u I lower) := by
  intro d d' hb h
  obtain ⟨⟨terms, c⟩, d₁, ht, hrest⟩ := bind_eq_some.mp h
  obtain ⟨hb₁, hi₁, htb⟩ := translate_bounded ht hb
  have hub : u < d₁.unknowns := hb₁.source _ _ hu
  obtain ⟨row, hrow, hrest⟩ := lift_bind_eq_some.mp hrest
  obtain ⟨hrv, hrb⟩ := Terms.sub?_spec hrow
  obtain ⟨_, d₂, hle, hrest⟩ := bind_eq_some.mp hrest
  cases hle
  have hrow₁ : row.Below d₁.unknowns := hrb _ htb (Terms.below_unit hub)
  -- whatever comes after, the index and the first value are read off the point
  have hread {d' : Draft} {x : Nat → Int} {σ τ : Symbol → Int} (hx : Models I J σ τ d' x)
      (hi : d₁.Includes d') : σ l.index = x u ∧ lower.eval σ = terms.value x + c := by
    have hx₁ := hx.restrict hb₁ hi
    exact ⟨(hx₁.source l.index u (by simp [columnOf, hu])).symm,
      ((translate_spec ht).2 x σ hx₁.source).symm⟩
  split at hrest
  · obtain ⟨v, d₃, hfresh, hrest⟩ := bind_eq_some.mp hrest
    cases hfresh
    obtain ⟨row', hrow', hrest⟩ := lift_bind_eq_some.mp hrest
    obtain ⟨n, hn, hrest⟩ := lift_bind_eq_some.mp hrest
    obtain ⟨m, hc, hrest⟩ := lift_bind_eq_some.mp hrest
    cases hrest
    have hrow₂ := (Terms.sub?_spec hrow').2 _ (Terms.below_unit hub) htb
    have hi : d₁.Includes
        { d₁ with
          unknowns := d₁.unknowns + 1
          le := d₁.le ++ [(row, c)] ++ [(IndexMap.empty.insert d₁.unknowns (-1), 0)]
          eq := d₁.eq ++ [(row'.insert d₁.unknowns n, m)] } := by
      rw [List.append_assoc]
      exact includes_add d₁ (Nat.le_succ _) _ _
    refine ⟨?_, hi₁.trans hi, fun x σ τ hx => ⟨(x d₁.unknowns).toNat, ?_⟩⟩
    · have hlast := Nat.lt_succ_self d₁.unknowns
      have hb₂ := (hb₁.add [(row, c)] [] (by simpa using hrow₁) (by simp)).fresh
      simpa using hb₂.add [(IndexMap.empty.insert d₁.unknowns (-1), 0)]
        [(row'.insert d₁.unknowns n, m)]
        (by simpa using Terms.below_insert (Terms.below_empty _) hlast (-1))
        (by simpa using Terms.below_insert (hrow₂.mono (Nat.le_succ _)) hlast n)
    · obtain ⟨hindex, hlower⟩ := hread hx hi
      rw [hindex, hlower]
      exact hx.steps hub htb hrow' hn hc (by simp) (by simp)
  · next hstep =>
    obtain ⟨-, rfl⟩ := pure_eq_some.mp hrest
    have hi := includes_add d₁ le_rfl [(row, c)] []
    rw [List.append_nil] at hi
    refine ⟨?_, hi₁.trans hi, fun x σ τ hx => ?_⟩
    · simpa using hb₁.add [(row, c)] [] (by simpa using hrow₁) (by simp)
    · obtain ⟨hindex, hlower⟩ := hread hx hi
      have hone : l.step = 1 := by have := l.step_pos; omega
      have hle : row.value x + c ≤ 0 := hx.le (row, c) (by simp)
      rw [hrv, Terms.value_unit] at hle
      refine ⟨(x u - (terms.value x + c)).toNat, ?_⟩
      rw [hindex, hlower, hone, Int.toNat_of_nonneg (by omega)]
      ring

theorem addUpper_means {y : Symbol} {upper : Linear} {u : Nat} (hu : I.get? y = some u) :
    Means I J (fun σ _ => σ y ≤ upper.eval σ) (addUpper u I upper) := by
  intro d d' hb h
  obtain ⟨⟨terms, c⟩, d₁, ht, hrest⟩ := bind_eq_some.mp h
  obtain ⟨hb₁, hi₁, htb⟩ := translate_bounded ht hb
  obtain ⟨row, hrow, hrest⟩ := lift_bind_eq_some.mp hrest
  obtain ⟨m, hc, hrest⟩ := lift_bind_eq_some.mp hrest
  cases hrest
  obtain ⟨hrv, hrb⟩ := Terms.sub?_spec hrow
  have hrow₁ : row.Below d₁.unknowns := hrb _ (Terms.below_unit (hb₁.source _ _ hu)) htb
  have hi := includes_add d₁ le_rfl [(row, m)] []
  rw [List.append_nil] at hi
  refine ⟨?_, hi₁.trans hi, fun x σ τ hx => ?_⟩
  · simpa using hb₁.add [(row, m)] [] (by simpa using hrow₁) (by simp)
  · have hx₁ := hx.restrict hb₁ hi
    have hread := (translate_spec ht).2 x σ hx₁.source
    have hy : x u = σ y := hx₁.source y u (by simp [columnOf, hu])
    have hle : row.value x + m ≤ 0 := hx.le (row, m) (by simp)
    rw [hrv, Terms.value_unit, Word.eq_of_neg? hc] at hle
    linarith

def InBounds (env : ConstEnv) (l : CountedLoop) (σ : Symbol → Int) : Prop :=
  (∀ lower, folded? env l.lowerLinear? = some lower →
      ∃ k : Nat, σ l.index = lower.eval σ + l.step * k) ∧
    ∀ upper, folded? env l.upperLinear? = some upper → σ l.index ≤ upper.eval σ

theorem addBounds_means {l : CountedLoop} {env : ConstEnv} :
    Means I J (fun σ _ => InBounds env l σ) (addBounds l I env) := by
  refine Means.lift fun u hu => ?_
  cases hlo : folded? env l.lowerLinear? with
  | none =>
    cases hup : folded? env l.upperLinear? with
    | none => exact Means.pure.mono fun σ _ _ => ⟨by simp [hlo], by simp [hup]⟩
    | some upper =>
      exact (addUpper_means hu).mono fun σ _ h => ⟨by simp [hlo], by simpa [hup] using h⟩
  | some lower =>
    cases hup : folded? env l.upperLinear? with
    | none =>
      exact ((addLower_means hu).seq Means.pure).mono
        fun σ _ h => ⟨by simpa [hlo] using h.1, by simp [hup]⟩
    | some upper =>
      exact ((addLower_means hu).seq (addUpper_means hu)).mono
        fun σ _ h => ⟨by simpa [hlo] using h.1, by simpa [hup] using h.2⟩

theorem addAllBounds_means (loops : IndexMap CountedLoop) (env : ConstEnv) (ids : List LoopId) :
    Means I J (fun σ _ => ∀ id ∈ ids, ∀ l, loops.get? id = some l → InBounds env l σ)
      (addAllBounds loops I env ids) := by
  induction ids with
  | nil => exact Means.pure.mono fun σ _ _ => nofun
  | cons id ids ih =>
    refine Means.lift fun l hl => (addBounds_means.seq ih).mono fun σ _ h => ?_
    rw [List.forall_mem_cons]
    refine ⟨fun l' hl' => ?_, h.2⟩
    obtain rfl : l = l' := Option.some.inj (hl.symm.trans hl')
    exact h.1

theorem addMeeting_means {env : ConstEnv} {a b : Linear} :
    Means I J (fun σ τ => ∃ a' b', a.fold? env.get? = some a' ∧ b.fold? env.get? = some b' ∧
      a'.eval σ = b'.eval τ) (addMeeting env I J a b) := by
  refine Means.lift fun a' hfa => ?_
  intro d d' hb h
  obtain ⟨⟨l, lc⟩, d₁, hl, hrest⟩ := bind_eq_some.mp h
  obtain ⟨hb₁, hi₁, hlb⟩ := translate_bounded hl hb
  obtain ⟨b', hfb, hrest⟩ := lift_bind_eq_some.mp hrest
  obtain ⟨⟨r, rc⟩, d₂, hr, hrest⟩ := bind_eq_some.mp hrest
  obtain ⟨hb₂, hi₂, hrb⟩ := translate_bounded hr hb₁.symm
  obtain ⟨row, hrow, hrest⟩ := lift_bind_eq_some.mp hrest
  obtain ⟨m, hc, hrest⟩ := lift_bind_eq_some.mp hrest
  cases hrest
  obtain ⟨hrv, hrowb⟩ := Terms.sub?_spec hrow
  have hrow₂ : row.Below d₂.unknowns := hrowb _ (hlb.mono hi₂.unknowns) hrb
  have hi := includes_add d₂ le_rfl [] [(row, m)]
  rw [List.append_nil] at hi
  refine ⟨?_, (hi₁.trans hi₂).trans hi, fun x σ τ hx => ⟨a', b', hfa, hfb, ?_⟩⟩
  · simpa using hb₂.symm.add [] [(row, m)] (by simp) (by simpa using hrow₂)
  · have hx₂ := hx.restrict hb₂.symm hi
    have hleft := (translate_spec hl).2 x σ (hx₂.restrict hb₁ hi₂).source
    have hright := (translate_spec hr).2 x τ hx₂.sink
    have heq : row.value x + m = 0 := hx.eq (row, m) (by simp)
    rw [hrv, Word.eq_of_sub? hc] at heq
    linarith

theorem addMeetings_means {env : ConstEnv} {pairs : List (Linear × Linear)} :
    Means I J (fun σ τ => ∀ p ∈ pairs, ∃ a b, p.1.fold? env.get? = some a ∧
      p.2.fold? env.get? = some b ∧ a.eval σ = b.eval τ) (addMeetings env I J pairs) := by
  induction pairs with
  | nil => exact Means.pure.mono fun σ τ _ => nofun
  | cons p pairs ih =>
    exact (addMeeting_means.seq ih).mono fun σ τ h => List.forall_mem_cons.mpr h

def reading (d : Draft) (I : IndexMap Nat) (x : Nat → Int) (y : Symbol) : Int :=
  ((d.columnOf I y).map x).getD 0

theorem reads_reading (d : Draft) (I : IndexMap Nat) (x : Nat → Int) :
    d.Reads I x (d.reading I x) := by
  intro y v hv
  simp [reading, hv]

theorem reading_of_get? {y : Symbol} {v : Nat} (h : I.get? y = some v) :
    d.reading I x y = x v := by
  simp [reading, columnOf, h]

theorem InBounds.admitsIn {env : ConstEnv} {l : CountedLoop} (h : InBounds env l σ)
    (hl : env.get? l.index = none) : l.AdmitsIn env (env.override σ) := by
  refine ⟨fun lower hlower hfold => ?_, fun upper hupper hfold => ?_⟩
  · obtain ⟨m, hm⟩ := Option.ne_none_iff_exists'.mp hfold
    obtain ⟨k, hk⟩ := h.1 m (by simp [folded?, hlower, hm])
    exact ⟨k, by rw [ConstEnv.override_of_none hl, ConstEnv.eval_override hm, hk]⟩
  · obtain ⟨m, hm⟩ := Option.ne_none_iff_exists'.mp hfold
    rw [ConstEnv.override_of_none hl, ConstEnv.eval_override hm]
    exact h.2 m (by simp [folded?, hupper, hm])

section Indices

variable {loops : IndexMap CountedLoop} {common side k : Nat} {ids : List LoopId}
  {m m' : IndexMap Nat}

theorem indicesOf_get?_of_ne (h : indicesOf loops common side k ids m d = some (m', d'))
    {y : Symbol} (hy : ∀ id ∈ ids, ∀ l, loops.get? id = some l → l.index ≠ y) :
    m'.get? y = m.get? y := by
  induction ids generalizing k m d with
  | nil =>
    obtain ⟨rfl, -⟩ := pure_eq_some.mp h
    rfl
  | cons id ids ih =>
    obtain ⟨v, e, l, -, hl, htail⟩ := indicesOf_cons h
    rw [ih htail fun i hi => hy i (List.mem_cons_of_mem _ hi), IndexMap.get?_insert,
      if_neg (hy id List.mem_cons_self l hl)]

theorem indicesOf_get?_common (h : indicesOf loops common side k ids m d = some (m', d'))
    (hnodup : (CountedLoop.indicesIn loops ids).Nodup) {j : Nat} {id : LoopId} {l : CountedLoop}
    (hj : ids[j]? = some id) (hl : loops.get? id = some l) (hlt : k + j < common) :
    m'.get? l.index = some (2 * (k + j) + side) := by
  induction ids generalizing k m d j with
  | nil => simp at hj
  | cons i ids ih =>
    obtain ⟨v, e, l₀, hv, hl₀, htail⟩ := indicesOf_cons h
    have hsplit : CountedLoop.indicesIn loops (i :: ids) =
        l₀.index :: CountedLoop.indicesIn loops ids := by
      simp [CountedLoop.indicesIn, hl₀]
    rw [hsplit, List.nodup_cons] at hnodup
    cases j with
    | zero =>
      obtain rfl : i = id := by simpa using hj
      obtain rfl : l₀ = l := Option.some.inj (hl₀.symm.trans hl)
      have hlater : ∀ i ∈ ids, ∀ l, loops.get? i = some l → l.index ≠ l₀.index := by
        intro i hi l hl he
        exact hnodup.1 (List.mem_filterMap.mpr ⟨i, hi, by simp [hl, he]⟩)
      rw [indicesOf_get?_of_ne htail hlater, IndexMap.get?_insert, if_pos rfl]
      obtain ⟨-, rfl, -⟩ | ⟨hge, -, -⟩ := hv
      · rfl
      · omega
    | succ j =>
      have hj' : ids[j]? = some id := by simpa using hj
      rw [ih htail hnodup.2 hj' (by omega)]
      congr 1
      omega

end Indices

end Draft

namespace PairContext

variable {c : PairContext} {s t : Access} {p : DependenceProblem} {x : Nat → Int}

/-- Every point that satisfies the problem of a pair holds the iterations of two accesses that
coincide, if no constant is assumed for an index. -/
theorem exists_coincides (hs : (CountedLoop.indicesIn c.loops s.loops).Nodup)
    (ht : (CountedLoop.indicesIn c.loops t.loops).Nodup)
    (henv : ∀ id l, c.loops.get? id = some l → c.env.get? l.index = none)
    (hp : DependenceProblem.ofPair? c.loops c.env s t = some p) (hx : p.system.Satisfies x) :
    ∃ σ τ, c.Coincides s t σ τ ∧
      c.iterations s t σ τ = p.levels.map fun l => (x l.1, x l.2) := by
  obtain ⟨I, J, d₁, d₂, d, h₁, h₂, hbuild, hsys, hlevels⟩ := ofPair?_eq_some hp
  obtain ⟨⟨hI, -⟩, _, -, hx₂⟩ := exists_models_indices (fun _ => 0) (fun _ => 0) h₁ h₂
  have hmeans := Draft.Means.seq (I := I) (J := J)
    (Draft.addAllBounds_means c.loops c.env s.loops)
    (Draft.Means.seq
      (Draft.addAllBounds_means c.loops c.env t.loops).symm
      (Draft.Means.lift (P := fun σ τ => ∀ a b, s.linearSubscripts? = some a →
          t.linearSubscripts? = some b → ∀ p ∈ a.zip b, ∃ a b, p.1.fold? c.env.get? = some a ∧
            p.2.fold? c.env.get? = some b ∧ a.eval σ = b.eval τ)
        fun a ha => Draft.Means.lift fun b hb =>
          Draft.addMeetings_means.mono fun σ τ h a' b' ha' hb' => by
            obtain rfl : a = a' := Option.some.inj (ha.symm.trans ha')
            obtain rfl : b = b' := Option.some.inj (hb.symm.trans hb')
            exact h))
  obtain ⟨hb, -, hP⟩ := hmeans d₂ d hx₂.bounded hbuild
  obtain ⟨hle, heq⟩ := (Draft.system?_spec hb.rows hsys).2.mp hx
  obtain ⟨hsource, hsink, hmeet⟩ := hP x (d.reading I x) (d.reading J x)
    ⟨hb.source, hb.sink, hb.shared, hb.rows, d.reads_reading I x, d.reads_reading J x, hle, heq⟩
  refine ⟨c.env.override (d.reading I x), c.env.override (d.reading J x), ?_, ?_⟩
  · exact {
      sourceEnv := c.env.agrees_override _
      sinkEnv := c.env.agrees_override _
      outside := fun y hy => by
        have hI := Draft.indicesOf_get?_of_ne h₁ fun id hid => hy id (List.mem_append_left _ hid)
        have hJ := Draft.indicesOf_get?_of_ne h₂ fun id hid => hy id (List.mem_append_right _ hid)
        simp [ConstEnv.override, Draft.reading, Draft.columnOf, hI, hJ]
      sourceBounds := fun id hid l hl => (hsource id hid l hl).admitsIn (henv id l hl)
      sinkBounds := fun id hid l hl => (hsink id hid l hl).admitsIn (henv id l hl)
      subscripts := fun a b ha hb p hp => by
        obtain ⟨a', b', hfa, hfb, heq⟩ := hmeet a b ha hb p hp
        rw [ConstEnv.eval_override hfa, ConstEnv.eval_override hfb, heq] }
  · rw [hlevels, List.map_map, iterations_eq]
    apply List.map_congr_left
    intro k hk
    have hlt : k < s.commonLoops t := List.mem_range.mp hk
    have hlen : k < s.loops.length := hlt.trans_le (Access.commonPrefix_le _ _)
    have hget : s.loops[k]? = some s.loops[k] := List.getElem?_eq_getElem hlen
    obtain ⟨l, hl, -⟩ := hI _ (List.mem_of_getElem? hget)
    have hsource := Draft.indicesOf_get?_common h₁ hs hget hl (by omega)
    have hsink := Draft.indicesOf_get?_common h₂ ht
      ((Access.getElem?_commonPrefix hlt).symm.trans hget) hl (by omega)
    rw [Nat.zero_add] at hsource hsink
    rw [commonPoint_source hget hl, commonPoint_sink hget hl,
      ConstEnv.override_of_none (henv _ l hl), ConstEnv.override_of_none (henv _ l hl),
      Draft.reading_of_get? hsource, Draft.reading_of_get? hsink]
    rfl

end PairContext

theorem CountedLoop.index_mem_writesOf {h : ForHeader} {l : CountedLoop}
    (hl : ofHeader? h = some l) : l.index ∈ Node.writesOf h.nodes := by
  obtain ⟨init, cond, incr, hinit, hcond, hincr, hstart, -, -⟩ := ofHeader?_eq_some hl
  have hmem : l.index ∈ Node.writesOf init.nodes := by
    obtain ⟨s, t, u, rfl, -⟩ | ⟨d, s, rfl, -, hd, -, -, -⟩ := exists_of_start? hstart
    · simp [Node.writesOf, ForInit.nodes, Expr.occurrences, Expr.nodes, Node.writes, Expr.writes,
        Expr.targets]
    · simp [Node.writesOf, ForInit.nodes, Declaration.nodes, Declarator.nodes, Node.writes, hd]
  apply Node.writesOf_subset _ hmem
  intro n hn
  simp [ForHeader.nodes, hinit, hn]

theorem Stmt.HasLoop.nodes_subset {st : Stmt} {f : ForHeader} (h : st.HasLoop f) :
    f.nodes ⊆ st.nodes := by
  induction h with
  | self h b s => exact List.subset_append_left ..
  | body h s _ ih => exact List.subset_append_of_subset_right _ ih
  | item s hst _ ih => exact List.Subset.trans ih (Stmt.nodes_subset_nodesOf hst)
  | yes e n s _ ih =>
    intro i hi
    cases n <;> simp [Stmt.nodes, ih hi]
  | no e y s _ ih => exact List.subset_append_of_subset_right _ ih
  | whileBody e s _ ih | switchBody e s _ ih => exact List.subset_append_of_subset_right _ ih
  | doBody e s _ ih => exact List.subset_append_of_subset_left _ ih
  | labelled n s _ ih => exact ih

namespace Analyzer

variable {a : Analyzer} {stmts : List Stmt} {an : DependenceAnalysis}

/-- No constant is assumed for the index of a loop of the region, since its header writes it. -/
theorem regionEnv_index (h : a.analyze stmts = .ok an) {id : LoopId} {l : CountedLoop}
    (hl : an.loops.get? id = some l) : (a.regionEnv stmts an.loops).get? l.index = none := by
  obtain ⟨tr, htr, hset⟩ := Collector.collect_eq_ok (analyze_eq_ok h).1
  obtain ⟨gs, hw, -⟩ := Trail.walkNumbered_spec [] 0 stmts htr
  have hloops : an.loops = tr.loops := congrArg AccessSet.loops hset
  obtain hempty | ⟨f, ⟨st, hst, hf⟩, -, hcounted⟩ := hw.loops id l (hloops ▸ hl)
  · cases hempty
  · apply regionEnv_of_written
    apply Node.writesOf_subset _ (CountedLoop.index_mem_writesOf hcounted)
    exact List.Subset.trans hf.nodes_subset (Stmt.nodes_subset_nodesOf hst)

/-- The problem of two accesses of a region is exact: the columns of the levels of its solutions
hold the iterations at which the accesses coincide, and no others. -/
theorem exists_satisfies_iff_coincides (h : a.analyze stmts = .ok an) {s t : Access}
    {p : DependenceProblem} (hs : (CountedLoop.indicesIn an.loops s.loops).Nodup)
    (ht : (CountedLoop.indicesIn an.loops t.loops).Nodup)
    (hp : DependenceProblem.ofPair? an.loops (a.regionEnv stmts an.loops) s t = some p)
    (zs : List (Int × Int)) :
    (∃ x, p.system.Satisfies x ∧ p.levels.map (fun l => (x l.1, x l.2)) = zs) ↔
      ∃ σ τ, (a.pairContext stmts an).Coincides s t σ τ ∧
        (a.pairContext stmts an).iterations s t σ τ = zs := by
  constructor
  · rintro ⟨x, hx, rfl⟩
    exact PairContext.exists_coincides (c := a.pairContext stmts an) hs ht
      (fun id l => regionEnv_index h) hp hx
  · rintro ⟨σ, τ, hm, rfl⟩
    obtain ⟨x, -, hx, hlevels⟩ := hm.satisfies hp
    exact ⟨x, hx, hlevels⟩

end Analyzer

open StridedCopy in
/-- The write in the first iteration and the read in the second solve the problem. No solution has
the index at an odd number. -/
theorem Analyzer.exists_satisfies_stridedCopy :
    analyzer.analyze [(loop 2).stmt] = .ok analysis ∧
      ∃ p, DependenceProblem.ofPair? analysis.loops
          (analyzer.regionEnv [(loop 2).stmt] analysis.loops) (write 2) read = some p ∧
        (∃ x, p.system.Satisfies x ∧ p.levels.map (fun l => (x l.1, x l.2)) = [(0, 2)]) ∧
        ¬ ∃ x, p.system.Satisfies x ∧ p.levels.map (fun l => (x l.1, x l.2)) = [(0, 1)] := by
  have hwrite : (CountedLoop.indicesIn analysis.loops (write 2).loops).Nodup := by decide
  have hread : (CountedLoop.indicesIn analysis.loops read.loops).Nodup := by decide
  obtain ⟨p, hp⟩ : ∃ p, DependenceProblem.ofPair? analysis.loops
      (analyzer.regionEnv [(loop 2).stmt] analysis.loops) (write 2) read = some p :=
    Option.isSome_iff_exists.mp (by decide +kernel)
  have hiff := exists_satisfies_iff_coincides analyze_loop hwrite hread hp
  refine ⟨analyze_loop, p, hp, (hiff _).mpr ⟨_, _, meets_next.coincides rfl, rfl⟩, fun hx => ?_⟩
  obtain ⟨σ, τ, hm, hz⟩ := (hiff _).mp hx
  have hτ : τ 0 = 1 := congrArg Prod.snd (List.cons.inj hz).1
  obtain ⟨k, hk⟩ := (hm.sinkBounds 0 List.mem_cons_self counted rfl).1 (.const 0) rfl nofun
  have hk' : τ 0 = 0 + 2 * (k : Int) := hk
  omega

end LoopLegality
