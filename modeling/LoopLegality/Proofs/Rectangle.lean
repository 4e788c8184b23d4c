import LoopLegality.Proofs.Approval
import LoopLegality.Proofs.Counting
import LoopLegality.Proofs.Interchange

namespace LoopLegality

namespace CountedLoop

abbrev OfHeaders (hs : List ForHeader) (ls : List CountedLoop) : Prop :=
  List.Forall₂ (fun h c => ofHeader? h = some c) hs ls

theorem exists_ofHeaders {hs : List ForHeader} (h : ∀ k ∈ hs, ∃ c, ofHeader? k = some c) :
    ∃ ls, OfHeaders hs ls := by
  induction hs with
  | nil => exact ⟨[], .nil⟩
  | cons k hs ih =>
    obtain ⟨⟨c, hc⟩, hrest⟩ := List.forall_mem_cons.mp h
    obtain ⟨ls, hls⟩ := ih hrest
    exact ⟨c :: ls, .cons hc hls⟩

theorem OfHeaders.exists_mem {hs : List ForHeader} {ls : List CountedLoop} (h : OfHeaders hs ls)
    {c : CountedLoop} (hc : c ∈ ls) : ∃ k ∈ hs, ofHeader? k = some c := by
  induction h with
  | nil => cases hc
  | @cons k _ _ _ hk _ ih =>
    obtain rfl | hc := List.mem_cons.mp hc
    · exact ⟨k, List.mem_cons_self, hk⟩
    · obtain ⟨k, hmem, hk⟩ := ih hc
      exact ⟨k, List.mem_cons_of_mem _ hmem, hk⟩

/-- A nest, outermost loop first, whose bounds stay as they are while they count: they have no
effect, no first value depends on its own index, and none mentions an index counted further in. -/
structure WellNested (ls : List CountedLoop) : Prop where
  effectless : ∀ c ∈ ls, c.Effectless
  lower : ∀ c ∈ ls, c.index ∉ c.lower.mentioned
  inner : ls.Pairwise fun c d => d.index ∉ c.mentioned

theorem WellNested.tail {c : CountedLoop} {ls : List CountedLoop} (h : WellNested (c :: ls)) :
    WellNested ls where
  effectless := (List.forall_mem_cons.mp h.effectless).2
  lower := (List.forall_mem_cons.mp h.lower).2
  inner := (List.pairwise_cons.mp h.inner).2

def Apart (P : Cell → Prop) (ls : List CountedLoop) (a : Cell) : Prop :=
  P a ∧ ∀ c ∈ ls, a ≠ .of c.index

variable {P : Cell → Prop} {c : CountedLoop} {ls : List CountedLoop} {a : Cell} {μ ν : Memory}
  {v : Values}

theorem apart_of_reads (ha : c.Reads a) (hP : ∀ a, c.Reads a → P a)
    (hinner : ∀ d ∈ ls, d.index ∉ c.mentioned) : Apart P ls a := by
  refine ⟨hP a ha, ?_⟩
  rintro d hd rfl
  exact hinner d hd (Cell.in_of.mp ha.in_mentioned)

/-- The indices take these values at some iteration of the nest. -/
def Spans : List CountedLoop → Memory → Values → Prop
  | [], _, _ => True
  | c :: ls, μ, v =>
    c.Takes μ (v c.index) ∧ Spans ls (Function.update μ (.of c.index) (v c.index)) v

theorem Spans.congr (hw : WellNested ls) (hP : ∀ c ∈ ls, ∀ a, c.Reads a → P a)
    (hag : ∀ a, Apart P ls a → μ a = ν a) (h : Spans ls μ v) : Spans ls ν v := by
  induction ls generalizing μ ν with
  | nil => trivial
  | cons c ls ih =>
    obtain ⟨hc, hls⟩ := List.forall_mem_cons.mp hP
    have hinner := (List.pairwise_cons.mp hw.inner).1
    have hread {a : Cell} (ha : c.Reads a) (hne : a ≠ .of c.index) : μ a = ν a := by
      have hapart := apart_of_reads ha hc hinner
      exact hag a ⟨hapart.1, List.forall_mem_cons.mpr ⟨hne, hapart.2⟩⟩
    refine ⟨h.1.congr (hw.effectless c List.mem_cons_self) ?_ ?_, ih hw.tail hls ?_ h.2⟩
    · intro a ha
      refine hread (Or.inr (Or.inl ha)) ?_
      rintro rfl
      exact hw.lower c List.mem_cons_self (Cell.in_of.mp ha.in_mentioned)
    · exact fun a ha => hread (Or.inr (Or.inr ha))
    · intro a ha
      exact Memory.update_congr fun hne => hag a ⟨ha.1, List.forall_mem_cons.mpr ⟨hne, ha.2⟩⟩

section Nest

variable {hs : List ForHeader} {body : Memory → Memory → Prop} {ω : Memory} {ts : List Memory}

theorem nest_keeps (hls : OfHeaders hs ls) (hw : WellNested ls) (hbody : Keeps P body) :
    (Action.nest hs body).Keeps (Apart P ls) := by
  induction hls with
  | nil =>
    rintro μ ts ν ⟨-, hb⟩ a ha
    exact hbody μ ν hb a ha.1
  | cons hc _ ih =>
    intro μ ts ω hrun a ha
    obtain ⟨hne, hrest⟩ := List.forall_mem_cons.mp ha.2
    exact loop_keeps hc (hw.effectless _ List.mem_cons_self) (ih hw.tail) μ ts ω hrun a
      ⟨⟨ha.1, hrest⟩, hne⟩

/-- The innermost body runs for exactly the values that the bounds admit. -/
theorem nest_spans (hls : OfHeaders hs ls) (hw : WellNested ls)
    (hP : ∀ c ∈ ls, ∀ a, c.Reads a → P a) (hbody : Keeps P body)
    (hrun : Action.nest hs body μ ts ω) :
    (∀ ρ ∈ ts, Spans ls μ ρ.values ∧ ∀ a, Apart P ls a → ρ a = μ a) ∧
      ∀ v, Spans ls μ v → ∃ ρ ∈ ts, ∀ c ∈ ls, ρ (.of c.index) = v c.index := by
  induction hls generalizing μ ts ω with
  | nil =>
    obtain ⟨rfl, -⟩ := hrun
    simp [Spans]
  | @cons h c hs ls hc hls ih =>
    obtain ⟨hmem, hP⟩ := List.forall_mem_cons.mp hP
    have hinner := (List.pairwise_cons.mp hw.inner).1
    have hindex : Apart P ls (.of c.index) :=
      apart_of_reads (Or.inl rfl) hmem hinner
    obtain ⟨hsound, hcomplete⟩ := loop_passes hc (hw.effectless c List.mem_cons_self)
      (fun a ha => apart_of_reads ((reads_iff hc).mp ha) hmem hinner)
      (nest_keeps hls hw.tail hbody) hrun
    constructor
    · intro ρ hρ
      obtain ⟨n, us, hn, ⟨ρ₀, ω₀, hρ₀, hus⟩, hmemρ⟩ := hsound ρ hρ
      obtain ⟨hspans, hkeep⟩ := (ih hw.tail hP hus).1 ρ hmemρ
      obtain rfl : ρ.values c.index = n := by
        rw [Memory.values, hkeep _ hindex, hρ₀ _ hindex, Function.update_self]
      refine ⟨⟨hn, hspans.congr hw.tail hP hρ₀⟩, fun a ha => ?_⟩
      obtain ⟨hne, hrest⟩ := List.forall_mem_cons.mp ha.2
      rw [hkeep a ⟨ha.1, hrest⟩, hρ₀ a ⟨ha.1, hrest⟩, Function.update_of_ne hne]
    · rintro v ⟨hn, hspans⟩
      obtain ⟨us, ⟨ρ₀, ω₀, hρ₀, hus⟩, hsubset⟩ := hcomplete _ hn
      obtain ⟨hkeep, hex⟩ := ih hw.tail hP hus
      obtain ⟨ρ, hρ, hvalues⟩ := hex v (hspans.congr hw.tail hP fun a ha => (hρ₀ a ha).symm)
      refine ⟨ρ, hsubset hρ, List.forall_mem_cons.mpr ⟨?_, hvalues⟩⟩
      rw [(hkeep ρ hρ).2 _ hindex, hρ₀ _ hindex, Function.update_self]

end Nest

section Order

variable {d : CountedLoop} {os os' rs : List CountedLoop}

/-- Neither loop mentions the index of the other. -/
def Independent (c d : CountedLoop) : Prop := d.index ∉ c.mentioned ∧ c.index ∉ d.mentioned

theorem Independent.symm (h : Independent c d) : Independent d c := ⟨h.2, h.1⟩

theorem takes_update (he : c.Effectless) {x : Symbol} (hx : x ∉ c.mentioned) (m n : Int) :
    c.Takes (Function.update μ (.of x) m) n ↔ c.Takes μ n := by
  have hread (a : Cell) (ha : c.Reads a) : Function.update μ (.of x) m a = μ a := by
    refine Function.update_of_ne ?_ m μ
    rintro rfl
    exact hx (Cell.in_of.mp ha.in_mentioned)
  have hlower (a : Cell) (ha : c.lower.Reads a) := hread a (Or.inr (Or.inl ha))
  have hupper (a : Cell) (ha : c.upper.Reads a) := hread a (Or.inr (Or.inr ha))
  constructor
  · exact Takes.congr he hlower fun a ha _ => hupper a ha
  · exact Takes.congr he (fun a ha => (hlower a ha).symm) fun a ha _ => (hupper a ha).symm

theorem spans_swap (hc : c.Effectless) (hd : d.Effectless) (h : Independent c d) :
    Spans (c :: d :: ls) μ v ↔ Spans (d :: c :: ls) μ v := by
  have hne : Cell.of d.index ≠ .of c.index := by
    intro he
    exact h.1 (List.mem_cons.mpr (Or.inl (Root.binding.inj (congrArg Prod.fst he))))
  simp only [Spans, takes_update hd h.2, takes_update hc h.1, Function.update_comm hne,
    and_left_comm]

/-- Independent loops around others span the same in any order. -/
theorem spans_perm (hp : os.Perm os') (he : ∀ c ∈ os, c.Effectless)
    (hind : os.Pairwise Independent) : Spans (os ++ rs) μ v ↔ Spans (os' ++ rs) μ v := by
  induction hp generalizing μ with
  | nil => exact Iff.rfl
  | cons c _ ih =>
    obtain ⟨-, he⟩ := List.forall_mem_cons.mp he
    obtain ⟨-, hind⟩ := List.pairwise_cons.mp hind
    exact and_congr_right fun _ => ih he hind
  | swap c d os =>
    obtain ⟨hd, hrest⟩ := List.forall_mem_cons.mp he
    have hdc := (List.pairwise_cons.mp hind).1 c List.mem_cons_self
    exact spans_swap hd (hrest c List.mem_cons_self) hdc
  | trans h₁ _ ih₁ ih₂ =>
    have he₂ := fun c hc => he c (h₁.mem_iff.mpr hc)
    exact (ih₁ he hind).trans (ih₂ he₂ (hind.perm h₁ Independent.symm))

theorem WellNested.perm (hw : WellNested (os ++ rs)) (hp : os.Perm os')
    (hind : os.Pairwise Independent) : WellNested (os' ++ rs) := by
  have hmem {c : CountedLoop} : c ∈ os ++ rs ↔ c ∈ os' ++ rs := (hp.append_right rs).mem_iff
  obtain ⟨-, hrs, hcross⟩ := List.pairwise_append.mp hw.inner
  refine ⟨fun c hc => hw.effectless c (hmem.mpr hc), fun c hc => hw.lower c (hmem.mpr hc), ?_⟩
  refine List.pairwise_append.mpr ⟨?_, hrs, fun c hc => hcross c (hp.mem_iff.mpr hc)⟩
  exact (hind.perm hp Independent.symm).imp And.left

/-- Where no loop down to a depth mentions the index of another of them, the outermost may change
places with the one at that depth. -/
theorem spans_exchanged {n : Nat} (hw : WellNested ls) (hn : n < ls.length)
    (hrect : (ls.take (n + 1)).Pairwise fun c d => c.index ∉ d.mentioned) :
    WellNested (exchanged 0 n ls) ∧ ∀ μ v, Spans (exchanged 0 n ls) μ v ↔ Spans ls μ v := by
  obtain ⟨os, rs, rfl, hlength⟩ : ∃ os rs, ls = os ++ rs ∧ os.length = n + 1 :=
    ⟨ls.take (n + 1), ls.drop (n + 1), (List.take_append_drop ..).symm, by simp; omega⟩
  rw [← hlength, List.take_left] at hrect
  rw [exchanged_append (by omega) (by omega)]
  have hind : os.Pairwise Independent := (List.pairwise_append.mp hw.inner).1.and hrect
  have hp := (exchanged_perm (i := 0) (j := n) os).symm
  refine ⟨hw.perm hp hind, fun μ v => (spans_perm hp (fun c hc => ?_) hind).symm⟩
  exact hw.effectless c (List.mem_append_left rs hc)

end Order

/-- Both orders of a nest run the innermost body for the same values of the indices. -/
theorem mem_tuples_exchanged {hs : List ForHeader} {body : Memory → Memory → Prop} {n : Nat}
    {ω ω' : Memory} {ts us : List Memory}
    (hls : OfHeaders hs ls) (hw : WellNested ls)
    (hbody : Keeps (fun a => ∃ h ∈ hs, h.Reads a) body)
    (hn : n < ls.length) (hrect : (ls.take (n + 1)).Pairwise fun c d => c.index ∉ d.mentioned)
    (hrun : Action.nest hs body μ ts ω) (hrun' : Action.nest (exchanged 0 n hs) body μ us ω')
    (p : List Int) :
    p ∈ ts.map (fun ρ => ls.map fun c => ρ (.of c.index)) ↔
      p ∈ us.map (fun ρ => ls.map fun c => ρ (.of c.index)) := by
  obtain ⟨hw', hspans⟩ := spans_exchanged hw hn hrect
  have hmem {c : CountedLoop} : c ∈ exchanged 0 n ls ↔ c ∈ ls := (exchanged_perm ls).mem_iff
  have hP (c : CountedLoop) (hc : c ∈ ls) (a : Cell) (ha : c.Reads a) : ∃ h ∈ hs, h.Reads a := by
    obtain ⟨h, hh, hc⟩ := hls.exists_mem hc
    exact ⟨h, hh, (reads_iff hc).mpr ha⟩
  obtain ⟨hsound, hcomplete⟩ := nest_spans hls hw hP hbody hrun
  obtain ⟨hsound', hcomplete'⟩ := nest_spans (forall₂_exchanged hls) hw'
    (fun c hc => hP c (hmem.mp hc)) hbody hrun'
  constructor
  · intro hp
    obtain ⟨ρ, hρ, rfl⟩ := List.mem_map.mp hp
    obtain ⟨τ, hτ, heq⟩ := hcomplete' _ ((hspans μ _).mpr (hsound ρ hρ).1)
    exact List.mem_map.mpr ⟨τ, hτ, List.map_congr_left fun c hc => heq c (hmem.mpr hc)⟩
  · intro hp
    obtain ⟨ρ, hρ, rfl⟩ := List.mem_map.mp hp
    obtain ⟨τ, hτ, heq⟩ := hcomplete _ ((hspans μ _).mp (hsound' ρ hρ).1)
    exact List.mem_map.mpr ⟨τ, hτ, List.map_congr_left fun c hc => heq c hc⟩

end CountedLoop

/-- The headers of the loop and of the perfect nest in its body. -/
def ForLoop.headers (l : ForLoop) : List ForHeader := l.nest.map ForLoop.header

namespace Transformation

def exchangeDepth? : Transformation → Option Nat
  | interchange depth => some depth
  | tile .. => some 1
  | _ => none

theorem of_require {b : Bool} {o : Obstacle} (ho : o.severity ≠ .warning)
    (h : ∀ d ∈ require b o, d.severity = .warning) : b = true := by
  cases b with
  | true => rfl
  | false => exact absurd (h _ (List.mem_singleton_self _)) ho

theorem depth_lt_of_warnings {c : CheckContext} {sel : Selection} {l : ForLoop}
    {t : Transformation} {n : Nat} (ht : t.exchangeDepth? = some n)
    (h : ∀ d ∈ t.formFindings c sel l, d.severity = .warning) : n < l.nest.length := by
  cases t with
  | interchange depth =>
    cases ht
    exact of_decide_eq_true (of_require (by decide) h)
  | tile w k =>
    cases ht
    exact of_decide_eq_true (of_require (by decide) (List.forall_mem_append.mp h).2)
  | _ => cases ht

end Transformation

namespace Table

def clear : Expr :=
  .assign .plain (.subscript (.subscript (.ident 2 .none) (.ident 0 .none) .none) (.ident 1 .none)
    .none) (.int 0 .none) .none

/-- `for (i = 0; i < 2; i++) for (j = 0; j < upper; j++) a[i][j] = 0;` -/
def loop (upper : Expr) : ForLoop where
  header := NestedBound.header 0 0 (.int 2 .none)
  body := .forLoop (NestedBound.header 1 1 upper) (.expr clear ⟨.none, []⟩) ⟨.none, []⟩
  site := ⟨.none, []⟩

def counted (upper : Expr) : List CountedLoop :=
  [NestedBound.counted 0 0 (.int 2 .none), NestedBound.counted 1 1 upper]

def selection (upper : Expr) : Selection where
  before := []
  stmt := (loop upper).stmt
  after := []
  depth := 0

def checkContext (upper : Expr) : CheckContext where
  program := ⟨[], [], .empty⟩
  function := ⟨"clear", 3, [], (loop upper).stmt, .none⟩
  config := ⟨[], false, false, none⟩

theorem keeps_clear (upper : Expr) (h : ∀ c ∈ counted upper, 2 ∉ c.mentioned) :
    Keeps (fun a => ∃ k ∈ (loop upper).headers, k.Reads a) clear.effect := by
  refine keeps_of_update (p := fun μ => (.binding 2, [.element (μ (.of 0)), .element (μ (.of 1))]))
    (fun _ => rfl) ?_
  rintro μ ⟨k, hk, hreads⟩
  obtain ⟨c, hc, hk⟩ : ∃ c ∈ counted upper, CountedLoop.ofHeader? k = some c := by
    obtain rfl | rfl := List.mem_pair.mp hk
    · exact ⟨_, List.mem_cons_self, rfl⟩
    · exact ⟨_, List.mem_cons_of_mem _ List.mem_cons_self, rfl⟩
  exact h c hc ((CountedLoop.reads_iff hk).mp hreads).in_mentioned.1

theorem wellNested_counted : CountedLoop.WellNested (counted (.int 3 .none)) where
  effectless := List.forall_mem_cons.mpr ⟨⟨rfl, rfl⟩, List.forall_mem_singleton.mpr ⟨rfl, rfl⟩⟩
  lower := List.forall_mem_cons.mpr ⟨by decide, List.forall_mem_singleton.mpr (by decide)⟩
  inner := List.pairwise_pair.mpr (by decide)

def cell (i j : Int) : Memory := Function.update (Function.update (fun _ => 0) (.of 0) i) (.of 1) j

theorem set_row (j m n : Int) :
    some ((), Function.update (cell m j) (.of 0) n) = some ((), cell n j) := by
  have hne : Cell.of 0 ≠ .of 1 := by decide
  rw [cell, Function.update_comm hne, Function.update_idem, Function.update_comm hne.symm]
  rfl

theorem set_column (i m n : Int) :
    some ((), Function.update (cell i m) (.of 1) n) = some ((), cell i n) := by
  rw [cell, Function.update_idem]
  rfl

theorem clear_cell (i j : Int) : clear.effect (cell i j) (cell i j) := by
  refine ⟨0, congrArg (fun μ => some (0, μ)) ?_⟩
  exact Function.update_eq_self (Root.binding 2, [.element i, .element j]) (cell i j)

theorem run_row (i j : Int) :
    (NestedBound.header 1 1 (.int 3 .none)).loop (.leaf clear.effect) (cell i j)
      ([cell i 0] ++ ([cell i 1] ++ ([cell i 2] ++ []))) (cell i 3) :=
  ⟨cell i 0, set_column i j 0, .next rfl ⟨rfl, clear_cell i 0⟩ (set_column i 0 1)
    (.next rfl ⟨rfl, clear_cell i 1⟩ (set_column i 1 2)
      (.next rfl ⟨rfl, clear_cell i 2⟩ (set_column i 2 3) (.stop rfl)))⟩

theorem run_column (i j : Int) :
    (NestedBound.header 0 0 (.int 2 .none)).loop (.leaf clear.effect) (cell i j)
      ([cell 0 j] ++ ([cell 1 j] ++ [])) (cell 2 j) :=
  ⟨cell 0 j, set_row j i 0, .next rfl ⟨rfl, clear_cell 0 j⟩ (set_row j 0 1)
    (.next rfl ⟨rfl, clear_cell 1 j⟩ (set_row j 1 2) (.stop rfl))⟩

theorem run_rows : ∃ ts ω,
    Action.nest (loop (.int 3 .none)).headers clear.effect (cell 0 0) ts ω ∧ ts.length = 6 :=
  ⟨_, _, ⟨cell 0 0, set_row 0 0 0, .next rfl (run_row 0 0) (set_row 3 0 1)
    (.next rfl (run_row 1 3) (set_row 3 1 2) (.stop rfl))⟩, rfl⟩

theorem run_columns : ∃ us ω,
    Action.nest (exchanged 0 1 (loop (.int 3 .none)).headers) clear.effect (cell 0 0) us ω :=
  ⟨_, _, ⟨cell 0 0, set_column 0 0 0, .next rfl (run_column 0 0) (set_column 2 0 1)
    (.next rfl (run_column 2 1) (set_column 2 1 2)
      (.next rfl (run_column 2 2) (set_column 2 2 3) (.stop rfl)))⟩⟩

end Table

end LoopLegality
