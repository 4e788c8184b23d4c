import LoopLegality.Nest
import LoopLegality.Proofs.DependenceSet
import LoopLegality.Proofs.Exchange
import LoopLegality.Transformation.Check

namespace LoopLegality

variable {i j : Nat}

theorem Dependence.Kind.isTrue_iff {k : Dependence.Kind} :
    k.isTrue = true ↔ k = .flow ∨ k = .anti ∨ k = .output := by
  cases k <;> decide

namespace Direction

variable {v : List Direction} {ns : List Int}

theorem IsExact.admits_sign {d : Direction} (h : d.IsExact) {n : Int} (hn : d.Admits n) :
    (d.mayBeForward = true ↔ 0 < n) ∧ (d = eq ↔ n = 0) := by
  obtain rfl | rfl | rfl := h
  · have hpos : 0 < n := hn
    simp [mayBeForward, hpos, hpos.ne']
  · have hzero : n = 0 := hn
    simp [mayBeForward, hzero]
  · have hneg : n < 0 := hn
    simp [mayBeForward, hneg.le, hneg.ne]

/-- Exact entries tell the signs of the distances, so the first entry other than `=` tells whether
the distances are in order. -/
theorem isOrdered_iff_lexNonnegative (h : List.Forall₂ Admits v ns) (hv : ∀ d ∈ v, d.IsExact) :
    isOrdered v = true ↔ LexNonnegative ns := by
  induction h with
  | nil => simp [isOrdered, LexNonnegative]
  | @cons d n v ns hd _ ih =>
    rw [List.forall_mem_cons] at hv
    obtain ⟨hforward, hzero⟩ := hv.1.admits_sign hd
    rw [LexNonnegative, ← hforward, ← hzero, ← ih hv.2]
    cases d <;> simp [isOrdered, mayBeForward]

theorem isOrdered_exchanged_iff_of_isExact (hv : ∀ d ∈ v, d.IsExact) :
    (isOrdered v = true → isOrdered (exchanged i j v) = true) ↔
      ∀ ns, List.Forall₂ Admits v ns → LexNonnegative ns → LexNonnegative (exchanged i j ns) := by
  have hexchanged : ∀ d ∈ exchanged i j v, d.IsExact :=
    fun d hd => hv d ((exchanged_perm v).mem_iff.mp hd)
  have hsigns (ns : List Int) (hns : List.Forall₂ Admits v ns) :
      (isOrdered v = true → isOrdered (exchanged i j v) = true) ↔
        (LexNonnegative ns → LexNonnegative (exchanged i j ns)) := by
    rw [isOrdered_iff_lexNonnegative hns hv,
      isOrdered_iff_lexNonnegative (forall₂_exchanged hns) hexchanged]
  -- some distances have the signs of the vector, so the right side is not void
  exact ⟨fun h ns hns => (hsigns ns hns).mp h,
    fun h => (hsigns _ (forall₂_admits_sample v)).mpr (h _ (forall₂_admits_sample v))⟩

end Direction

/-- Where all entries are exact, two loops may change places exactly if the exchange keeps in order
every distance vector that is in order and has the signs of a dependence between a write and another
access. Neither the order of the two loops nor that of the dependences matters. -/
theorem interchangeable_iff_of_isExact {ds : List Dependence}
    (hin : ∀ d ∈ ds, i < d.direction.length ∧ j < d.direction.length)
    (hexact : ∀ d ∈ ds, ∀ e ∈ d.direction, e.IsExact) :
    (∃ b, interchangeable i j ds = .ok b) ∧
      (interchangeable i j ds = .ok true ↔
        ∀ d ∈ ds, d.kind = .flow ∨ d.kind = .anti ∨ d.kind = .output →
          ∀ ns, List.Forall₂ Direction.Admits d.direction ns → LexNonnegative ns →
            LexNonnegative (exchanged i j ns)) ∧
      interchangeable j i ds = interchangeable i j ds ∧
      ∀ es, es.Perm ds → interchangeable i j es = interchangeable i j ds := by
  have heq := interchangeable_eq_all hin
  refine ⟨⟨_, heq⟩, ?_, ?_, fun es hperm => ?_⟩
  · rw [interchangeable_eq_ok hin]
    refine forall₂_congr fun d hd => ?_
    rw [Dependence.Kind.isTrue_iff]
    exact imp_congr_right fun _ => Direction.isOrdered_exchanged_iff_of_isExact (hexact d hd)
  · rw [heq, interchangeable_eq_all fun d hd => (hin d hd).symm]
    have hcomm : Dependence.allowsExchange j i = Dependence.allowsExchange i j := by
      funext d
      rw [Dependence.allowsExchange, Dependence.allowsExchange, exchanged_comm]
    rw [hcomm]
  · rw [heq, interchangeable_eq_all fun d hd => hin d (hperm.mem_iff.mp hd), hperm.all_eq]

open Direction in
theorem interchangeable_exactOuter :
    (∀ d ∈ [Dependence.along [lt, eq, gt], .along [eq, lt, gt]], ∀ e ∈ d.direction, e.IsExact) ∧
      interchangeable 0 1 [.along [lt, eq, gt], .along [eq, lt, gt]] = .ok true ∧
      LexNonnegative (exchanged 0 1 [2, 0, -5]) ∧
      interchangeable 1 0 [.along [lt, eq, gt], .along [eq, lt, gt]] = .ok true ∧
      interchangeable 0 1 [.along [eq, lt, gt], .along [lt, eq, gt]] = .ok true := by
  have hin : ∀ d ∈ [Dependence.along [lt, eq, gt], .along [eq, lt, gt]],
      0 < d.direction.length ∧ 1 < d.direction.length := by simp [Dependence.along]
  have hexact : ∀ d ∈ [Dependence.along [lt, eq, gt], .along [eq, lt, gt]],
      ∀ e ∈ d.direction, e.IsExact := by simp [Dependence.along, IsExact]
  have hok : interchangeable 0 1 [.along [lt, eq, gt], .along [eq, lt, gt]] = .ok true := rfl
  obtain ⟨-, hiff, hcomm, hperm⟩ := interchangeable_iff_of_isExact hin hexact
  refine ⟨hexact, hok, ?_, hcomm.trans hok, (hperm _ (.swap ..)).trans hok⟩
  refine hiff.mp hok (.along [lt, eq, gt]) List.mem_cons_self (Or.inl rfl) _ ?_ ?_
  · simp [Dependence.along, Admits]
  · simp [LexNonnegative]

theorem Stmt.firstLoop?_of_nest {b : Stmt} {l : ForLoop} {ls : List ForLoop}
    (h : b.nest = l :: ls) : b.firstLoop? = some l ∧ l.body.nest = ls := by
  rw [nest.eq_def] at h
  split at h
  · cases h
    exact ⟨rfl, rfl⟩
  · cases h
    exact ⟨rfl, rfl⟩
  · cases h

theorem ForLoop.descend?_eq_getElem (l : ForLoop) {d : Nat} (hd : d < l.nest.length) :
    l.descend? d = some l.nest[d] := by
  induction d generalizing l with
  | zero => rfl
  | succ d ih =>
    cases hnest : l.body.nest with
    | nil => simp [nest, hnest] at hd
    | cons inner ls =>
      obtain ⟨hfirst, hrest⟩ := Stmt.firstLoop?_of_nest hnest
      have hinner : inner.nest = l.body.nest := by rw [nest, hrest, hnest]
      have hlt : d < inner.nest.length := by
        rw [hinner]
        exact Nat.lt_of_succ_lt_succ hd
      rw [descend?, hfirst]
      simpa [nest, hrest, hnest] using ih inner hlt

theorem Stmt.hasLoop_of_mem_nest {st : Stmt} {l : ForLoop} (h : l ∈ st.nest) :
    st.HasLoop l.header := by
  fun_induction Stmt.nest st with
  | case1 f b s ih =>
    obtain rfl | h := List.mem_cons.mp h
    · exact .self ..
    · exact .body _ _ (ih h)
  | case2 f b s t ih =>
    refine .item t List.mem_cons_self ?_
    obtain rfl | h := List.mem_cons.mp h
    · exact .self ..
    · exact .body _ _ (ih h)
  | case3 => cases h

theorem ForLoop.hasLoop_of_mem_nest {l k : ForLoop} (h : k ∈ l.nest) :
    l.stmt.HasLoop k.header := by
  have hstmt : k ∈ l.stmt.nest := h
  exact Stmt.hasLoop_of_mem_nest hstmt

/-- In a perfect nest all uses outside headers are inside all of its loops. -/
theorem Stmt.Uses.nest_prefix {c : Touch.Context} {b : Stmt} {ids : List LoopId} {u : Use}
    (h : b.Uses c ids .statement u) : b.nest.map (·.header.id) <+: ids := by
  fun_induction Stmt.nest b generalizing ids with
  | case1 f b s ih =>
    obtain ⟨rest, rfl, hb⟩ := uses_forLoop.mp h
    exact List.prefix_cons_inj f.id |>.mpr (ih hb)
  | case2 f b s s' ih =>
    obtain ⟨st, hst, hu⟩ := uses_compound.mp h
    obtain rfl := List.mem_singleton.mp hst
    obtain ⟨rest, rfl, hb⟩ := uses_forLoop.mp hu
    exact List.prefix_cons_inj f.id |>.mpr (ih hb)
  | case3 => exact List.nil_prefix

namespace Analyzer

variable {a : Analyzer} {l : ForLoop} {an : DependenceAnalysis}

theorem nest_prefix_of_mem_accesses (h : a.analyze [l.stmt] = .ok an) {b : Access}
    (hb : b ∈ an.accesses) : l.nest.map (·.header.id) <+: b.loops := by
  obtain ⟨hcollect, -⟩ := analyze_eq_ok h
  obtain ⟨st, hst, hu⟩ :=
    (Collector.records_iff hcollect b.loops b.use).mp ⟨b, hb, rfl, rfl⟩
  obtain rfl := List.mem_singleton.mp hst
  exact hu.nest_prefix

theorem take_loops_of_mem_accesses (h : a.analyze [l.stmt] = .ok an) {b : Access}
    (hb : b ∈ an.accesses) {d : Nat} (hd : d < l.nest.length) :
    b.loops.take (d + 1) = (l.nest.take (d + 1)).map (·.header.id) := by
  obtain ⟨rest, hrest⟩ := nest_prefix_of_mem_accesses h hb
  rw [← hrest, List.take_append_of_le_length (by simpa using hd), List.map_take]

theorem lt_length_of_mem_dependences (h : a.analyze [l.stmt] = .ok an) {e : Dependence}
    (he : e ∈ an.dependences) {d : Nat} (hd : d < l.nest.length) : d < e.direction.length := by
  have hwell := wellFormed_of_mem h he
  have hsource := nest_prefix_of_mem_accesses h hwell.source
  refine (hwell.length d).mpr ⟨?_, ?_⟩
  · have hlength := hsource.length_le
    rw [List.length_map] at hlength
    exact hd.trans_le hlength
  · rw [take_loops_of_mem_accesses h hwell.source hd, take_loops_of_mem_accesses h hwell.sink hd]

end Analyzer

/-- As far as the perfect nest of a loop reaches, the three walks through it agree: going into first
loops finds its loops, all accesses stand inside them, and all dependences take part in the test of
an exchange. -/
theorem ForLoop.descend?_and_spanning {l : ForLoop} {d : Nat} (hd : d < l.nest.length) :
    l.descend? d = some l.nest[d] ∧ ∀ (a : Analyzer) (an : DependenceAnalysis),
      a.analyze [l.stmt] = .ok an →
        (∀ b ∈ an.accesses, b.loops.take (d + 1) = (l.nest.take (d + 1)).map (·.header.id)) ∧
        (∀ e ∈ an.dependences, d < e.direction.length) ∧
        an.dependences.filter (d < ·.direction.length) = an.dependences ∧
        Transformation.interchangeFindings an d = (interchangeable 0 d an.dependences).map
          (Transformation.require · (.interchangeReverses d)) := by
  refine ⟨l.descend?_eq_getElem hd, fun a an h => ?_⟩
  have hlength : ∀ e ∈ an.dependences, d < e.direction.length :=
    fun e he => Analyzer.lt_length_of_mem_dependences h he hd
  have hall : an.dependences.filter (d < ·.direction.length) = an.dependences :=
    List.filter_eq_self.mpr fun e he => decide_eq_true (hlength e he)
  refine ⟨fun b hb => Analyzer.take_loops_of_mem_accesses h hb hd, hlength, hall, ?_⟩
  rw [Transformation.interchangeFindings, hall]
  cases interchangeable 0 d an.dependences <;> rfl

namespace BracedNest

open NestedBound (header)

def inner : Stmt :=
  .forLoop (header 2 2 (.int 8 .none))
    (.expr (.assign (.compound .add) (.ident 3 .none) (.ident 2 .none) .none) ⟨.none, []⟩)
    ⟨.none, []⟩

/-- `for (i = 0; i < 8; i++) { for (j = 0; j < 8; j++) for (k = 0; k < 8; k++) s += k; }` -/
def loop : ForLoop where
  header := header 0 0 (.int 8 .none)
  body := .compound [.forLoop (header 1 1 (.int 8 .none)) inner ⟨.none, []⟩] ⟨.none, []⟩
  site := ⟨.none, []⟩

def analyzer : Analyzer where
  symbols := .empty
  calls := ⟨[], []⟩
  config := .default

end BracedNest

open BracedNest in
/-- With braces around the second of three loops and none around the third, the dependences of the
sum reach to the innermost loop, and all of them count. -/
theorem ForLoop.spanning_bracedNest :
    2 < loop.nest.length ∧ loop.descend? 2 = some loop.nest[2] ∧
      ∃ an, analyzer.analyze [loop.stmt] = .ok an ∧ an.dependences.length = 3 ∧
        an.dependences.filter (2 < ·.direction.length) = an.dependences := by
  have hd : 2 < loop.nest.length := by decide
  obtain ⟨hdescend, hanalysis⟩ := descend?_and_spanning hd
  obtain ⟨an, h⟩ : ∃ an, analyzer.analyze [loop.stmt] = .ok an := ⟨_, rfl⟩
  refine ⟨hd, hdescend, an, h, ?_, (hanalysis analyzer an h).2.2.1⟩
  cases h
  rfl

end LoopLegality
