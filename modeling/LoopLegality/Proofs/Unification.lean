import LoopLegality.Proofs.Approval
import LoopLegality.Proofs.Counting

namespace LoopLegality

theorem IndexMap.mem_values {α : Type} {m : IndexMap α} {k : Nat} {v : α}
    (h : m.get? k = some v) : v ∈ m.values := by
  obtain ⟨es, hs⟩ := m
  simp only [get?, values] at h ⊢
  clear hs
  induction es with
  | nil => cases h
  | cons e es ih =>
    rw [find] at h
    split at h
    · cases h
      exact List.mem_cons_self
    · exact List.mem_cons_of_mem _ (ih h)

namespace Alignment

def OneToOne (m : IndexMap Symbol) : Prop :=
  ∀ y z x, m.get? y = some x → m.get? z = some x → y = z

theorem OneToOne.insert {m : IndexMap Symbol} (h : OneToOne m) {x y : Symbol}
    (hx : x ∉ m.values) : OneToOne (m.insert y x) := by
  intro u v w hu hv
  rw [IndexMap.get?_insert] at hu hv
  split at hu <;> split at hv
  · next hyu hyv => exact hyu.symm.trans hyv
  · cases hu
    exact absurd (IndexMap.mem_values hv) hx
  · cases hv
    exact absurd (IndexMap.mem_values hu) hx
  · exact h u v w hu hv

/-- The renaming holds every pair and is one to one. -/
theorem renaming?_eq_some {ps : Alignment} {m m' : IndexMap Symbol}
    (h : renaming? ps m = some m') (hm : OneToOne m) :
    (∀ p ∈ ps, m'.get? p.2 = some p.1) ∧ (∀ y x, m.get? y = some x → m'.get? y = some x) ∧
      OneToOne m' := by
  induction ps generalizing m with
  | nil =>
    cases h
    exact ⟨nofun, fun _ _ hx => hx, hm⟩
  | cons p ps ih =>
    obtain ⟨x, y⟩ := p
    rw [renaming?] at h
    split at h
    · next x' hget =>
      split at h
      · next hx =>
        obtain ⟨hps, hext, hone⟩ := ih h hm
        exact ⟨List.forall_mem_cons.mpr ⟨hext y x (hx ▸ hget), hps⟩, hext, hone⟩
      · cases h
    · next hget =>
      split at h
      · cases h
      · next hfresh =>
        obtain ⟨hps, hext, hone⟩ := ih h (hm.insert (by simpa using hfresh))
        have hy : m'.get? y = some x := hext y x (by rw [IndexMap.get?_insert, if_pos rfl])
        refine ⟨List.forall_mem_cons.mpr ⟨hy, hps⟩, fun z w hz => hext z w ?_, hone⟩
        have hne : y ≠ z := by
          rintro rfl
          rw [hget] at hz
          cases hz
        rw [IndexMap.get?_insert, if_neg hne, hz]

end Alignment

section Clauses

variable {r : Symbol → Symbol} {ss : List (Span × Span)} {xs : List Symbol} {i j : Symbol}
  {ps : Alignment} {e d : Expr}

theorem Declarator.scalar_of_align? {d e : Declarator} (h : d.align? e = some ps)
    (hj : ps.Joins r) (hdims : d.dims = []) {a : Expr} (ha : d.init = some (.expr a)) :
    e.dims = [] ∧ e.pointer = d.pointer ∧ d.symbol = r e.symbol ∧
      ∃ b qs us, e.init = some (.expr b) ∧ a.Aligned b qs us ∧ qs.Joins r := by
  obtain ⟨hp, h⟩ := Alignment.when_eq_some.mp h
  obtain ⟨_, _, ⟨⟩, hrest, rfl⟩ := Alignment.append?_eq_some.mp h
  obtain ⟨qs, rs, hqs, hrs, rfl⟩ := Alignment.append?_eq_some.mp hrest
  obtain ⟨hjsym, hjrest⟩ := Alignment.joins_append.mp hj
  rw [hdims] at hqs
  rw [ha] at hrs
  have hnil : e.dims = [] := by
    cases hd : e.dims with
    | nil => rfl
    | cons => rw [hd] at hqs; cases hqs
  obtain ⟨⟨⟩, -⟩ | ⟨x, y, hx, hy, hxy⟩ := Alignment.optional?_eq_some hrs
  cases hx
  cases y with
  | list => cases hxy
  | expr b =>
    obtain ⟨us, hab⟩ := Expr.aligned_of_align? a b hxy
    exact ⟨hnil, (eq_of_beq hp).symm, hjsym _ (List.mem_singleton_self _), b, rs, us, hy, hab,
      (Alignment.joins_append.mp hjrest).2⟩

namespace CountedLoop

theorem start?_of_align? {a b : ForInit} (h : a.align? b = some ps) (hj : ps.Joins r)
    {e : Expr} {d : Bool} (ha : start? a = some (i, e, d)) :
    ∃ j f qs us, start? b = some (j, f, d) ∧ i = r j ∧ e.Aligned f qs us ∧ qs.Joins r := by
  obtain ⟨s, t, u, rfl, rfl⟩ | ⟨x, s, rfl, rfl, rfl, hdims, hpointer, hinit⟩ :=
    exists_of_start? ha
  · cases b with
    | decl | null => cases h
    | expr b t =>
      obtain ⟨us, h⟩ := Expr.aligned_of_align? _ _ h
      cases h with
      | assign _ _ _ hx he =>
        obtain ⟨hjx, hje⟩ := Alignment.joins_append.mp hj
        cases hx with
        | ident => exact ⟨_, _, _, _, rfl, hjx _ List.mem_cons_self, he, hje⟩
  · cases b with
    | expr | null => cases h
    | decl b =>
      obtain ⟨ds, t⟩ := b
      cases ds with
      | nil => cases h
      | cons y ds =>
        obtain ⟨qs, rs, hqs, hrs, rfl⟩ := Alignment.append?_eq_some.mp h
        cases ds with
        | cons => cases hrs
        | nil =>
          obtain ⟨hdims', hp, heq, b, qs', us, hb, hab, hjab⟩ := Declarator.scalar_of_align? hqs
            (Alignment.joins_append.mp hj).1 hdims hinit
          refine ⟨y.symbol, b, qs', us, ?_, heq, hab, hjab⟩
          simp [start?, hdims', hp, hpointer, hb]

theorem ident?_iff (hinj : Set.InjOn r {x | x ∈ xs}) {us : List (Span × Span)}
    (h : e.Aligned d ps us) (hps : ps.Joins r) (hd : d.mentioned ⊆ xs) (hj : j ∈ xs) :
    e.ident? = some (r j) ↔ d.ident? = some j := by
  cases h with
  | ident x y s t =>
    obtain rfl : x = r y := hps _ List.mem_cons_self
    have hy : y ∈ xs := hd List.mem_cons_self
    simp only [Expr.ident?, Option.some.injEq]
    exact ⟨fun h => hinj hy hj h, fun h => h ▸ rfl⟩
  | _ => simp [Expr.ident?]

theorem limit?_of_aligned (hinj : Set.InjOn r {x | x ∈ xs}) {us : List (Span × Span)}
    (h : e.Aligned d ps us) (hps : ps.Joins r) (hd : d.mentioned ⊆ xs) (hj : j ∈ xs) {u : Expr}
    {b : Bool} (he : limit? (r j) e = some (u, b)) : ∃ v, limit? j d = some (v, b) := by
  unfold limit? at he
  split at he
  case h_3 => cases he
  all_goals
    obtain ⟨hx, hu⟩ := Option.ite_none_right_eq_some.mp he
    cases hu
    cases h with
    | binary _ _ _ hl hr =>
      have hsub := List.append_subset.mp (Expr.mentioned_binary .. ▸ hd)
      have hleft := ident?_iff hinj hl (Alignment.joins_append.mp hps).1 hsub.1 hj
      exact ⟨_, if_pos (hleft.mp hx)⟩

theorem step?_of_aligned (hinj : Set.InjOn r {x | x ∈ xs}) {us : List (Span × Span)}
    (h : e.Aligned d ps us) (hps : ps.Joins r) (hd : d.mentioned ⊆ xs) (hj : j ∈ xs) {k : Int}
    (he : step? (r j) e = some k) : step? j d = some k := by
  unfold step? at he
  split at he
  case h_5 => cases he
  · cases h with
    | unary _ _ _ ha => simpa only [step?, ident?_iff hinj ha hps hd hj] using he
  · cases h with
    | unary _ _ _ ha => simpa only [step?, ident?_iff hinj ha hps hd hj] using he
  · cases h with
    | assign _ _ _ hl hr =>
      have hsub := List.append_subset.mp (Expr.mentioned_assign .. ▸ hd)
      have hjoin := Alignment.joins_append.mp hps
      simpa only [step?, ident?_iff hinj hl hjoin.1 hsub.1 hj, hr.int?] using he
  · cases h with
    | assign _ _ _ hl hr =>
      have hsub := List.append_subset.mp (Expr.mentioned_assign .. ▸ hd)
      have hjoin := Alignment.joins_append.mp hps
      cases hr with
      | binary _ _ _ ha hb =>
        have hsub' := List.append_subset.mp (Expr.mentioned_binary .. ▸ hsub.2)
        have hjoin' := Alignment.joins_append.mp hjoin.2
        simpa only [step?, ident?_iff hinj hl hjoin.1 hsub.1 hj,
          ident?_iff hinj ha hjoin'.1 hsub'.1 hj, ident?_iff hinj hb hjoin'.2 hsub'.2 hj,
          ha.int?, hb.int?] using he

end CountedLoop

end Clauses

/-- Pairs the sizes of types that two headers ask for, in the order written. -/
def ForHeader.sizePairs (h k : ForHeader) : List (Span × Span) := h.typeSizes.zip k.typeSizes

/-- Two counted headers of one shape, the second in other names. -/
structure ForHeader.Unified (r : Symbol → Symbol) (h k : ForHeader) (c d : CountedLoop) :
    Prop where
  first : CountedLoop.ofHeader? h = some c
  second : CountedLoop.ofHeader? k = some d
  injOn : Set.InjOn r {x | x ∈ k.mentioned}
  index : c.index = r d.index
  lower : c.lower.Matches r (h.sizePairs k) d.lower
  cond : ∃ e f, h.cond = some e ∧ k.cond = some f ∧ e.Matches r (h.sizePairs k) f
  incr : ∃ e f, h.incr = some e ∧ k.incr = some f ∧ e.Matches r (h.sizePairs k) f

theorem ForHeader.unified_of_align? {h k : ForHeader} {ps : Alignment} {r : Symbol → Symbol}
    (halign : h.align? k = some ps) (hj : ps.Joins r)
    (hinj : Set.InjOn r {x | x ∈ k.mentioned}) {c : CountedLoop}
    (hc : CountedLoop.ofHeader? h = some c) : ∃ d, h.Unified r k c d := by
  obtain ⟨init, cond, incr, hinit, hcond, hincr, hstart, hlimit, hstep⟩ :=
    CountedLoop.ofHeader?_eq_some hc
  rw [ForHeader.align?, hinit, hcond, hincr] at halign
  obtain ⟨ps₁, _, h₁, hrest, rfl⟩ := Alignment.append?_eq_some.mp halign
  obtain ⟨ps₂, ps₃, h₂, h₃, rfl⟩ := Alignment.append?_eq_some.mp hrest
  obtain ⟨hj₁, hjrest⟩ := Alignment.joins_append.mp hj
  obtain ⟨hj₂, hj₃⟩ := Alignment.joins_append.mp hjrest
  obtain ⟨⟨⟩, -⟩ | ⟨_, init', ⟨⟩, hinit', h₁⟩ := Alignment.optional?_eq_some h₁
  obtain ⟨⟨⟩, -⟩ | ⟨_, cond', ⟨⟩, hcond', h₂⟩ := Alignment.optional?_eq_some h₂
  obtain ⟨⟨⟩, -⟩ | ⟨_, incr', ⟨⟩, hincr', h₃⟩ := Alignment.optional?_eq_some h₃
  obtain ⟨j, lower, qs, us₁, hstart', hindex, hlower, hjl⟩ :=
    CountedLoop.start?_of_align? h₁ hj₁ hstart
  obtain ⟨us₂, hmc⟩ := Expr.aligned_of_align? _ _ h₂
  obtain ⟨us₃, hmi⟩ := Expr.aligned_of_align? _ _ h₃
  rw [hindex] at hlimit hstep
  have hmentioned : k.mentioned =
      init'.nodes.flatMap Node.mentions ++ cond'.mentioned ++ incr'.mentioned := by
    simp [ForHeader.mentioned, ForHeader.nodes, hinit', hcond', hincr', optionNodes,
      Expr.flatMap_occurrences]
  have hmem : j ∈ k.mentioned := by
    rw [hmentioned, CountedLoop.mentioned_of_start? hstart']
    exact List.mem_append_left _ (List.mem_append_left _ List.mem_cons_self)
  have hsubc : cond'.mentioned ⊆ k.mentioned := by
    rw [hmentioned]
    exact List.subset_append_of_subset_left _ (List.subset_append_right _ _)
  have hsubi : incr'.mentioned ⊆ k.mentioned := by
    rw [hmentioned]
    exact List.subset_append_right _ _
  obtain ⟨upper, hlimit'⟩ := CountedLoop.limit?_of_aligned hinj hmc hj₂ hsubc hmem hlimit
  have hstep' := CountedLoop.step?_of_aligned hinj hmi hj₃ hsubi hmem hstep
  let d : CountedLoop := ⟨k.id, j, c.declaresIndex, lower, upper, c.inclusive, c.step, c.step_pos⟩
  have hd : CountedLoop.ofHeader? k = some d := by
    simp [CountedLoop.ofHeader?, hinit', hcond', hincr', hstart', hlimit', hstep', c.step_pos, d]
  have hsizes : h.sizePairs k = us₁ ++ us₂ ++ us₃ := by
    rw [sizePairs, CountedLoop.typeSizes_eq hc hcond hincr,
      CountedLoop.typeSizes_eq hd hcond' hincr']
    simp [Expr.typeSizes, hlower.typeSizes_eq, hmc.typeSizes_eq, hmi.typeSizes_eq, d,
      ← List.map_append, List.zip_map']
  refine ⟨d, hc, hd, hinj, hindex, ⟨qs, us₁, hlower, hjl, ?_⟩, ?_, ?_⟩
  · simp [hsizes]
  · exact ⟨cond, cond', hcond, hcond', ps₂, us₂, hmc, hj₂, by simp [hsizes]⟩
  · exact ⟨incr, incr', hincr, hincr', ps₃, us₃, hmi, hj₃, by simp [hsizes]⟩

/-- The cells that a loop may look up before it writes them: all but the index, and the index too
if its first value depends on it. -/
def CountedLoop.ReadsFirst (d : CountedLoop) (k : ForHeader) (a : Cell) : Prop :=
  k.Reads a ∧ (a = .of d.index → d.lower.Reads a)

namespace ForHeader.Unified

variable {r : Symbol → Symbol} {h k : ForHeader} {c d : CountedLoop} {μ μ' ν ν' : Memory}

theorem reads_index (hu : h.Unified r k c d) : k.Reads (.of d.index) :=
  (CountedLoop.reads_iff hu.second).mpr (Or.inl rfl)

theorem in_mentioned (hu : h.Unified r k c d) {a : Cell} (ha : k.Reads a) : a.In k.mentioned :=
  ((CountedLoop.reads_iff hu.second).mp ha).in_mentioned.mono
    (CountedLoop.mentioned_subset hu.second)

theorem injOn_reads (hu : h.Unified r k c d) : Set.InjOn (Cell.rename r) {a | k.Reads a} :=
  (Cell.rename_injOn hu.injOn).mono fun _ => hu.in_mentioned

theorem reads_image (hu : h.Unified r k c d) {a b : Cell}
    (himage : Cell.Image r (h.sizePairs k) a b) (hb : k.Reads b) : h.Reads a := by
  cases himage with
  | typeSize hmem => exact reads_of_mem_typeSizes (List.of_mem_zip hmem).1
  | named hnamed =>
    obtain rfl | hb | hb := (CountedLoop.reads_iff hu.second).mp hb
    · exact (CountedLoop.reads_iff hu.first).mpr (Or.inl (congrArg Cell.of hu.index.symm))
    · obtain ⟨ps, us, haligned, hj, -⟩ := hu.lower
      exact (CountedLoop.reads_iff hu.first).mpr (Or.inr (Or.inl (haligned.reads hj hb hnamed)))
    · obtain ⟨e, f, he, hf, ps, us, haligned, hj, -⟩ := hu.cond
      have hread : f.Reads b := CountedLoop.reads_cond hu.second hf hb
      exact reads_of_clause (Or.inl he) (haligned.reads hj hread hnamed)

theorem enter (hu : h.Unified r k c d) (hag : Memory.Agree r (h.sizePairs k) (d.ReadsFirst k) μ ν)
    (hμ : h.enter μ = some ((), μ')) (hν : k.enter ν = some ((), ν')) :
    Memory.Agree r (h.sizePairs k) k.Reads μ' ν' := by
  rw [CountedLoop.enter_eq hu.first] at hμ
  rw [CountedLoop.enter_eq hu.second] at hν
  obtain ⟨m, μ₁, hm, hμ⟩ := Eval.bind_eq_some.mp hμ
  obtain ⟨n, ν₁, hn, hν⟩ := Eval.bind_eq_some.mp hν
  cases hμ
  cases hν
  have hlower :
      Eval.Simulates r (h.sizePairs k) (d.ReadsFirst k) Eq c.lower.value d.lower.value := by
    refine hu.lower.value (hu.injOn_reads.mono fun a ha => ha.1) fun a ha => ⟨?_, fun _ => ha⟩
    exact (CountedLoop.reads_iff hu.second).mpr (Or.inr (Or.inl ha))
  obtain ⟨rfl, hag₁⟩ := hlower.eq_some hag hm hn
  rw [hu.index]
  refine Memory.Agree.update (c := .of d.index) hu.injOn_reads hu.reads_index nofun m ?_
  exact fun a b himage hb hne => hag₁ a b himage ⟨hb, fun he => (hne he).elim⟩

theorem test (hu : h.Unified r k c d) :
    Eval.Simulates r (h.sizePairs k) k.Reads Eq h.test k.test := by
  obtain ⟨e, f, he, hf, hm⟩ := hu.cond
  simp only [ForHeader.test, he, hf]
  refine (hm.value hu.injOn_reads fun _ ha => reads_of_clause (Or.inl hf) ha).bind ?_
  rintro n _ rfl
  exact .pure rfl

theorem advance (hu : h.Unified r k c d) :
    Eval.Simulates r (h.sizePairs k) k.Reads Eq h.advance k.advance := by
  obtain ⟨e, f, he, hf, hm⟩ := hu.incr
  simp only [ForHeader.advance, he, hf]
  refine (hm.value hu.injOn_reads fun _ ha => reads_of_clause (Or.inr hf) ha).bind ?_
  exact fun _ _ _ => .pure rfl

theorem agree_of_keeps (hu : h.Unified r k c d) {body₁ body₂ : Memory → Memory → Prop}
    (h₁ : Keeps h.Reads body₁) (h₂ : Keeps k.Reads body₂)
    (hag : Memory.Agree r (h.sizePairs k) k.Reads μ ν) (hμ : body₁ μ μ') (hν : body₂ ν ν') :
    Memory.Agree r (h.sizePairs k) k.Reads μ' ν' := by
  intro a b himage hb
  rw [h₁ μ μ' hμ a (hu.reads_image himage hb), h₂ ν ν' hν b hb]
  exact hag a b himage hb

/-- A first loop whose bounds have the names of the second leaves them as it finds them. -/
theorem agree_of_fixed (hu : h.Unified r k c d) (he : c.Effectless)
    (hfixed : ∀ x ∈ d.lower.mentioned ++ d.upper.mentioned, x ≠ d.index ∧ r x = x)
    (hsizes : ∀ p ∈ h.sizePairs k, μ (.typeSize p.1, []) = ν (.typeSize p.2, []))
    {body : Memory → Memory → Prop} (hbody : Keeps h.Reads body) {ts : List Memory}
    (hrun : h.loop (.leaf body) μ ts ν) :
    Memory.Agree r (h.sizePairs k) (d.ReadsFirst k) μ ν := by
  rintro a b himage ⟨hb, hfirst⟩
  have hreads := hu.reads_image himage hb
  cases himage with
  | typeSize hmem => exact hsizes _ hmem
  | named hnamed =>
    have hin : b.In (d.lower.mentioned ++ d.upper.mentioned) := by
      obtain rfl | hb | hb := (CountedLoop.reads_iff hu.second).mp hb
      · exact (hfirst rfl).in_mentioned.mono (List.subset_append_left _ _)
      · exact hb.in_mentioned.mono (List.subset_append_left _ _)
      · exact hb.in_mentioned.mono (List.subset_append_right _ _)
    rw [Cell.rename_of_fixed hin fun x hx => (hfixed x hx).2] at hreads ⊢
    have hkeeps : (Action.leaf body).Keeps h.Reads := by
      rintro μ _ ν ⟨-, hb⟩ a ha
      exact hbody μ ν hb a ha
    refine (CountedLoop.loop_keeps hu.first he hkeeps μ ts ν hrun b ⟨hreads, ?_⟩).symm
    rintro rfl
    obtain ⟨hindex, hname⟩ := hfixed c.index (Cell.in_of.mp hin)
    have hmem := Cell.in_of.mp (hu.in_mentioned hb)
    have hmem' := Cell.in_of.mp (hu.in_mentioned hu.reads_index)
    exact hindex (hu.injOn hmem hmem' (hname.trans hu.index))

/-- Loops whose headers agree, and whose bodies leave them alone, count alike. -/
theorem repeats (hu : h.Unified r k c d) {body₁ body₂ : Memory → Memory → Prop}
    (h₁ : Keeps h.Reads body₁) (h₂ : Keeps k.Reads body₂) {ts us : List Memory}
    {ω ω' : Memory} (hag : Memory.Agree r (h.sizePairs k) k.Reads μ ν)
    (hμ : h.Repeats (.leaf body₁) μ ts ω) (hν : k.Repeats (.leaf body₂) ν us ω') :
    ts.map (· (.of c.index)) = us.map (· (.of d.index)) := by
  induction hμ generalizing ν us with
  | stop htest =>
    cases hν with
    | stop => rfl
    | next htest' => cases (hu.test.eq_some hag htest htest').1
  | next htest hbody hstep _ ih =>
    cases hν with
    | stop htest' => cases (hu.test.eq_some hag htest htest').1
    | next htest' hbody' hstep' hrest' =>
      obtain ⟨-, hag₁⟩ := hu.test.eq_some hag htest htest'
      obtain ⟨rfl, hb⟩ := hbody
      obtain ⟨rfl, hb'⟩ := hbody'
      have hag₂ := hu.agree_of_keeps h₁ h₂ hag₁ hb hb'
      obtain ⟨-, hag₃⟩ := hu.advance.eq_some hag₂ hstep hstep'
      have hindex := hag₁ _ (.of d.index) (.named nofun) hu.reads_index
      rw [List.map_append, List.map_append, ih hag₃ hrest']
      refine congrArg (· ++ _) (congrArg (fun n => [n]) ?_)
      rw [hu.index]
      exact hindex

end ForHeader.Unified

namespace Fusion

theorem unify?_eq_some {sel : Selection} {f : Fusion} (h : ofSelection? sel = some f) :
    f.first.header.unify? f.second.header = some f.names := by
  simp only [ofSelection?, Option.bind_eq_bind, Option.bind_eq_some_iff, Option.pure_def,
    Option.some.injEq] at h
  obtain ⟨_, -, _, -, _, -, _, h, rfl⟩ := h
  exact h

theorem exists_unified {f : Fusion} (h : f.first.header.unify? f.second.header = some f.names)
    {c : CountedLoop} (hc : CountedLoop.ofHeader? f.first.header = some c) :
    ∃ d, f.first.header.Unified f.rename f.second.header c d := by
  obtain ⟨ps, halign, hnames⟩ := Option.bind_eq_some_iff.mp h
  obtain ⟨hps, -, hone⟩ := Alignment.renaming?_eq_some hnames (by intro y z x hy; cases hy)
  have hrename (p : Symbol × Symbol) (hp : p ∈ ps) : f.rename p.2 = p.1 := by
    rw [rename, hps p hp, Option.getD_some]
  refine ForHeader.unified_of_align? halign (fun p hp => (hrename p hp).symm) ?_ hc
  have hsecond := (ForHeader.pairs_of_align? halign).2
  intro y hy z hz hyz
  change y ∈ f.second.header.mentioned at hy
  change z ∈ f.second.header.mentioned at hz
  rw [← hsecond] at hy hz
  obtain ⟨p, hp, rfl⟩ := List.mem_map.mp hy
  obtain ⟨q, hq, rfl⟩ := List.mem_map.mp hz
  rw [hrename p hp, hrename q hq] at hyz
  exact hone _ _ _ (hps p hp) (hyz ▸ hps q hq)

theorem firstJump?_of_walks {f : Fusion} {c : Touch.Context} {t t' : Trail}
    (h : Trail.Walks c [] f.fused.stmt t t') :
    f.first.body.firstJump? = none ∧ f.second.body.firstJump? = none := by
  have hall := Stmt.firstJumpOf?_eq_none.mp (Stmt.firstJump?_of_walks f.fused.stmt h)
  rw [List.forall_mem_append] at hall
  refine ⟨Stmt.firstJump?_of_statements hall.1, Stmt.firstJump?_of_statements fun st hst => ?_⟩
  have hst' := hall.2 _ (List.mem_map_of_mem hst)
  rwa [Stmt.firstJump?_rename, Option.map_eq_none_iff] at hst'

end Fusion

namespace TwoFills

def fill (a i : Symbol) : Expr :=
  .assign .plain (.subscript (.ident a .none) (.ident i .none) .none) (.int 0 .none) .none

/-- `for (i = 0; i < n; i++) a[i] = 0;` -/
def loop (id : LoopId) (i n a : Symbol) : ForLoop where
  header := NestedBound.header id i (.ident n .none)
  body := .expr (fill a i) ⟨.none, []⟩
  site := ⟨.none, []⟩

def fusion : Fusion where
  first := loop 0 0 1 2
  second := loop 1 3 4 5
  names := (IndexMap.empty.insert 3 0).insert 4 1

def selection : Selection where
  before := []
  stmt := fusion.first.stmt
  after := [fusion.second.stmt]
  depth := 0

def checkContext : CheckContext where
  program := ⟨[], [], .empty⟩
  function := ⟨"clear", 6, [], .compound [fusion.first.stmt, fusion.second.stmt] ⟨.none, []⟩, .none⟩
  config := ⟨[], false, false, none⟩

theorem check_selection : Transformation.fuse.check checkContext selection = .ok .clean := by cbv

def start (m : Int) : Memory := Function.update (fun _ => 2) (.of 4) m

theorem keeps_fill {h : ForHeader} {c : CountedLoop} {a i : Symbol}
    (hc : CountedLoop.ofHeader? h = some c) (ha : a ∉ c.mentioned) :
    Keeps h.Reads (fill a i).effect :=
  keeps_of_update (p := fun μ => (.binding a, [.element (μ (.of i))])) (fun _ => rfl)
    fun _ hreads => ha ((CountedLoop.reads_iff hc).mp hreads).in_mentioned.1

theorem keeps_first : Keeps fusion.first.header.Reads (fill 2 0).effect :=
  keeps_fill (c := NestedBound.counted 0 0 (.ident 1 .none)) rfl (by decide)

theorem keeps_second : Keeps fusion.second.header.Reads (fill 5 3).effect :=
  keeps_fill (c := NestedBound.counted 1 3 (.ident 4 .none)) rfl (by decide)

theorem runs_twice : ∃ ts ν us ω,
    fusion.first.header.loop (.leaf (fill 2 0).effect) (start 2) ts ν ∧
      fusion.second.header.loop (.leaf (fill 5 3).effect) ν us ω ∧
      ts.length = 2 ∧ ν (.of 4) = 2 := by
  refine ⟨_, _, _, _,
    ⟨_, rfl, .next rfl ⟨rfl, _, rfl⟩ rfl (.next rfl ⟨rfl, _, rfl⟩ rfl (.stop rfl))⟩,
    ⟨_, rfl, .next rfl ⟨rfl, _, rfl⟩ rfl (.next rfl ⟨rfl, _, rfl⟩ rfl (.stop rfl))⟩, rfl, rfl⟩

end TwoFills

end LoopLegality
