import LoopLegality.Proofs.Bounds
import LoopLegality.Proofs.Matching

namespace LoopLegality

def Eval.ReadsOnly {α : Type} (x : Eval α) : Prop := ∀ μ a ν, x μ = some (a, ν) → ν = μ

namespace Eval.ReadsOnly

variable {α β : Type}

theorem pure (a : α) : ReadsOnly (Pure.pure a : Eval α) := by
  rintro μ _ _ ⟨⟩
  rfl

theorem read (c : Cell) : ReadsOnly (Eval.read c) := by
  rintro μ _ _ ⟨⟩
  rfl

theorem ofOption (x : Option α) : ReadsOnly (Eval.ofOption x) := by
  intro μ a ν h
  exact (Eval.ofOption_eq_some.mp h).2

theorem peek (x : Eval α) : ReadsOnly x.peek := by
  intro μ a ν h
  obtain ⟨_, -, ⟨⟩⟩ := Option.map_eq_some_iff.mp h
  rfl

theorem bind {x : Eval α} {f : α → Eval β} (hx : x.ReadsOnly) (hf : ∀ a, (f a).ReadsOnly) :
    (x >>= f).ReadsOnly := by
  intro μ b ω h
  obtain ⟨a, ν, ha, hb⟩ := Eval.bind_eq_some.mp h
  rw [hf a ν b ω hb, hx μ a ν ha]

theorem asCell {x : Eval Referent} (hx : x.ReadsOnly) : x.asCell.ReadsOnly :=
  hx.bind fun _ => .pure _

theorem asValue {x : Eval Referent} (hx : x.ReadsOnly) : x.asValue.ReadsOnly := by
  refine hx.bind fun d μ n ν h => ?_
  cases h
  rfl

theorem asNumber {x : Eval Int} (hx : x.ReadsOnly) : x.asNumber.ReadsOnly :=
  hx.bind fun _ => .pure _

theorem asOwner {x : Eval Referent} (hx : x.ReadsOnly) (arrow : Bool) :
    (x.asOwner arrow).ReadsOnly := by
  cases arrow with
  | false => exact hx.asCell
  | true => exact hx.asValue.bind fun _ => .pure _

end Eval.ReadsOnly

namespace Expr

open Eval

mutual

theorem denote_readsOnly : ∀ (e : Expr), (∀ n ∈ e.nodes, n.isEffect = false) → e.denote.ReadsOnly
  | .int .., _ | .ident .., _ => .pure _
  | .float .., _ | .str .., _ | .sizeOfType .., _ => (ReadsOnly.read _).asNumber
  | .char .., _ => (ReadsOnly.ofOption _).asNumber
  | .field o _ a _, h =>
    ((denote_readsOnly o (List.forall_mem_cons.mp h).2).asOwner a).bind fun _ => .pure _
  | .subscript b i _, h => by
    obtain ⟨hb, hi⟩ := List.forall_mem_append.mp (List.forall_mem_cons.mp h).2
    exact (denote_readsOnly b hb).asCell.bind fun _ =>
      (denote_readsOnly i hi).asValue.bind fun _ => .pure _
  | .call .., h => nomatch (List.forall_mem_cons.mp h).1
  | .unary op e s, h => by
    obtain ⟨hself, he⟩ := List.forall_mem_cons.mp h
    have hreads := denote_readsOnly e he
    cases op with
    | deref => exact hreads.asValue.bind fun _ => .pure _
    | addressOf => exact (hreads.asCell.bind fun _ => .read _).asNumber
    | plus | neg | not | complement => exact (hreads.asValue.bind fun _ => .ofOption _).asNumber
    | preIncr | preDecr | postIncr | postDecr => cases hself
  | .binary op l r _, h => by
    obtain ⟨hl, hr⟩ := List.forall_mem_append.mp (List.forall_mem_cons.mp h).2
    refine ((denote_readsOnly l hl).asValue.bind fun a => ?_).asNumber
    split
    · exact .pure _
    · exact (denote_readsOnly r hr).asValue.bind fun _ => .ofOption _
  | .assign .., h => nomatch (List.forall_mem_cons.mp h).1
  | .conditional c t f _, h => by
    obtain ⟨hct, hf⟩ := List.forall_mem_append.mp (List.forall_mem_cons.mp h).2
    obtain ⟨hc, ht⟩ := List.forall_mem_append.mp hct
    refine ((denote_readsOnly c hc).asValue.bind fun a => ?_).asNumber
    split
    · exact (denote_readsOnly f hf).asValue
    · exact (denote_readsOnly t ht).asValue
  | .cast _ e _, h => (denote_readsOnly e (List.forall_mem_cons.mp h).2).asValue.asNumber
  | .sizeOf e _, _ => ((ReadsOnly.peek _).bind fun _ => .read _).asNumber
  | .comma es _, h =>
    ((values_readsOnly es (List.forall_mem_cons.mp h).2).bind fun _ => .ofOption _).asNumber

theorem values_readsOnly : ∀ (es : List Expr), (∀ n ∈ nodesOf es, n.isEffect = false) →
    (values es).ReadsOnly
  | [], _ => .pure _
  | e :: es, h => by
    obtain ⟨he, hes⟩ := List.forall_mem_append.mp h
    exact (denote_readsOnly e he).asValue.bind fun _ =>
      (values_readsOnly es hes).bind fun _ => .pure _

end

theorem readsOnly_of_not_hasEffect {e : Expr} (h : e.hasEffect = false) : e.value.ReadsOnly :=
  (denote_readsOnly e (by simpa [hasEffect] using h)).asValue

/-- Evaluation without effect depends on the cells that it looks up. -/
theorem value_congr {e : Expr} (he : e.hasEffect = false) {μ ν : Memory}
    (h : ∀ c, e.Reads c → μ c = ν c) {n : Int} (hn : e.value μ = some (n, μ)) :
    e.value ν = some (n, ν) := by
  obtain ⟨ss, haligned⟩ := exists_aligned_self e
  have hid (c : Cell) (hc : e.Reads c) : c.rename id = c :=
    Cell.rename_of_fixed hc.in_mentioned fun _ _ => rfl
  have hinj : Set.InjOn (Cell.rename id) {c | e.Reads c} := fun c hc d hd hcd => by
    rwa [hid c hc, hid d hd] at hcd
  have hP : ∀ n ∈ e.nodes, ∀ c, n.LooksUp c → e.Reads c := fun n hn c hc => ⟨n, hn, hc⟩
  have hsim :=
    (haligned.simulates hinj (Alignment.joins_graph _ _) (List.Subset.refl _) hP).asValue hP
  have hag : Memory.Agree id ss e.Reads μ ν := by
    intro a b hab hb
    cases hab with
    | named => rw [hid b hb, h b hb]
    | @typeSize s t hst =>
      rw [← haligned.zip_typeSizes, List.zip, List.zipWith_self] at hst
      obtain ⟨_, -, ⟨⟩⟩ := List.mem_map.mp hst
      exact h _ hb
  have hrel := hsim μ ν hag
  change Option.Rel _ (e.value μ) (e.value ν) at hrel
  rw [hn] at hrel
  generalize hv : e.value ν = o at hrel
  cases hrel with
  | @some _ b hab =>
    obtain ⟨m, ω⟩ := b
    obtain rfl : n = m := hab.1
    rw [readsOnly_of_not_hasEffect he _ _ _ hv]

theorem value_of_int? : ∀ (e : Expr) {k : Int}, e.int? = some k → e.value = pure k
  | .int n _, _, h => by
    cases h
    rfl
  | .unary .neg e _, _, h => by
    obtain ⟨m, hm, h⟩ := Option.bind_eq_some_iff.mp h
    have he : asValue e.denote = pure m := value_of_int? e hm
    refine (asValue_asNumber _).trans ?_
    simp [he, UnaryOp.result?, h]
  | .unary .plus e _, k, h => by
    have he : asValue e.denote = pure k := value_of_int? e h
    refine (asValue_asNumber _).trans ?_
    simp [he, UnaryOp.result?]

end Expr

theorem Node.looksUp_declarator {d : Declarator} {a : Cell} :
    (Node.declarator d).LooksUp a ↔ a = .of d.symbol := Iff.rfl

theorem Expr.exists_mem_occurrences {e : Expr} {a : Cell} :
    (∃ n ∈ e.occurrences, n.LooksUp a) ↔ e.Reads a := by
  simp [occurrences, Reads, Node.LooksUp]

namespace Expr

variable {a : Cell}

@[simp] theorem reads_ident {x : Symbol} {s : Span} : (ident x s).Reads a ↔ a = .of x := by
  simp [Reads, nodes, LooksUp, Stands]

theorem reads_unary {op : UnaryOp} {e : Expr} {s : Span} :
    (unary op e s).Reads a ↔ (unary op e s).LooksUp a ∨ e.Reads a := by
  simp only [Reads, nodes, List.mem_cons, or_and_right, exists_or, exists_eq_left]

@[simp] theorem reads_binary {op : BinaryOp} {l r : Expr} {s : Span} :
    (binary op l r s).Reads a ↔ l.Reads a ∨ r.Reads a := by
  simp [Reads, nodes, LooksUp, or_and_right, exists_or]

@[simp] theorem reads_assign {op : AssignOp} {l r : Expr} {s : Span} :
    (assign op l r s).Reads a ↔ l.Stands a ∨ l.Reads a ∨ r.Reads a := by
  simp only [Reads, nodes, List.mem_cons, List.mem_append, or_and_right, exists_or, exists_eq_left]
  exact Iff.rfl

theorem not_reads_of_int? : ∀ (e : Expr) {k : Int}, e.int? = some k → ¬ e.Reads a
  | .int _ _, _, _ => by simp [Reads, nodes, LooksUp]
  | .unary .neg e _, _, h => by
    obtain ⟨m, hm, -⟩ := Option.bind_eq_some_iff.mp h
    simpa [reads_unary, LooksUp, UnaryOp.isIncrement] using not_reads_of_int? e hm
  | .unary .plus e _, k, h => by
    have he : e.int? = some k := h
    simpa [reads_unary, LooksUp, UnaryOp.isIncrement] using not_reads_of_int? e he

end Expr

namespace CountedLoop

variable {h : ForHeader} {c : CountedLoop} {μ ν : Memory}

theorem exists_of_start? {init : ForInit} {x : Symbol} {e : Expr} {b : Bool}
    (h : start? init = some (x, e, b)) :
    (∃ s t u, init = .expr (.assign .plain (.ident x s) e t) u ∧ b = false) ∨
      ∃ d s, init = .decl ⟨[d], s⟩ ∧ b = true ∧ d.symbol = x ∧ d.dims = [] ∧ d.pointer = false ∧
        d.init = some (.expr e) := by
  unfold start? at h
  split at h
  · cases h
    exact Or.inl ⟨_, _, _, rfl, rfl⟩
  · obtain ⟨hplain, hinit⟩ := Option.ite_none_right_eq_some.mp h
    simp only [Bool.and_eq_true, List.isEmpty_iff, Bool.not_eq_true'] at hplain
    split at hinit
    · next hd =>
      cases hinit
      exact Or.inr ⟨_, _, rfl, rfl, rfl, hplain.1, hplain.2, hd⟩
    · cases hinit
  · cases h

theorem exists_of_limit? {x : Symbol} {cond upper : Expr} {inclusive : Bool}
    (h : limit? x cond = some (upper, inclusive)) :
    ∃ s t, cond = .binary (if inclusive then .le else .lt) (.ident x s) upper t := by
  unfold limit? at h
  split at h
  case h_3 => cases h
  all_goals
    obtain ⟨hx, hk⟩ := Option.ite_none_right_eq_some.mp h
    obtain ⟨s, rfl⟩ := Expr.ident?_eq_some hx
    cases hk
    exact ⟨s, _, rfl⟩

theorem exists_of_step? {x : Symbol} {e : Expr} {k : Int} (h : step? x e = some k) :
    (∃ op s t, e = .unary op (.ident x s) t ∧ op.change? = some 1 ∧ k = 1) ∨
      (∃ r s t, e = .assign (.compound .add) (.ident x s) r t ∧ r.int? = some k) ∨
      ∃ l r s t u, e = .assign .plain (.ident x s) (.binary .add l r t) u ∧
        ((∃ v, l = .ident x v ∧ r.int? = some k) ∨ ∃ v, r = .ident x v ∧ l.int? = some k) := by
  unfold step? at h
  split at h
  case h_5 => cases h
  all_goals
    obtain ⟨hx, hk⟩ := Option.ite_none_right_eq_some.mp h
    obtain ⟨s, rfl⟩ := Expr.ident?_eq_some hx
  · cases hk
    exact Or.inl ⟨_, _, _, rfl, rfl, rfl⟩
  · cases hk
    exact Or.inl ⟨_, _, _, rfl, rfl, rfl⟩
  · exact Or.inr (Or.inl ⟨_, _, _, rfl, hk⟩)
  · refine Or.inr (Or.inr ⟨_, _, _, _, _, rfl, ?_⟩)
    split at hk
    · next hl =>
      obtain ⟨v, rfl⟩ := Expr.ident?_eq_some hl
      exact Or.inl ⟨v, rfl, hk⟩
    · obtain ⟨hr, hint⟩ := Option.ite_none_right_eq_some.mp hk
      obtain ⟨v, rfl⟩ := Expr.ident?_eq_some hr
      exact Or.inr ⟨v, rfl, hint⟩

theorem mentioned_of_start? {init : ForInit} {x : Symbol} {e : Expr} {b : Bool}
    (h : start? init = some (x, e, b)) :
    init.nodes.flatMap Node.mentions = x :: e.mentioned := by
  obtain ⟨s, t, u, rfl, -⟩ | ⟨d, s, rfl, -, rfl, hdims, -, hinit⟩ := exists_of_start? h
  · rw [ForInit.nodes, Expr.flatMap_occurrences]
    simp
  · simp [ForInit.nodes, Declaration.nodes, Declarator.nodes, Declarator.exprs, hdims, hinit,
      Initializer.exprs, Node.mentions, Expr.flatMap_occurrences]

theorem typeSizes_of_start? {init : ForInit} {x : Symbol} {e : Expr} {b : Bool}
    (h : start? init = some (x, e, b)) : init.nodes.flatMap Node.typeSize = e.typeSizes := by
  obtain ⟨s, t, u, rfl, -⟩ | ⟨d, s, rfl, -, rfl, hdims, -, hinit⟩ := exists_of_start? h
  · simp [ForInit.nodes, Expr.flatMap_typeSize, Expr.typeSizes, Expr.nodes, Expr.typeSize]
  · simp [ForInit.nodes, Declaration.nodes, Declarator.nodes, Declarator.exprs, hdims, hinit,
      Initializer.exprs, Node.typeSize, Expr.flatMap_typeSize]

theorem enter_of_start? {init : ForInit} {x : Symbol} {e : Expr} {b : Bool}
    (h : start? init = some (x, e, b)) :
    init.enter = (do Eval.write (.of x) (← e.value)) := by
  obtain ⟨s, t, u, rfl, -⟩ | ⟨d, s, rfl, -, rfl, -, -, hinit⟩ := exists_of_start? h
  · funext μ
    simp [ForInit.enter, Expr.value_assign_ident, Eval.read_bind, AssignOp.result?]
  · simp [ForInit.enter, hinit]

theorem mentioned_eq (hc : ofHeader? h = some c) {cond incr : Expr} (hcond : h.cond = some cond)
    (hincr : h.incr = some incr) :
    h.mentioned = c.index :: c.lower.mentioned ++ cond.mentioned ++ incr.mentioned := by
  obtain ⟨init, _, _, hinit, -, -, hstart, -, -⟩ := ofHeader?_eq_some hc
  simp only [ForHeader.mentioned, ForHeader.nodes, hinit, hcond, hincr, optionNodes,
    Option.map_some, Option.getD_some, List.flatMap_append, mentioned_of_start? hstart,
    Expr.flatMap_occurrences]

theorem typeSizes_eq (hc : ofHeader? h = some c) {cond incr : Expr} (hcond : h.cond = some cond)
    (hincr : h.incr = some incr) :
    h.typeSizes = c.lower.typeSizes ++ cond.typeSizes ++ incr.typeSizes := by
  obtain ⟨init, _, _, hinit, -, -, hstart, -, -⟩ := ofHeader?_eq_some hc
  simp only [ForHeader.typeSizes, ForHeader.nodes, hinit, hcond, hincr, optionNodes,
    Option.map_some, Option.getD_some, List.flatMap_append, typeSizes_of_start? hstart,
    Expr.flatMap_typeSize]

theorem enter_eq (hc : ofHeader? h = some c) :
    h.enter = (do Eval.write (.of c.index) (← c.lower.value)) := by
  obtain ⟨init, cond, incr, hinit, -, -, hstart, -, -⟩ := ofHeader?_eq_some hc
  rw [ForHeader.enter, hinit]
  exact enter_of_start? hstart

def mentioned (c : CountedLoop) : List Symbol := c.index :: (c.lower.mentioned ++ c.upper.mentioned)

theorem mentioned_subset (hc : ofHeader? h = some c) : c.mentioned ⊆ h.mentioned := by
  obtain ⟨init, cond, incr, -, hcond, hincr, -, hlimit, -⟩ := ofHeader?_eq_some hc
  obtain ⟨s, t, rfl⟩ := exists_of_limit? hlimit
  rw [mentioned_eq hc hcond hincr]
  intro x hx
  simp only [mentioned, List.mem_cons, List.mem_append] at hx
  rcases hx with hx | hx | hx <;> simp [hx]

theorem reads_of_start? {init : ForInit} {x : Symbol} {e : Expr} {b : Bool} {a : Cell}
    (h : start? init = some (x, e, b)) :
    (∃ n ∈ init.nodes, n.LooksUp a) ↔ a = .of x ∨ e.Reads a := by
  obtain ⟨s, t, u, rfl, -⟩ | ⟨d, s, rfl, -, rfl, hdims, -, hinit⟩ := exists_of_start? h
  · rw [ForInit.nodes, Expr.exists_mem_occurrences]
    simp [Expr.Stands]
  · simp [ForInit.nodes, Declaration.nodes, Declarator.nodes, Declarator.exprs, hdims, hinit,
      Initializer.exprs, Node.looksUp_declarator, Expr.exists_mem_occurrences]

theorem eq_of_step?_reads {x : Symbol} {e : Expr} {k : Int} {a : Cell} (h : step? x e = some k)
    (ha : e.Reads a) : a = .of x := by
  obtain ⟨op, s, t, rfl, hop, -⟩ | ⟨r, s, t, rfl, hk⟩ | ⟨l, r, s, t, u, rfl, hsum⟩ :=
    exists_of_step? h
  · obtain ha | ha := Expr.reads_unary.mp ha
    · cases op with
      | preIncr | preDecr | postIncr | postDecr => exact ha.2
      | _ => cases hop
    · exact Expr.reads_ident.mp ha
  · simpa [Expr.Stands, Expr.not_reads_of_int? _ hk] using ha
  · obtain ⟨v, rfl, hk⟩ | ⟨v, rfl, hk⟩ := hsum
    · simpa [Expr.Stands, Expr.not_reads_of_int? _ hk] using ha
    · simpa [Expr.Stands, Expr.not_reads_of_int? _ hk] using ha

/-- The index and all cells that the bounds may look up. -/
def Reads (c : CountedLoop) (a : Cell) : Prop :=
  a = .of c.index ∨ c.lower.Reads a ∨ c.upper.Reads a

theorem reads_iff (hc : ofHeader? h = some c) {a : Cell} : h.Reads a ↔ c.Reads a := by
  obtain ⟨init, cond, incr, hinit, hcond, hincr, hstart, hlimit, hstep⟩ := ofHeader?_eq_some hc
  have hnodes : h.nodes = init.nodes ++ cond.occurrences ++ incr.occurrences := by
    simp [ForHeader.nodes, hinit, hcond, hincr, optionNodes]
  obtain ⟨s, t, rfl⟩ := exists_of_limit? hlimit
  simp only [ForHeader.Reads, hnodes, List.mem_append, or_and_right, exists_or,
    reads_of_start? hstart, Expr.exists_mem_occurrences, Expr.reads_binary, Expr.reads_ident,
    Reads]
  constructor
  · rintro (((ha | ha) | (ha | ha)) | ha)
    · exact Or.inl ha
    · exact Or.inr (Or.inl ha)
    · exact Or.inl ha
    · exact Or.inr (Or.inr ha)
    · exact Or.inl (eq_of_step?_reads hstep ha)
  · rintro (ha | ha | ha) <;> simp [ha]

theorem reads_cond (hc : ofHeader? h = some c) {cond : Expr} (hcond : h.cond = some cond) {a : Cell}
    (ha : c.upper.Reads a) : cond.Reads a := by
  obtain ⟨_, _, _, -, hcond', -, -, hlimit, -⟩ := ofHeader?_eq_some hc
  obtain rfl := Option.some.inj (hcond.symm.trans hcond')
  obtain ⟨s, t, rfl⟩ := exists_of_limit? hlimit
  exact Expr.reads_binary.mpr (Or.inr ha)

theorem Reads.in_mentioned {a : Cell} (ha : c.Reads a) : a.In c.mentioned := by
  obtain rfl | ha | ha := ha
  · exact Cell.in_of.mpr List.mem_cons_self
  · exact ha.in_mentioned.mono fun x hx => by simp [mentioned, hx]
  · exact ha.in_mentioned.mono fun x hx => by simp [mentioned, hx]

theorem enter_eq_some (hc : ofHeader? h = some c) (hlower : c.lower.hasEffect = false)
    (he : h.enter μ = some ((), ν)) :
    ∃ m, c.lower.value μ = some (m, μ) ∧ ν = Function.update μ (.of c.index) m := by
  rw [enter_eq hc] at he
  obtain ⟨m, τ, hm, hwrite⟩ := Eval.bind_eq_some.mp he
  obtain rfl := Expr.readsOnly_of_not_hasEffect hlower _ _ _ hm
  cases hwrite
  exact ⟨m, hm, rfl⟩

/-- The index is within its bound. -/
def WithinBound (c : CountedLoop) (μ : Memory) : Prop :=
  ∃ n, c.upper.value μ = some (n, μ) ∧
    if c.inclusive then μ (.of c.index) ≤ n else μ (.of c.index) < n

theorem test_of_limit? {x : Symbol} {cond upper : Expr} {inclusive : Bool}
    (h : limit? x cond = some (upper, inclusive)) (hupper : upper.hasEffect = false) {n : Int}
    (hn : cond.value μ = some (n, ν)) : ν = μ ∧ ∃ k, upper.value μ = some (k, μ) ∧
      (n ≠ 0 ↔ if inclusive then μ (.of x) ≤ k else μ (.of x) < k) := by
  obtain ⟨s, t, rfl⟩ := exists_of_limit? h
  rw [Expr.value_binary, Expr.value_ident] at hn
  obtain ⟨_, _, ⟨⟩, hn⟩ := Eval.bind_eq_some.mp hn
  cases inclusive
  all_goals
    obtain ⟨k, τ, hk, hn⟩ := Eval.bind_eq_some.mp hn
    obtain rfl := Expr.readsOnly_of_not_hasEffect hupper _ _ _ hk
    cases hn
    exact ⟨rfl, k, hk, by simp [truth]⟩

theorem test_eq_some (hc : ofHeader? h = some c) (hupper : c.upper.hasEffect = false) {b : Bool}
    (ht : h.test μ = some (b, ν)) : ν = μ ∧ (b = true ↔ c.WithinBound μ) := by
  obtain ⟨init, cond, incr, -, hcond, -, -, hlimit, -⟩ := ofHeader?_eq_some hc
  rw [ForHeader.test, hcond] at ht
  obtain ⟨n, τ, hn, ht⟩ := Eval.bind_eq_some.mp ht
  cases ht
  obtain ⟨rfl, k, hk, hlt⟩ := test_of_limit? hlimit hupper hn
  refine ⟨rfl, ?_⟩
  rw [bne_iff_ne, hlt]
  constructor
  · exact fun hle => ⟨k, hk, hle⟩
  · rintro ⟨k', hk', hle⟩
    rw [hk] at hk'
    cases hk'
    exact hle

theorem increment_value {x : Symbol} {op : UnaryOp} {s t : Span} {n : Int}
    (hop : op.change? = some 1)
    (h : (Expr.unary op (.ident x s) t).value μ = some (n, ν)) :
    ν = Function.update μ (.of x) (μ (.of x) + 1) := by
  rw [Expr.value_increment_ident hop] at h
  obtain ⟨_, _, ⟨⟩, h⟩ := Eval.bind_eq_some.mp h
  obtain ⟨_, _, ⟨⟩, h⟩ := Eval.bind_eq_some.mp h
  obtain ⟨m, _, hm, hwrite⟩ := Eval.bind_eq_some.mp h
  obtain ⟨hadd, rfl⟩ := Eval.ofOption_eq_some.mp hm
  cases hwrite
  rw [Word.eq_of_add? hadd]

theorem assign_value {x : Symbol} {op : AssignOp} {e : Expr} {s t : Span} {n : Int}
    (h : (Expr.assign op (.ident x s) e t).value μ = some (n, ν)) :
    ∃ m τ, e.value μ = some (m, τ) ∧ op.result? (μ (.of x)) m = some n ∧
      ν = Function.update τ (.of x) n := by
  rw [Expr.value_assign_ident] at h
  obtain ⟨_, _, ⟨⟩, h⟩ := Eval.bind_eq_some.mp h
  obtain ⟨m, τ, hm, h⟩ := Eval.bind_eq_some.mp h
  obtain ⟨_, _, hop, hwrite⟩ := Eval.bind_eq_some.mp h
  obtain ⟨happly, rfl⟩ := Eval.ofOption_eq_some.mp hop
  cases hwrite
  exact ⟨m, _, hm, happly, rfl⟩

theorem add_value {a b : Expr} {s : Span} {n : Int}
    (h : (Expr.binary .add a b s).value μ = some (n, ν)) :
    ∃ k m τ, a.value μ = some (k, τ) ∧ b.value τ = some (m, ν) ∧ n = k + m := by
  rw [Expr.value_binary] at h
  obtain ⟨k, τ, hk, h⟩ := Eval.bind_eq_some.mp h
  obtain ⟨m, _, hm, h⟩ := Eval.bind_eq_some.mp h
  obtain ⟨hadd, rfl⟩ := Eval.ofOption_eq_some.mp h
  exact ⟨k, m, τ, hk, hm, Word.eq_of_add? hadd⟩

theorem advance_of_step? {x : Symbol} {e : Expr} {k n : Int} (h : step? x e = some k)
    (hn : e.value μ = some (n, ν)) : ν = Function.update μ (.of x) (μ (.of x) + k) := by
  obtain ⟨op, s, t, rfl, hop, rfl⟩ | ⟨r, s, t, rfl, hk⟩ | ⟨l, r, s, t, u, rfl, hsum⟩ :=
    exists_of_step? h
  · exact increment_value hop hn
  · obtain ⟨m, τ, hm, hadd, rfl⟩ := assign_value hn
    rw [Expr.value_of_int? _ hk] at hm
    cases hm
    rw [Word.eq_of_add? hadd]
  · obtain ⟨_, τ, hm, ⟨⟩, rfl⟩ := assign_value hn
    obtain ⟨m₁, m₂, υ, hl, hr, rfl⟩ := add_value hm
    obtain ⟨v, rfl, hk⟩ | ⟨v, rfl, hk⟩ := hsum
    · cases hl
      rw [Expr.value_of_int? _ hk] at hr
      cases hr
      rfl
    · rw [Expr.value_of_int? _ hk] at hl
      cases hl
      rw [Expr.value_ident] at hr
      cases hr
      rw [add_comm]

theorem advance_eq_some (hc : ofHeader? h = some c) (ha : h.advance μ = some ((), ν)) :
    ν = Function.update μ (.of c.index) (μ (.of c.index) + c.step) := by
  obtain ⟨init, cond, incr, -, -, hincr, -, -, hstep⟩ := ofHeader?_eq_some hc
  rw [ForHeader.advance, hincr] at ha
  obtain ⟨n, τ, hn, ha⟩ := Eval.bind_eq_some.mp ha
  cases ha
  exact advance_of_step? hstep hn

end CountedLoop

namespace ForHeader

variable {h : ForHeader} {e : Expr} {a : Cell}

theorem reads_of_clause (he : h.cond = some e ∨ h.incr = some e) (ha : e.Reads a) : h.Reads a := by
  obtain ⟨n, hn, ha⟩ := Expr.exists_mem_occurrences.mpr ha
  refine ⟨n, ?_, ha⟩
  obtain he | he := he <;> simp [ForHeader.nodes, optionNodes, he, hn]

theorem reads_of_mem_typeSizes {s : Span} (hs : s ∈ h.typeSizes) :
    h.Reads (.typeSize s, []) := by
  obtain ⟨n, hn, hs⟩ := List.mem_flatMap.mp hs
  exact ⟨n, hn, Node.looksUp_of_mem_typeSize hs⟩

end ForHeader

def Action.Keeps (P : Cell → Prop) (body : Action) : Prop :=
  ∀ μ ts ν, body μ ts ν → ∀ a, P a → ν a = μ a

namespace CountedLoop

/-- Counting on from the first number, the index comes to the second. -/
inductive Reaches (c : CountedLoop) (μ : Memory) : Int → Int → Prop
  | here {n} (h : c.WithinBound (Function.update μ (.of c.index) n)) : Reaches c μ n n
  | next {m n} (h : c.WithinBound (Function.update μ (.of c.index) m))
      (hrest : Reaches c μ (m + c.step) n) : Reaches c μ m n

/-- The index takes this value in a loop that starts here. -/
def Takes (c : CountedLoop) (μ : Memory) (n : Int) : Prop :=
  ∃ m, c.lower.value μ = some (m, μ) ∧ c.Reaches μ m n

section Loop

variable {h : ForHeader} {c : CountedLoop} {P : Cell → Prop} {body : Action} {μ ρ ω : Memory}
  {ts : List Memory} {m n : Int}

theorem WithinBound.congr (hupper : c.upper.hasEffect = false) {ν : Memory}
    (hindex : μ (.of c.index) = ν (.of c.index)) (hag : ∀ a, c.upper.Reads a → μ a = ν a)
    (hw : c.WithinBound μ) : c.WithinBound ν := by
  obtain ⟨n, hn, hle⟩ := hw
  exact ⟨n, Expr.value_congr hupper hag hn, hindex ▸ hle⟩

theorem repeats_keeps (hc : ofHeader? h = some c) (hupper : c.upper.hasEffect = false)
    (hbody : body.Keeps P) (hrun : h.Repeats body ρ ts ω) {a : Cell} (ha : P a)
    (hindex : a ≠ .of c.index) : ω a = ρ a := by
  induction hrun with
  | stop htest => rw [(test_eq_some hc hupper htest).1]
  | next htest hb hstep _ ih =>
    rw [ih, advance_eq_some hc hstep, Function.update_of_ne hindex, hbody _ _ _ hb a ha,
      (test_eq_some hc hupper htest).1]

/-- The body runs once where the index has this value, and the chosen cells are otherwise as when
the loop started. -/
def Passes (c : CountedLoop) (P : Cell → Prop) (body : Action) (μ : Memory) (n : Int)
    (ts : List Memory) : Prop :=
  ∃ ρ ω, (∀ a, P a → ρ a = Function.update μ (.of c.index) n a) ∧ body ρ ts ω

/-- A loop passes once for each value that its index comes to. -/
theorem repeats_passes (hc : ofHeader? h = some c) (hupper : c.upper.hasEffect = false)
    (hP : ∀ a, h.Reads a → P a) (hbody : body.Keeps P) (hrun : h.Repeats body ρ ts ω)
    (hρ : ∀ a, P a → ρ a = Function.update μ (.of c.index) m a) :
    (∀ τ ∈ ts, ∃ n us, c.Reaches μ m n ∧ c.Passes P body μ n us ∧ τ ∈ us) ∧
      ∀ n, c.Reaches μ m n → ∃ us, c.Passes P body μ n us ∧ us ⊆ ts := by
  have hindex : P (.of c.index) := hP _ ((reads_iff hc).mpr (Or.inl rfl))
  have hbound (a : Cell) (ha : c.upper.Reads a) : P a :=
    hP _ ((reads_iff hc).mpr (Or.inr (Or.inr ha)))
  induction hrun generalizing m with
  | stop htest =>
    refine ⟨nofun, fun n hn => ?_⟩
    have hw : c.WithinBound (Function.update μ (.of c.index) m) := by
      cases hn with
      | here hw => exact hw
      | next hw => exact hw
    have hw' := hw.congr hupper (hρ _ hindex).symm fun a ha => (hρ a (hbound a ha)).symm
    cases (test_eq_some hc hupper htest).2.mpr hw'
  | @next ρ _ ρ' υ _ us _ htest hb hstep _ ih =>
    obtain ⟨rfl, hw⟩ := test_eq_some hc hupper htest
    have hw := (hw.mp rfl).congr hupper (hρ _ hindex) fun a ha => hρ a (hbound a ha)
    have hυ : ∀ a, P a → υ a = Function.update μ (.of c.index) (m + c.step) a := by
      intro a ha
      rw [advance_eq_some hc hstep, hbody _ _ _ hb _ hindex, hρ _ hindex, Function.update_self]
      by_cases h : a = .of c.index
      · rw [h, Function.update_self, Function.update_self]
      · rw [Function.update_of_ne h, Function.update_of_ne h, hbody _ _ _ hb a ha, hρ a ha,
          Function.update_of_ne h]
    obtain ⟨hsound, hcomplete⟩ := ih hυ
    have hpass : c.Passes P body μ m us := ⟨_, _, hρ, hb⟩
    constructor
    · intro τ hτ
      obtain hτ | hτ := List.mem_append.mp hτ
      · exact ⟨m, us, .here hw, hpass, hτ⟩
      · obtain ⟨n, vs, hn, hvs⟩ := hsound τ hτ
        exact ⟨n, vs, .next hw hn, hvs⟩
    · intro n hn
      cases hn with
      | here => exact ⟨us, hpass, List.subset_append_left _ _⟩
      | next _ hn =>
        obtain ⟨vs, hvs, hsub⟩ := hcomplete n hn
        exact ⟨vs, hvs, List.subset_append_of_subset_right _ hsub⟩

/-- The bounds of the loop are evaluated without effect. -/
def Effectless (c : CountedLoop) : Prop := c.lower.hasEffect = false ∧ c.upper.hasEffect = false

theorem loop_keeps (hc : ofHeader? h = some c) (he : c.Effectless) (hbody : body.Keeps P) :
    (h.loop body).Keeps fun a => P a ∧ a ≠ .of c.index := by
  rintro μ ts ω ⟨ρ, henter, hrun⟩ a ⟨ha, hindex⟩
  obtain ⟨m, -, rfl⟩ := enter_eq_some hc he.1 henter
  rw [repeats_keeps hc he.2 hbody hrun ha hindex, Function.update_of_ne hindex]

theorem loop_passes (hc : ofHeader? h = some c) (he : c.Effectless)
    (hP : ∀ a, h.Reads a → P a) (hbody : body.Keeps P) (hrun : h.loop body μ ts ω) :
    (∀ τ ∈ ts, ∃ n us, c.Takes μ n ∧ c.Passes P body μ n us ∧ τ ∈ us) ∧
      ∀ n, c.Takes μ n → ∃ us, c.Passes P body μ n us ∧ us ⊆ ts := by
  obtain ⟨ρ, henter, hrun⟩ := hrun
  obtain ⟨m, hm, rfl⟩ := enter_eq_some hc he.1 henter
  obtain ⟨hsound, hcomplete⟩ := repeats_passes hc he.2 hP hbody hrun fun _ _ => rfl
  constructor
  · intro τ hτ
    obtain ⟨n, us, hn, hus⟩ := hsound τ hτ
    exact ⟨n, us, ⟨m, hm, hn⟩, hus⟩
  · rintro n ⟨m', hm', hn⟩
    rw [hm] at hm'
    cases hm'
    exact hcomplete n hn

/-- Which values the index takes depends on what the bounds look up, and not on the index where
its first value does not. -/
theorem Takes.congr (he : c.Effectless) {ν : Memory} (hlower : ∀ a, c.lower.Reads a → μ a = ν a)
    (hupper : ∀ a, c.upper.Reads a → a ≠ .of c.index → μ a = ν a) (hn : c.Takes μ n) :
    c.Takes ν n := by
  obtain ⟨m, hm, hn⟩ := hn
  refine ⟨m, Expr.value_congr he.1 hlower hm, ?_⟩
  have hw {k : Int} (hk : c.WithinBound (Function.update μ (.of c.index) k)) :
      c.WithinBound (Function.update ν (.of c.index) k) := by
    exact hk.congr he.2 (by simp) fun a ha => Memory.update_congr (hupper a ha)
  clear hm
  induction hn with
  | here h => exact .here (hw h)
  | next h _ ih => exact .next (hw h) ih

end Loop

end CountedLoop

def Keeps (P : Cell → Prop) (body : Memory → Memory → Prop) : Prop :=
  ∀ μ ν, body μ ν → ∀ a, P a → ν a = μ a

theorem keeps_of_update {P : Cell → Prop} {e : Expr} {p : Memory → Cell} {k n : Int}
    (h : ∀ μ, e.value μ = some (n, Function.update μ (p μ) k)) (hp : ∀ μ, ¬ P (p μ)) :
    Keeps P e.effect := by
  rintro μ ν ⟨m, hm⟩ a ha
  rw [h μ] at hm
  cases hm
  refine Function.update_of_ne ?_ k μ
  rintro rfl
  exact hp μ ha

end LoopLegality
