import LoopLegality.Proofs.Aligned
import LoopLegality.Proofs.Memory
import Mathlib.Data.Set.Function

namespace LoopLegality

namespace Root

variable {r : Symbol → Symbol} {xs : List Symbol}

def rename (r : Symbol → Symbol) : Root → Root
  | binding x => binding (r x)
  | o => o

def In (xs : List Symbol) : Root → Prop
  | binding x => x ∈ xs
  | _ => True

theorem rename_injOn (h : Set.InjOn r {x | x ∈ xs}) : Set.InjOn (rename r) {o | o.In xs} := by
  intro o ho p hp hop
  cases o with
  | binding x =>
    cases p with
    | binding y => exact congrArg binding (h ho hp (binding.inj hop))
    | _ => cases hop
  | _ =>
    cases p with
    | binding y => cases hop
    | _ => exact hop

theorem rename_eq_typeSize {o : Root} {s : Span} (h : o.rename r = typeSize s) :
    o = typeSize s := by
  cases o with
  | binding => cases h
  | _ => exact h

end Root

namespace Part

variable {r : Symbol → Symbol} {xs : List Symbol}

def rename (r : Symbol → Symbol) : Part → Part
  | .member m => .member (r m)
  | p => p

def In (xs : List Symbol) : Part → Prop
  | .member m => m ∈ xs
  | _ => True

theorem rename_injOn (h : Set.InjOn r {x | x ∈ xs}) : Set.InjOn (rename r) {p | p.In xs} := by
  intro p hp q hq hpq
  cases p with
  | member m =>
    cases q with
    | member n => exact congrArg member (h hp hq (member.inj hpq))
    | _ => cases hpq
  | _ =>
    cases q with
    | member n => cases hpq
    | _ => exact hpq

theorem map_rename_injOn (h : Set.InjOn r {x | x ∈ xs}) :
    Set.InjOn (List.map (rename r)) {ps | ∀ p ∈ ps, p.In xs} := by
  intro ps hps qs hqs heq
  induction ps generalizing qs with
  | nil => exact (List.map_eq_nil_iff.mp heq.symm).symm
  | cons p ps ih =>
    obtain ⟨q, qs, rfl, hq, hrest⟩ := List.map_eq_cons_iff.mp heq.symm
    obtain ⟨hp, hps⟩ := List.forall_mem_cons.mp hps
    obtain ⟨hq', hqs⟩ := List.forall_mem_cons.mp hqs
    rw [rename_injOn h hp hq' hq.symm, ih hps hqs hrest.symm]

end Part

namespace Cell

variable {r : Symbol → Symbol} {xs : List Symbol}

def rename (r : Symbol → Symbol) (c : Cell) : Cell := (c.1.rename r, c.2.map (Part.rename r))

def In (xs : List Symbol) (c : Cell) : Prop := c.1.In xs ∧ ∀ p ∈ c.2, p.In xs

theorem In.mono {ys : List Symbol} {c : Cell} (h : c.In xs) (hsub : xs ⊆ ys) : c.In ys := by
  refine ⟨?_, fun p hp => ?_⟩
  · cases hc : c.1 with
    | binding x => exact hsub (by simpa [hc, Root.In] using h.1)
    | _ => trivial
  · cases p with
    | member m => exact hsub (h.2 _ hp)
    | _ => trivial

theorem rename_part (c : Cell) (p : Part) :
    (c.part p).rename r = (c.rename r).part (p.rename r) := by
  simp [rename, part]

theorem rename_of_fixed {c : Cell} (h : c.In xs) (hr : ∀ x ∈ xs, r x = x) : c.rename r = c := by
  obtain ⟨o, ps⟩ := c
  refine Prod.ext ?_ ((List.map_congr_left fun p hp => ?_).trans (List.map_id _))
  · cases o with
    | binding x => exact congrArg Root.binding (hr x h.1)
    | _ => rfl
  · cases p with
    | member m => exact congrArg Part.member (hr m (h.2 _ hp))
    | _ => rfl

theorem in_of {x : Symbol} : (of x).In xs ↔ x ∈ xs := by
  simp [In, of, Root.In]

theorem in_target (n : Int) : (target n).In xs := ⟨trivial, nofun⟩

theorem in_part {c : Cell} {p : Part} : (c.part p).In xs ↔ c.In xs ∧ p.In xs := by
  simp only [In, part, List.forall_mem_append, List.forall_mem_singleton, and_assoc]

theorem rename_injOn (h : Set.InjOn r {x | x ∈ xs}) : Set.InjOn (rename r) {c | c.In xs} := by
  rintro ⟨o, ps⟩ ⟨ho, hps⟩ ⟨p, qs⟩ ⟨hp, hqs⟩ heq
  obtain ⟨hop, hpq⟩ := Prod.mk.inj heq
  exact Prod.ext (Root.rename_injOn h ho hp hop) (Part.map_rename_injOn h hps hqs hpq)

def Named (c : Cell) : Prop := ∀ s, c.1 ≠ .typeSize s

/-- The counterpart of a cell: with other names, or the size that is asked for at another place. -/
inductive Image (r : Symbol → Symbol) (ss : List (Span × Span)) : Cell → Cell → Prop
  | named {c} (h : c.Named) : Image r ss (c.rename r) c
  | typeSize {s t} (h : (s, t) ∈ ss) : Image r ss (.typeSize s, []) (.typeSize t, [])

end Cell

namespace Expr

/-- The cells that an expression may stand for, whatever subscripts and addresses give. -/
def Stands : Expr → Cell → Prop
  | .ident x _, c => c = .of x
  | .field o m arrow _, c =>
    ∃ d, (if arrow then ∃ n, d = .target n else o.Stands d) ∧ c = d.part (.member m)
  | .subscript b _ _, c => ∃ d k, b.Stands d ∧ c = d.part (.element k)
  | _, c => ∃ n, c = .target n

/-- The cells that evaluation may look up for this node, whatever subscripts, addresses and
arguments give. -/
def LooksUp : Expr → Cell → Prop
  | .ident x s, c => (ident x s).Stands c
  | .field o m a s, c => (field o m a s).Stands c
  | .subscript b i s, c => (subscript b i s).Stands c
  | .float b _, c => c = (.float b, [])
  | .str t _, c => c = (.text t, [])
  | .sizeOfType s, c => c = (.typeSize s, [])
  | .sizeOf e _, c => ∃ d, e.Stands d ∧ c = d.part .size
  | .call f _ _, c => ∃ d ns, f.Stands d ∧ c = d.part (.result ns)
  | .assign _ l _ _, c => l.Stands c
  | .unary .addressOf e _, c => ∃ d, e.Stands d ∧ c = d.part .address
  | .unary .deref _ _, c => ∃ n, c = .target n
  | .unary op e _, c => op.isIncrement = true ∧ e.Stands c
  | _, _ => False

end Expr

def Node.LooksUp : Node → Cell → Prop
  | declarator d, c => c = .of d.symbol
  | expr e, c => e.LooksUp c

theorem Node.looksUp_of_mem_typeSize {n : Node} {s : Span} (h : s ∈ n.typeSize) :
    n.LooksUp (.typeSize s, []) := by
  cases n with
  | declarator => cases h
  | expr e =>
    cases e with
    | sizeOfType t =>
      obtain rfl := List.mem_singleton.mp h
      rfl
    | _ => cases h

/-- The cells that evaluation may look up. -/
def Expr.Reads (e : Expr) (c : Cell) : Prop := ∃ n ∈ e.nodes, n.LooksUp c

def ForHeader.Reads (h : ForHeader) (c : Cell) : Prop := ∃ n ∈ h.nodes, n.LooksUp c

namespace Expr

def Closed (is : List Expr) : Prop := ∀ i ∈ is, i.nodes ⊆ is

theorem Closed.cons {e : Expr} {is : List Expr} (he : e.nodes = e :: is) (h : Closed is) :
    Closed e.nodes := by
  intro i hi
  rw [he] at hi ⊢
  obtain rfl | hi := List.mem_cons.mp hi
  · rw [he]
    exact List.Subset.refl _
  · exact List.subset_cons_of_subset _ (h i hi)

theorem Closed.append {is js : List Expr} (h : Closed is) (h' : Closed js) : Closed (is ++ js) :=
  List.forall_mem_append.mpr ⟨fun i hi => List.subset_append_of_subset_left _ (h i hi),
    fun i hi => List.subset_append_of_subset_right _ (h' i hi)⟩

mutual

theorem closed_nodes : ∀ e : Expr, Closed e.nodes
  | .int .. | .float .. | .char .. | .str .. | .ident .. | .sizeOfType .. => .cons rfl nofun
  | .field e .. | .unary _ e _ | .cast _ e _ | .sizeOf e _ => .cons rfl (closed_nodes e)
  | .subscript a b _ | .binary _ a b _ | .assign _ a b _ =>
    .cons rfl ((closed_nodes a).append (closed_nodes b))
  | .conditional a b c _ =>
    .cons rfl (((closed_nodes a).append (closed_nodes b)).append (closed_nodes c))
  | .call f as _ => .cons rfl ((closed_nodes f).append (closed_nodesOf as))
  | .comma es _ => .cons rfl (closed_nodesOf es)

theorem closed_nodesOf : ∀ es : List Expr, Closed (nodesOf es)
  | [] => nofun
  | e :: es => (closed_nodes e).append (closed_nodesOf es)

end

theorem Stands.named : ∀ {e : Expr} {c : Cell}, e.Stands c → c.Named ∧ c.In e.mentioned
  | .ident x s, _, rfl => ⟨nofun, by simp [Cell.in_of]⟩
  | .field o m true s, _, ⟨_, ⟨n, rfl⟩, rfl⟩ =>
    ⟨nofun, Cell.in_part.mpr ⟨Cell.in_target n, List.mem_cons_self⟩⟩
  | .field o m false s, _, ⟨d, hd, rfl⟩ =>
    ⟨(Stands.named (e := o) hd).1, Cell.in_part.mpr
      ⟨(Stands.named (e := o) hd).2.mono (List.subset_cons_self ..), List.mem_cons_self⟩⟩
  | .subscript b i s, _, ⟨d, k, hd, rfl⟩ =>
    ⟨hd.named.1, Cell.in_part.mpr ⟨hd.named.2.mono (by simp), trivial⟩⟩
  | .int .., _, ⟨n, rfl⟩ | .float .., _, ⟨n, rfl⟩ | .char .., _, ⟨n, rfl⟩ | .str .., _, ⟨n, rfl⟩
  | .call .., _, ⟨n, rfl⟩ | .unary .., _, ⟨n, rfl⟩ | .binary .., _, ⟨n, rfl⟩
  | .assign .., _, ⟨n, rfl⟩ | .conditional .., _, ⟨n, rfl⟩ | .cast .., _, ⟨n, rfl⟩
  | .sizeOfType .., _, ⟨n, rfl⟩ | .sizeOf .., _, ⟨n, rfl⟩ | .comma .., _, ⟨n, rfl⟩ =>
    ⟨nofun, Cell.in_target n⟩

theorem LooksUp.in_mentioned : ∀ {e : Expr} {c : Cell}, e.LooksUp c → c.In e.mentioned
  | .ident .., _, h | .field .., _, h | .subscript .., _, h => (Stands.named h).2
  | .float .., _, rfl | .str .., _, rfl | .sizeOfType .., _, rfl => ⟨trivial, nofun⟩
  | .sizeOf .., _, ⟨d, hd, rfl⟩ | .unary .addressOf .., _, ⟨d, hd, rfl⟩ =>
    Cell.in_part.mpr ⟨hd.named.2, trivial⟩
  | .call f as s, _, ⟨d, ns, hd, rfl⟩ =>
    Cell.in_part.mpr ⟨hd.named.2.mono (by simp), trivial⟩
  | .assign op l r s, _, h => (Stands.named (e := l) h).2.mono (by simp)
  | .unary .deref .., _, ⟨n, rfl⟩ => Cell.in_target n
  | .unary .preIncr .., _, h | .unary .preDecr .., _, h | .unary .postIncr .., _, h
  | .unary .postDecr .., _, h => h.2.named.2

theorem Reads.in_mentioned {e : Expr} {c : Cell} (h : e.Reads c) : c.In e.mentioned := by
  obtain ⟨n, hn, hc⟩ := h
  refine hc.in_mentioned.mono fun x hx => ?_
  obtain ⟨i, hi, hx⟩ := List.mem_flatMap.mp hx
  exact List.mem_flatMap.mpr ⟨i, e.closed_nodes n hn hi, hx⟩

end Expr

/-- Each of these cells holds in the second memory what its counterpart holds in the first. -/
def Memory.Agree (r : Symbol → Symbol) (ss : List (Span × Span)) (P : Cell → Prop)
    (μ ν : Memory) : Prop :=
  ∀ a b, Cell.Image r ss a b → P b → μ a = ν b

theorem Memory.Agree.update {r : Symbol → Symbol} {ss : List (Span × Span)} {P : Cell → Prop}
    (hinj : Set.InjOn (Cell.rename r) {c | P c}) {c : Cell} (hc : P c) (hnamed : c.Named) (n : Int)
    {μ ν : Memory} (hag : ∀ a b, Cell.Image r ss a b → P b → b ≠ c → μ a = ν b) :
    Memory.Agree r ss P (Function.update μ (c.rename r) n) (Function.update ν c n) := by
  intro a b himage hb
  by_cases h : b = c
  · subst h
    cases himage with
    | named => simp
    | typeSize => exact absurd rfl (hnamed _)
  · have hne : a ≠ c.rename r := by
      cases himage with
      | named => exact fun he => h (hinj hb hc he)
      | typeSize => exact fun he => hnamed _ (Root.rename_eq_typeSize (congrArg Prod.fst he).symm)
    rw [Function.update_of_ne h, Function.update_of_ne hne]
    exact hag a b himage hb h

/-- From memories that agree, both evaluations fail, or both give related results and leave
memories that agree. -/
def Eval.Simulates (r : Symbol → Symbol) (ss : List (Span × Span)) (P : Cell → Prop) {α β : Type}
    (Q : α → β → Prop) (x : Eval α) (y : Eval β) : Prop :=
  ∀ μ ν : Memory, Memory.Agree r ss P μ ν →
    Option.Rel (fun a b => Q a.1 b.1 ∧ Memory.Agree r ss P a.2 b.2) (x μ) (y ν)

namespace Eval.Simulates

variable {r : Symbol → Symbol} {ss : List (Span × Span)} {P : Cell → Prop} {α β γ δ : Type}
  {Q : α → β → Prop} {R : γ → δ → Prop}

theorem pure {a : α} {b : β} (h : Q a b) :
    Simulates r ss P Q (Pure.pure a : Eval α) (Pure.pure b) :=
  fun _ _ hag => .some ⟨h, hag⟩

theorem ofOption (x : Option α) : Simulates r ss P Eq (Eval.ofOption x) (Eval.ofOption x) := by
  intro μ ν hag
  cases x with
  | none => exact .none
  | some a => exact .some ⟨rfl, hag⟩

theorem bind {x : Eval α} {y : Eval β} {f : α → Eval γ} {g : β → Eval δ}
    (h : Simulates r ss P Q x y) (hf : ∀ a b, Q a b → Simulates r ss P R (f a) (g b)) :
    Simulates r ss P R (x >>= f) (y >>= g) := by
  intro μ ν hag
  have hxy := h μ ν hag
  show Option.Rel _ ((x μ).bind fun a => f a.1 a.2) ((y ν).bind fun b => g b.1 b.2)
  generalize x μ = o at hxy ⊢
  generalize y ν = p at hxy ⊢
  cases hxy with
  | none => exact .none
  | some hab => exact hf _ _ hab.1 _ _ hab.2

theorem read {a b : Cell} (h : Cell.Image r ss a b) (hb : P b) :
    Simulates r ss P Eq (Eval.read a) (Eval.read b) :=
  fun _ _ hag => .some ⟨hag a b h hb, hag⟩

theorem write (hinj : Set.InjOn (Cell.rename r) {c | P c}) {c : Cell} (hc : P c) (hnamed : c.Named)
    (n : Int) : Simulates r ss P Eq (Eval.write (c.rename r) n) (Eval.write c n) := by
  intro μ ν hag
  exact .some ⟨rfl, Memory.Agree.update hinj hc hnamed n fun a b himage hb _ => hag a b himage hb⟩

theorem peek {x : Eval α} {y : Eval β} (h : Simulates r ss P Q x y) :
    Simulates r ss P Q x.peek y.peek := by
  intro μ ν hag
  have hxy := h μ ν hag
  simp only [Eval.peek]
  generalize x μ = o at hxy ⊢
  generalize y ν = p at hxy ⊢
  cases hxy with
  | none => exact .none
  | some hab => exact .some ⟨hab.1, hag⟩

theorem eq_some {x : Eval α} {y : Eval β} (h : Simulates r ss P Q x y) {μ ν μ' ν' : Memory}
    (hag : Memory.Agree r ss P μ ν) {a : α} {b : β} (hx : x μ = some (a, μ'))
    (hy : y ν = some (b, ν')) : Q a b ∧ Memory.Agree r ss P μ' ν' := by
  have hrel := h μ ν hag
  rw [hx, hy] at hrel
  cases hrel with
  | some hab => exact hab

end Eval.Simulates

def Referent.rename (r : Symbol → Symbol) : Referent → Referent
  | object c => object (c.rename r)
  | number n => number n

/-- What the expression may stand for, and its counterpart. -/
structure Referent.ImageOf (d : Expr) (r : Symbol → Symbol) (x y : Referent) : Prop where
  image : x = y.rename r
  stands : d.Stands y.cell
  looksUp : ∀ c, y = .object c → d.LooksUp c

namespace Eval.Simulates

variable {r : Symbol → Symbol} {ss : List (Span × Span)} {P : Cell → Prop} {d : Expr}
  {x y : Eval Referent}

abbrev CellOf (d : Expr) (r : Symbol → Symbol) (a b : Cell) : Prop := a = b.rename r ∧ d.Stands b

theorem asCell (h : Simulates r ss P (Referent.ImageOf d r) x y) :
    Simulates r ss P (CellOf d r) x.asCell y.asCell := by
  refine h.bind fun a b hab => .pure ⟨?_, hab.stands⟩
  rw [hab.image]
  cases b <;> rfl

theorem asValue (h : Simulates r ss P (Referent.ImageOf d r) x y)
    (hP : ∀ n ∈ d.nodes, ∀ c, n.LooksUp c → P c) : Simulates r ss P Eq x.asValue y.asValue := by
  refine h.bind fun a b hab => ?_
  obtain ⟨rfl, hstands, hlooks⟩ := hab
  cases b with
  | object c => exact .read (.named hstands.named.1) (hP d d.mem_nodes_self c (hlooks c rfl))
  | number n => exact .pure rfl

theorem asNumber {x y : Eval Int} (h : Simulates r ss P Eq x y) (hd : ∀ n, d.Stands (.target n)) :
    Simulates r ss P (Referent.ImageOf d r) x.asNumber y.asNumber := by
  refine h.bind ?_
  rintro n _ rfl
  exact .pure ⟨rfl, hd n, nofun⟩

theorem asOwner {arrow : Bool} (h : Simulates r ss P (Referent.ImageOf d r) x y)
    (hP : ∀ n ∈ d.nodes, ∀ c, n.LooksUp c → P c) :
    Simulates r ss P (fun a b => a = b.rename r ∧ if arrow then ∃ n, b = .target n else d.Stands b)
      (x.asOwner arrow) (y.asOwner arrow) := by
  cases arrow with
  | false => simpa [Eval.asOwner] using h.asCell
  | true =>
    refine (h.asValue hP).bind ?_
    rintro n _ rfl
    exact .pure ⟨rfl, n, rfl⟩

theorem increment {x y : Eval Cell} (hinj : Set.InjOn (Cell.rename r) {c | P c})
    (h : Simulates r ss P (CellOf d r) x y) (hP : ∀ c, d.Stands c → P c) (k : Int) (after : Bool) :
    Simulates r ss P Eq (x.increment k after) (y.increment k after) := by
  refine h.bind ?_
  rintro _ c ⟨rfl, hc⟩
  refine (Simulates.read (.named hc.named.1) (hP c hc)).bind ?_
  rintro old _ rfl
  refine (Simulates.ofOption _).bind ?_
  rintro new _ rfl
  exact (Simulates.write hinj (hP c hc) hc.named.1 new).bind fun _ _ _ => .pure rfl

end Eval.Simulates

namespace Expr

open Eval

variable {r : Symbol → Symbol} {ss : List (Span × Span)} {P : Cell → Prop}

mutual

/-- Expressions of one shape stand for the same, in memories that agree on the cells involved. -/
theorem Aligned.simulates (hinj : Set.InjOn (Cell.rename r) {c | P c}) :
    ∀ {e d : Expr} {ps : Alignment} {us : List (Span × Span)}, e.Aligned d ps us → ps.Joins r →
    us ⊆ ss → (∀ n ∈ d.nodes, ∀ c, n.LooksUp c → P c) →
    Simulates r ss P (Referent.ImageOf d r) e.denote d.denote
  | _, _, _, _, .int .., _, _, _ => .pure ⟨rfl, ⟨_, rfl⟩, nofun⟩
  | _, _, _, _, .float b s t, _, _, hP =>
    (Simulates.read (.named (c := (.float b, [])) nofun)
      ((List.forall_mem_cons.mp hP).1 _ rfl)).asNumber fun n => ⟨n, rfl⟩
  | _, _, _, _, .str c s t, _, _, hP =>
    (Simulates.read (.named (c := (.text c, [])) nofun)
      ((List.forall_mem_cons.mp hP).1 _ rfl)).asNumber fun n => ⟨n, rfl⟩
  | _, _, _, _, .sizeOfType s t, _, hs, hP =>
    (Simulates.read (.typeSize (hs List.mem_cons_self))
      ((List.forall_mem_cons.mp hP).1 _ rfl)).asNumber fun n => ⟨n, rfl⟩
  | _, _, _, _, .char .., _, _, _ => (Simulates.ofOption _).asNumber fun n => ⟨n, rfl⟩
  | _, _, _, _, .ident x y s t, hj, _, _ => by
    obtain rfl : x = r y := hj _ List.mem_cons_self
    exact .pure ⟨rfl, rfl, by rintro _ ⟨⟩; rfl⟩
  | _, .field p _ _ _, _, _, .field x y a s t ho, hj, hs, hP => by
    obtain ⟨hxy, hjo⟩ := Alignment.joins_append.mp hj
    obtain rfl : x = r y := hxy _ List.mem_cons_self
    have hPo := (List.forall_mem_cons.mp hP).2
    refine ((ho.simulates hinj hjo hs hPo).asOwner hPo).bind ?_
    rintro _ c ⟨rfl, hc⟩
    have hstands : (field p y a t).Stands (c.part (.member y)) := ⟨c, hc, rfl⟩
    refine .pure ⟨congrArg _ (c.rename_part (.member y)).symm, hstands, ?_⟩
    rintro _ ⟨⟩
    exact hstands
  | _, .subscript b i _, _, _, .subscript s t hb hi, hj, hs, hP => by
    obtain ⟨hjb, hji⟩ := Alignment.joins_append.mp hj
    obtain ⟨hsb, hsi⟩ := List.append_subset.mp hs
    obtain ⟨hPb, hPi⟩ := List.forall_mem_append.mp (List.forall_mem_cons.mp hP).2
    refine (hb.simulates hinj hjb hsb hPb).asCell.bind ?_
    rintro _ c ⟨rfl, hc⟩
    refine ((hi.simulates hinj hji hsi hPi).asValue hPi).bind ?_
    rintro k _ rfl
    have hstands : (subscript b i t).Stands (c.part (.element k)) := ⟨c, k, hc, rfl⟩
    refine .pure ⟨congrArg _ (c.rename_part (.element k)).symm, hstands, ?_⟩
    rintro _ ⟨⟩
    exact hstands
  | _, _, _, _, .call s t hf has, hj, hs, hP => by
    obtain ⟨hjf, hjas⟩ := Alignment.joins_append.mp hj
    obtain ⟨hsf, hsas⟩ := List.append_subset.mp hs
    obtain ⟨hself, hrest⟩ := List.forall_mem_cons.mp hP
    obtain ⟨hPf, hPas⟩ := List.forall_mem_append.mp hrest
    refine ((hf.simulates hinj hjf hsf hPf).asCell.bind ?_).asNumber fun n => ⟨n, rfl⟩
    rintro _ c ⟨rfl, hc⟩
    refine (has.simulates hinj hjas hsas hPas).bind ?_
    rintro ns _ rfl
    exact c.rename_part (.result ns) ▸ .read (.named hc.named.1) (hself _ ⟨c, ns, hc, rfl⟩)
  | _, .unary _ b _, _, _, .unary op s t ha, hj, hs, hP => by
    obtain ⟨hself, hPa⟩ := List.forall_mem_cons.mp hP
    have hsim := ha.simulates hinj hj hs hPa
    cases op with
    | deref =>
      refine (hsim.asValue hPa).bind ?_
      rintro n _ rfl
      exact .pure ⟨rfl, ⟨n, rfl⟩, by rintro _ ⟨⟩; exact ⟨n, rfl⟩⟩
    | addressOf =>
      refine (hsim.asCell.bind ?_).asNumber fun n => ⟨n, rfl⟩
      rintro _ c ⟨rfl, hc⟩
      exact c.rename_part .address ▸ .read (.named hc.named.1) (hself _ ⟨c, hc, rfl⟩)
    | preIncr | preDecr | postIncr | postDecr =>
      exact (hsim.asCell.increment hinj (fun c hc => hself c ⟨rfl, hc⟩) _ _).asNumber
        fun n => ⟨n, rfl⟩
    | plus | neg | not | complement =>
      refine ((hsim.asValue hPa).bind ?_).asNumber fun n => ⟨n, rfl⟩
      rintro n _ rfl
      exact .ofOption _
  | _, _, _, _, .binary op s t ha hc, hj, hs, hP => by
    obtain ⟨hja, hjc⟩ := Alignment.joins_append.mp hj
    obtain ⟨hsa, hsc⟩ := List.append_subset.mp hs
    obtain ⟨hPa, hPc⟩ := List.forall_mem_append.mp (List.forall_mem_cons.mp hP).2
    refine (((ha.simulates hinj hja hsa hPa).asValue hPa).bind ?_).asNumber fun n => ⟨n, rfl⟩
    rintro n _ rfl
    split
    · exact .pure rfl
    · refine ((hc.simulates hinj hjc hsc hPc).asValue hPc).bind ?_
      rintro m _ rfl
      exact .ofOption _
  | _, _, _, _, .assign op s t ha hc, hj, hs, hP => by
    obtain ⟨hja, hjc⟩ := Alignment.joins_append.mp hj
    obtain ⟨hsa, hsc⟩ := List.append_subset.mp hs
    obtain ⟨hself, hrest⟩ := List.forall_mem_cons.mp hP
    obtain ⟨hPa, hPc⟩ := List.forall_mem_append.mp hrest
    refine ((ha.simulates hinj hja hsa hPa).asCell.bind ?_).asNumber fun n => ⟨n, rfl⟩
    rintro _ p ⟨rfl, hp⟩
    refine (Simulates.read (.named hp.named.1) (hself p hp)).bind ?_
    rintro old _ rfl
    refine ((hc.simulates hinj hjc hsc hPc).asValue hPc).bind ?_
    rintro m _ rfl
    refine (Simulates.ofOption _).bind ?_
    rintro n _ rfl
    exact (Simulates.write hinj (hself p hp) hp.named.1 n).bind fun _ _ _ => .pure rfl
  | _, _, _, _, .conditional s t ha hc he, hj, hs, hP => by
    obtain ⟨hja, hj⟩ := Alignment.joins_append.mp hj
    obtain ⟨hjc, hje⟩ := Alignment.joins_append.mp hj
    obtain ⟨hsa, hs⟩ := List.append_subset.mp hs
    obtain ⟨hsc, hse⟩ := List.append_subset.mp hs
    obtain ⟨hrest, hPe⟩ := List.forall_mem_append.mp (List.forall_mem_cons.mp hP).2
    obtain ⟨hPa, hPc⟩ := List.forall_mem_append.mp hrest
    refine (((ha.simulates hinj hja hsa hPa).asValue hPa).bind ?_).asNumber fun n => ⟨n, rfl⟩
    rintro n _ rfl
    split
    · exact (he.simulates hinj hje hse hPe).asValue hPe
    · exact (hc.simulates hinj hjc hsc hPc).asValue hPc
  | _, _, _, _, .cast u s t ha, hj, hs, hP => by
    have hPa := (List.forall_mem_cons.mp hP).2
    exact ((ha.simulates hinj hj hs hPa).asValue hPa).asNumber fun n => ⟨n, rfl⟩
  | _, _, _, _, .sizeOf s t ha, hj, hs, hP => by
    obtain ⟨hself, hPa⟩ := List.forall_mem_cons.mp hP
    refine ((ha.simulates hinj hj hs hPa).asCell.peek.bind ?_).asNumber fun n => ⟨n, rfl⟩
    rintro _ c ⟨rfl, hc⟩
    exact c.rename_part .size ▸ .read (.named hc.named.1) (hself _ ⟨c, hc, rfl⟩)
  | _, _, _, _, .comma s t has, hj, hs, hP => by
    have hPas := (List.forall_mem_cons.mp hP).2
    refine ((has.simulates hinj hj hs hPas).bind ?_).asNumber fun n => ⟨n, rfl⟩
    rintro ns _ rfl
    exact .ofOption _

theorem AlignedAll.simulates (hinj : Set.InjOn (Cell.rename r) {c | P c}) :
    ∀ {as bs : List Expr} {ps : Alignment} {us : List (Span × Span)}, AlignedAll as bs ps us →
    ps.Joins r → us ⊆ ss → (∀ n ∈ nodesOf bs, ∀ c, n.LooksUp c → P c) →
    Simulates r ss P Eq (values as) (values bs)
  | _, _, _, _, .nil, _, _, _ => .pure rfl
  | _, _, _, _, .cons ha has, hj, hs, hP => by
    obtain ⟨hja, hjas⟩ := Alignment.joins_append.mp hj
    obtain ⟨hsa, hsas⟩ := List.append_subset.mp hs
    obtain ⟨hPa, hPas⟩ := List.forall_mem_append.mp hP
    refine ((ha.simulates hinj hja hsa hPa).asValue hPa).bind ?_
    rintro n _ rfl
    refine (has.simulates hinj hjas hsas hPas).bind ?_
    rintro ns _ rfl
    exact .pure rfl

end

theorem Aligned.stands : ∀ {e d : Expr} {ps : Alignment} {us : List (Span × Span)},
    e.Aligned d ps us → ps.Joins r → ∀ {c : Cell}, d.Stands c → e.Stands (c.rename r)
  | _, _, _, _, .ident x y s t, hj, _, rfl => by
    obtain rfl : x = r y := hj _ List.mem_cons_self
    rfl
  | _, _, _, _, .field x y a s t ho, hj, _, ⟨d, hd, rfl⟩ => by
    obtain ⟨hxy, hjo⟩ := Alignment.joins_append.mp hj
    obtain rfl : x = r y := hxy _ List.mem_cons_self
    refine ⟨d.rename r, ?_, d.rename_part _⟩
    cases a with
    | false => exact ho.stands hjo hd
    | true =>
      obtain ⟨n, rfl⟩ := hd
      exact ⟨n, rfl⟩
  | _, _, _, _, .subscript _ _ hb _, hj, _, ⟨d, k, hd, rfl⟩ =>
    ⟨d.rename r, k, hb.stands (Alignment.joins_append.mp hj).1 hd, d.rename_part _⟩
  | _, _, _, _, .int .., _, _, ⟨n, rfl⟩ | _, _, _, _, .float .., _, _, ⟨n, rfl⟩
  | _, _, _, _, .char .., _, _, ⟨n, rfl⟩ | _, _, _, _, .str .., _, _, ⟨n, rfl⟩
  | _, _, _, _, .call .., _, _, ⟨n, rfl⟩ | _, _, _, _, .unary .., _, _, ⟨n, rfl⟩
  | _, _, _, _, .binary .., _, _, ⟨n, rfl⟩ | _, _, _, _, .assign .., _, _, ⟨n, rfl⟩
  | _, _, _, _, .conditional .., _, _, ⟨n, rfl⟩ | _, _, _, _, .cast .., _, _, ⟨n, rfl⟩
  | _, _, _, _, .sizeOfType .., _, _, ⟨n, rfl⟩ | _, _, _, _, .sizeOf .., _, _, ⟨n, rfl⟩
  | _, _, _, _, .comma .., _, _, ⟨n, rfl⟩ => ⟨n, rfl⟩

theorem Aligned.looksUp {e d : Expr} {ps : Alignment} {us : List (Span × Span)}
    (h : e.Aligned d ps us) (hj : ps.Joins r) {c : Cell} (hc : d.LooksUp c) (hnamed : c.Named) :
    e.LooksUp (c.rename r) := by
  cases h with
  | ident x y s t => exact (Aligned.ident x y s t).stands hj hc
  | field x y a s t ho => exact (Aligned.field x y a s t ho).stands hj hc
  | subscript s t hb hi => exact (Aligned.subscript s t hb hi).stands hj hc
  | float | str =>
    obtain rfl := hc
    rfl
  | sizeOfType s t =>
    obtain rfl := hc
    exact absurd rfl (hnamed t)
  | sizeOf s t ha =>
    obtain ⟨d, hd, rfl⟩ := hc
    exact ⟨_, ha.stands hj hd, d.rename_part _⟩
  | call s t hf has =>
    obtain ⟨d, ns, hd, rfl⟩ := hc
    exact ⟨_, ns, hf.stands (Alignment.joins_append.mp hj).1 hd, d.rename_part _⟩
  | assign op s t ha => exact ha.stands (Alignment.joins_append.mp hj).1 hc
  | unary op s t ha =>
    cases op with
    | addressOf =>
      obtain ⟨d, hd, rfl⟩ := hc
      exact ⟨_, ha.stands hj hd, d.rename_part _⟩
    | deref =>
      obtain ⟨n, rfl⟩ := hc
      exact ⟨n, rfl⟩
    | preIncr | preDecr | postIncr | postDecr => exact ⟨rfl, ha.stands hj hc.2⟩
    | plus | neg | not | complement => cases hc.1
  | _ => cases hc

/-- Each of the second nodes is aligned with one of the first, along some of the pairs. -/
def Covers (is js : List Expr) (ps : Alignment) : Prop :=
  ∀ j ∈ js, ∃ i ∈ is, ∃ qs us, i.Aligned j qs us ∧ qs ⊆ ps

namespace Covers

variable {is js ks ls : List Expr} {ps qs : Alignment} {us : List (Span × Span)} {e d : Expr}

theorem cons (h : e.Aligned d ps us) (hrest : Covers is js ps) : Covers (e :: is) (d :: js) ps := by
  refine List.forall_mem_cons.mpr ⟨⟨e, List.mem_cons_self, ps, us, h, List.Subset.refl _⟩, ?_⟩
  intro j hj
  obtain ⟨i, hi, h⟩ := hrest j hj
  exact ⟨i, List.mem_cons_of_mem _ hi, h⟩

theorem single (h : e.Aligned d ps us) : Covers [e] [d] ps := cons h nofun

theorem append (h : Covers is js ps) (h' : Covers ks ls qs) :
    Covers (is ++ ks) (js ++ ls) (ps ++ qs) := by
  refine List.forall_mem_append.mpr ⟨fun j hj => ?_, fun j hj => ?_⟩
  · obtain ⟨i, hi, rs, us, ha, hsub⟩ := h j hj
    exact ⟨i, List.mem_append_left _ hi, rs, us, ha, List.subset_append_of_subset_left _ hsub⟩
  · obtain ⟨i, hi, rs, us, ha, hsub⟩ := h' j hj
    exact ⟨i, List.mem_append_right _ hi, rs, us, ha, List.subset_append_of_subset_right _ hsub⟩

end Covers

mutual

theorem Aligned.covers : ∀ {e d : Expr} {ps : Alignment} {us : List (Span × Span)},
    e.Aligned d ps us → Covers e.nodes d.nodes ps
  | _, _, _, _, .int n s t => .single (.int n s t)
  | _, _, _, _, .float b s t => .single (.float b s t)
  | _, _, _, _, .char c s t => .single (.char c s t)
  | _, _, _, _, .str c s t => .single (.str c s t)
  | _, _, _, _, .ident x y s t => .single (.ident x y s t)
  | _, _, _, _, .sizeOfType s t => .single (.sizeOfType s t)
  | _, _, _, _, .field x y a s t ho => .cons (.field x y a s t ho) fun j hj => by
    obtain ⟨i, hi, rs, us, ha, hsub⟩ := ho.covers j hj
    exact ⟨i, hi, rs, us, ha, List.subset_append_of_subset_right _ hsub⟩
  | _, _, _, _, .subscript s t hb hi => .cons (.subscript s t hb hi) (hb.covers.append hi.covers)
  | _, _, _, _, .call s t hf has => .cons (.call s t hf has) (hf.covers.append has.covers)
  | _, _, _, _, .unary op s t ha => .cons (.unary op s t ha) ha.covers
  | _, _, _, _, .binary op s t ha hc => .cons (.binary op s t ha hc) (ha.covers.append hc.covers)
  | _, _, _, _, .assign op s t ha hc => .cons (.assign op s t ha hc) (ha.covers.append hc.covers)
  | _, _, _, _, .conditional s t ha hc he => by
    refine .cons (.conditional s t ha hc he) ?_
    rw [List.append_assoc, List.append_assoc]
    exact ha.covers.append (hc.covers.append he.covers)
  | _, _, _, _, .cast u s t ha => .cons (.cast u s t ha) ha.covers
  | _, _, _, _, .sizeOf s t ha => .cons (.sizeOf s t ha) ha.covers
  | _, _, _, _, .comma s t has => .cons (.comma s t has) has.covers

theorem AlignedAll.covers : ∀ {as bs : List Expr} {ps : Alignment} {us : List (Span × Span)},
    AlignedAll as bs ps us → Covers (nodesOf as) (nodesOf bs) ps
  | _, _, _, _, .nil => nofun
  | _, _, _, _, .cons ha has => ha.covers.append has.covers

end

theorem Aligned.reads {e d : Expr} {ps : Alignment} {us : List (Span × Span)}
    (h : e.Aligned d ps us) (hj : ps.Joins r) {c : Cell} (hc : d.Reads c) (hnamed : c.Named) :
    e.Reads (c.rename r) := by
  obtain ⟨j, hj', hc⟩ := hc
  obtain ⟨i, hi, qs, us, ha, hsub⟩ := h.covers j hj'
  exact ⟨i, hi, ha.looksUp (fun p hp => hj p (hsub hp)) hc hnamed⟩

/-- Two expressions of one shape: where the second mentions a binding, the first mentions its
image, and where the second asks for the size of a type, the first does so at a place that is paired
with it. -/
def Matches (r : Symbol → Symbol) (ss : List (Span × Span)) (e d : Expr) : Prop :=
  ∃ ps us, e.Aligned d ps us ∧ ps.Joins r ∧ us ⊆ ss

namespace Matches

variable {e d : Expr}

/-- Expressions of one shape give the same number, in memories that agree on the cells
involved. -/
theorem value (h : e.Matches r ss d) (hinj : Set.InjOn (Cell.rename r) {c | P c})
    (hP : ∀ c, d.Reads c → P c) : Simulates r ss P Eq e.value d.value := by
  obtain ⟨ps, us, h, hj, hs⟩ := h
  have hP : ∀ n ∈ d.nodes, ∀ c, n.LooksUp c → P c := fun n hn c hc => hP c ⟨n, hn, hc⟩
  exact (h.simulates hinj hj hs hP).asValue hP

end Matches

theorem Aligned.int? : ∀ {e d : Expr} {ps : Alignment} {us : List (Span × Span)},
    e.Aligned d ps us → e.int? = d.int?
  | _, _, _, _, .unary op _ _ ha => by
    cases op with
    | neg => exact congrArg (Option.bind · Word.neg?) ha.int?
    | plus => simpa only [Expr.int?] using ha.int?
    | _ => rfl
  | _, _, _, _, .int .. | _, _, _, _, .float .. | _, _, _, _, .char .. | _, _, _, _, .str ..
  | _, _, _, _, .ident .. | _, _, _, _, .field .. | _, _, _, _, .subscript ..
  | _, _, _, _, .call .. | _, _, _, _, .binary .. | _, _, _, _, .assign ..
  | _, _, _, _, .conditional .. | _, _, _, _, .cast .. | _, _, _, _, .sizeOfType ..
  | _, _, _, _, .sizeOf .. | _, _, _, _, .comma .. => rfl

end Expr

end LoopLegality
