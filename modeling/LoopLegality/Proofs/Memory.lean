import LoopLegality.Proofs.Execution

namespace LoopLegality

/-- Where the way to a number starts. The sizes of types are told apart by the places of the text
that ask for them. -/
inductive Root where
  | binding (x : Symbol)
  | target (address : Int)
  | float (bits : Nat)
  | text (literal : String)
  | typeSize (place : Span)
deriving DecidableEq

/-- A step from an object to one inside it, or to what is known of it. -/
inductive Part where
  | element (index : Int)
  | member (name : Symbol)
  | size
  | address
  | result (args : List Int)
deriving DecidableEq

/-- A root, and the way from it to the number in question. -/
abbrev Cell := Root × List Part

namespace Cell

def of (x : Symbol) : Cell := (.binding x, [])

def target (address : Int) : Cell := (.target address, [])

def part (c : Cell) (p : Part) : Cell := (c.1, c.2 ++ [p])

end Cell

/-- The numbers in all cells. The result of a function is one of its cells, so that a call always
gives the same for the same arguments. -/
abbrev Memory := Cell → Int

namespace Memory

def values (μ : Memory) : Values := fun x => μ (.of x)

theorem values_update_of_ne {c : Cell} (h : ∀ x, c ≠ .of x) (μ : Memory) (n : Int) :
    values (Function.update μ c n) = μ.values := by
  funext x
  exact Function.update_of_ne (h x).symm n μ

theorem values_update_part (c : Cell) (p : Part) (μ : Memory) (n : Int) :
    values (Function.update μ (c.part p) n) = μ.values :=
  values_update_of_ne (fun x he => by simpa [Cell.of, Cell.part] using congrArg Prod.snd he) μ n

theorem values_update_of (x : Symbol) (μ : Memory) (n : Int) :
    values (Function.update μ (.of x) n) = Function.update μ.values x n := by
  funext y
  by_cases hy : y = x
  · simp [values, hy]
  · have hne : Cell.of y ≠ .of x := fun he => hy (Root.binding.inj (congrArg Prod.fst he))
    simp [values, hy, hne]

theorem update_congr {μ ν : Memory} {a c : Cell} {n : Int} (h : a ≠ c → μ a = ν a) :
    Function.update μ c n a = Function.update ν c n a := by
  by_cases hac : a = c
  · rw [hac, Function.update_self, Function.update_self]
  · rw [Function.update_of_ne hac, Function.update_of_ne hac, h hac]

end Memory

inductive Referent where
  | object (c : Cell)
  | number (n : Int)

namespace Referent

/-- A number stands for what it leads to as an address. -/
def cell : Referent → Cell
  | object c => c
  | number n => .target n

def get (μ : Memory) : Referent → Int
  | object c => μ c
  | number n => n

end Referent

abbrev Eval (α : Type) := StateT Memory Option α

namespace Eval

def read (c : Cell) : Eval Int := fun μ => some (μ c, μ)

def write (c : Cell) (n : Int) : Eval Unit := fun μ => some ((), Function.update μ c n)

def ofOption {α : Type} (x : Option α) : Eval α := fun μ => x.map (·, μ)

/-- What an evaluation gives, with no trace of it left in the memory. -/
def peek {α : Type} (x : Eval α) : Eval α := fun μ => (x μ).map fun r => (r.1, μ)

def asCell (x : Eval Referent) : Eval Cell := do return (← x).cell

def asValue (x : Eval Referent) : Eval Int := do
  let d ← x
  fun μ => some (d.get μ, μ)

def asOwner (arrow : Bool) (x : Eval Referent) : Eval Cell :=
  if arrow then do return .target (← asValue x) else asCell x

def increment (x : Eval Cell) (k : Int) (after : Bool) : Eval Int := do
  let c ← x
  let old ← read c
  let new ← ofOption (Word.add? old k)
  write c new
  return if after then old else new

def asNumber (x : Eval Int) : Eval Referent := do return .number (← x)

@[simp] theorem asValue_asNumber (x : Eval Int) : asValue (asNumber x) = x := by
  funext μ
  show ((x μ).bind fun r => some (Referent.number r.1, r.2)).bind
    (fun r => some (r.1.get r.2, r.2)) = x μ
  cases x μ <;> rfl

theorem read_bind {α : Type} (c : Cell) (f : Int → Eval α) (μ : Memory) :
    (read c >>= f) μ = f (μ c) μ := rfl

@[simp] theorem ofOption_some {α : Type} (a : α) : ofOption (some a) = pure a := rfl

theorem ofOption_eq_some {α : Type} {x : Option α} {μ ν : Memory} {a : α} :
    ofOption x μ = some (a, ν) ↔ x = some a ∧ ν = μ := by
  cases x <;> simp [ofOption, eq_comm]

theorem bind_eq_some {α β : Type} {x : Eval α} {f : α → Eval β} {μ ω : Memory} {b : β} :
    (x >>= f) μ = some (b, ω) ↔ ∃ a ν, x μ = some (a, ν) ∧ f a ν = some (b, ω) := by
  show (x μ).bind (fun a => f a.1 a.2) = some (b, ω) ↔ _
  rw [Option.bind_eq_some_iff, Prod.exists]

theorem asCell_eq_some {x : Eval Referent} {μ ν : Memory} {c : Cell}
    (h : asCell x μ = some (c, ν)) : ∃ d, x μ = some (d, ν) ∧ d.cell = c := by
  obtain ⟨d, _, hd, ⟨⟩⟩ := bind_eq_some.mp h
  exact ⟨d, hd, rfl⟩

theorem asValue_eq_some {x : Eval Referent} {μ ν : Memory} {n : Int}
    (h : asValue x μ = some (n, ν)) : ∃ d, x μ = some (d, ν) ∧ d.get ν = n := by
  obtain ⟨d, _, hd, ⟨⟩⟩ := bind_eq_some.mp h
  exact ⟨d, hd, rfl⟩

theorem asOwner_eq_some {arrow : Bool} {x : Eval Referent} {μ ν : Memory} {c : Cell}
    (h : asOwner arrow x μ = some (c, ν)) : ∃ d, x μ = some (d, ν) := by
  cases arrow with
  | false =>
    obtain ⟨d, hd, -⟩ := asCell_eq_some h
    exact ⟨d, hd⟩
  | true =>
    obtain ⟨n, _, hn, ⟨⟩⟩ := bind_eq_some.mp h
    obtain ⟨d, hd, -⟩ := asValue_eq_some hn
    exact ⟨d, hd⟩

theorem asNumber_eq_some {x : Eval Int} {μ ν : Memory} {d : Referent}
    (h : asNumber x μ = some (d, ν)) : ∃ n, x μ = some (n, ν) ∧ d = .number n := by
  obtain ⟨n, _, hn, ⟨⟩⟩ := bind_eq_some.mp h
  exact ⟨n, hn, rfl⟩

end Eval

namespace Expr

open Eval

mutual

/-- Operators give what they give on constants. Calls write nothing. What is no whole number is
read from memory: floating-point numbers, the addresses of texts and objects, and sizes. What a
pointer leads to is taken to be no part of a variable. -/
def denote : Expr → Eval Referent
  | .int n _ => pure (.number n)
  | .float bits _ => asNumber <| read (.float bits, [])
  | .char text _ => asNumber <| ofOption (charValue? text.toList)
  | .str text _ => asNumber <| read (.text text, [])
  | .ident x _ => pure (.object (.of x))
  | .field o m arrow _ => do
    let c ← asOwner arrow o.denote
    return .object (c.part (.member m))
  | .subscript b i _ => do
    let c ← asCell b.denote
    let k ← asValue i.denote
    return .object (c.part (.element k))
  | .call f args _ => asNumber do
    let c ← asCell f.denote
    let ns ← values args
    read (c.part (.result ns))
  | .unary op e _ => match op with
    | .deref => do return .object (.target (← asValue e.denote))
    | .addressOf => asNumber do
      let c ← asCell e.denote
      read (c.part .address)
    | op => match op.change? with
      | some k => asNumber <| increment (asCell e.denote) k op.isPostfix
      | none => asNumber do
        let n ← asValue e.denote
        ofOption (op.result? n)
  | .binary op l r _ => asNumber do
    let a ← asValue l.denote
    match op.settled? a with
    | some n => return n
    | none => do
      let b ← asValue r.denote
      ofOption (op.result? a b)
  | .assign op l r _ => asNumber do
    let c ← asCell l.denote
    let old ← read c
    let new ← asValue r.denote
    let n ← ofOption (op.result? old new)
    write c n
    return n
  | .conditional c t f _ => asNumber do
    let a ← asValue c.denote
    if a = 0 then asValue f.denote else asValue t.denote
  | .cast _ e _ => asNumber <| asValue e.denote
  | .sizeOfType s => asNumber <| read (.typeSize s, [])
  | .sizeOf e _ => asNumber do
    let c ← peek (asCell e.denote)
    read (c.part .size)
  | .comma es _ => asNumber do
    let ns ← values es
    ofOption ns.getLast?

def values : List Expr → Eval (List Int)
  | [] => pure []
  | e :: es => do
    let n ← asValue e.denote
    return n :: (← values es)

end

def value (e : Expr) : Eval Int := asValue e.denote

theorem value_ident (x : Symbol) (s : Span) : (ident x s).value = read (.of x) := rfl

theorem value_binary (op : BinaryOp) (l r : Expr) (s : Span) : (binary op l r s).value = (do
    let a ← l.value
    match op.settled? a with
    | some n => return n
    | none => do
      let b ← r.value
      ofOption (op.result? a b)) :=
  asValue_asNumber _

theorem value_assign_ident (op : AssignOp) (x : Symbol) (e : Expr) (s t : Span) :
    (assign op (ident x s) e t).value = (do
      let old ← read (.of x)
      let new ← e.value
      let n ← ofOption (op.result? old new)
      write (.of x) n
      return n) :=
  asValue_asNumber _

theorem value_increment_ident {op : UnaryOp} {k : Int} (hop : op.change? = some k) (x : Symbol)
    (s t : Span) : (unary op (ident x s) t).value = increment (pure (.of x)) k op.isPostfix := by
  cases op with
  | preIncr | preDecr | postIncr | postDecr =>
    cases hop
    exact asValue_asNumber _
  | _ => cases hop

/-- What may be written without following a pointer. -/
def isPlace : Expr → Bool
  | .ident .. | .field .. | .subscript .. => true
  | _ => false

/-- No call, no pointer and no write to anything but a variable, a member or an element. -/
def isDirect : Expr → Bool
  | .call .. | .unary .deref .. | .unary .addressOf .. => false
  | .unary op e _ => !op.isIncrement || e.isPlace
  | .assign _ l _ _ => l.isPlace
  | _ => true

theorem object_of_isPlace {e : Expr} (he : e.isPlace = true) {μ ν : Memory} {d : Referent}
    (h : e.denote μ = some (d, ν)) : ∃ c, d = .object c ∧
      ∀ (ω : Memory) (n : Int), e.Stores ω.values n (Memory.values (Function.update ω c n)) := by
  cases e with
  | ident x s =>
    cases h
    exact ⟨_, rfl, Memory.values_update_of x⟩
  | field o m a s =>
    obtain ⟨c, _, -, ⟨⟩⟩ := bind_eq_some.mp h
    exact ⟨_, rfl, Memory.values_update_part c (.member m)⟩
  | subscript b i s =>
    obtain ⟨c, _, -, h⟩ := bind_eq_some.mp h
    obtain ⟨k, _, -, ⟨⟩⟩ := bind_eq_some.mp h
    exact ⟨_, rfl, Memory.values_update_part c (.element k)⟩
  | _ => cases he

def Refines (x : Eval Referent) (p : Evaluation) : Prop :=
  ∀ μ ν d, x μ = some (d, ν) → p μ.values (d.get ν) ν.values

theorem Refines.of_asValue {x : Eval Referent} {p : Evaluation} (h : Refines x p)
    {μ ν : Memory} {n : Int} (hx : asValue x μ = some (n, ν)) : p μ.values n ν.values := by
  obtain ⟨d, hd, rfl⟩ := asValue_eq_some hx
  exact h μ ν d hd

mutual

/-- Evaluation here is one of those that leave the order and the contents of arrays open. -/
theorem denote_refines : ∀ {e : Expr}, (∀ n ∈ e.nodes, n.isDirect = true) →
    Refines e.denote e.Yields
  | .int .., _, _, _, _, h | .ident .., _, _, _, _, h => by
    cases h
    exact ⟨rfl, rfl⟩
  | .float .., _, _, _, _, h | .str .., _, _, _, _, h | .sizeOfType _, _, _, _, _, h => by
    obtain ⟨_, ⟨⟩, -⟩ := asNumber_eq_some h
    rfl
  | .char text _, _, _, _, _, h => by
    obtain ⟨n, hn, rfl⟩ := asNumber_eq_some h
    obtain ⟨hchar, rfl⟩ := ofOption_eq_some.mp hn
    exact ⟨hchar, rfl⟩
  | .field o _ _ _, hd, _, _, _, h => by
    obtain ⟨c, _, hc, ⟨⟩⟩ := bind_eq_some.mp h
    obtain ⟨d, ho⟩ := asOwner_eq_some hc
    exact ⟨_, denote_refines (List.forall_mem_cons.mp hd).2 _ _ _ ho⟩
  | .subscript b i _, hd, _, _, _, h => by
    obtain ⟨hb, hi⟩ := List.forall_mem_append.mp (List.forall_mem_cons.mp hd).2
    obtain ⟨c, _, hc, h⟩ := bind_eq_some.mp h
    obtain ⟨k, _, hk, ⟨⟩⟩ := bind_eq_some.mp h
    obtain ⟨d, hd, -⟩ := asCell_eq_some hc
    exact ⟨_, k, Or.inl ⟨_, denote_refines hb _ _ _ hd, (denote_refines hi).of_asValue hk⟩⟩
  | .call .., hd, _, _, _, _ => nomatch (List.forall_mem_cons.mp hd).1
  | .unary op e _, hd, _, _, _, h => by
    obtain ⟨hself, he⟩ := List.forall_mem_cons.mp hd
    simp only [denote] at h
    split at h
    · cases hself
    · cases hself
    · next hderef haddress =>
      cases hop : op.change? with
      | some k =>
        have hplace : e.isPlace = true := by
          cases op with
          | preIncr | preDecr | postIncr | postDecr => exact hself
          | _ => cases hop
        simp only [hop] at h
        obtain ⟨m, hm, rfl⟩ := asNumber_eq_some h
        obtain ⟨c, τ, hc, hm⟩ := bind_eq_some.mp hm
        obtain ⟨_, _, ⟨⟩, hm⟩ := bind_eq_some.mp hm
        obtain ⟨new, _, hnew, hwrite⟩ := bind_eq_some.mp hm
        obtain ⟨hadd, rfl⟩ := ofOption_eq_some.mp hnew
        obtain ⟨_, _, ⟨⟩, ⟨⟩⟩ := bind_eq_some.mp hwrite
        obtain ⟨d, hd, rfl⟩ := asCell_eq_some hc
        obtain ⟨c, rfl, hstores⟩ := object_of_isPlace hplace hd
        simp only [Yields, hop]
        exact ⟨_, new, _, denote_refines he _ _ _ hd, hadd, hstores _ _, rfl⟩
      | none =>
        simp only [hop] at h
        obtain ⟨m, hm, rfl⟩ := asNumber_eq_some h
        obtain ⟨a, _, ha, hm⟩ := bind_eq_some.mp hm
        obtain ⟨happly, rfl⟩ := ofOption_eq_some.mp hm
        simp only [Yields, hop]
        exact ⟨a, (denote_refines he).of_asValue ha, happly⟩
  | .binary op l r _, hd, _, _, _, h => by
    obtain ⟨hl, hr⟩ := List.forall_mem_append.mp (List.forall_mem_cons.mp hd).2
    obtain ⟨n, hn, rfl⟩ := asNumber_eq_some h
    obtain ⟨a, τ, ha, hn⟩ := bind_eq_some.mp hn
    have hleft := (denote_refines hl).of_asValue ha
    simp only [Yields]
    cases hsettled : op.settled? a with
    | some m =>
      simp only [hsettled] at hn
      cases hn
      exact Or.inl ⟨a, hleft, hsettled⟩
    | none =>
      simp only [hsettled] at hn
      obtain ⟨b, _, hb, hn⟩ := bind_eq_some.mp hn
      obtain ⟨hop, rfl⟩ := ofOption_eq_some.mp hn
      have hright := (denote_refines hr).of_asValue hb
      refine Or.inr ⟨a, b, hsettled, hop, ?_⟩
      split
      · exact ⟨_, hleft, hright⟩
      · exact Or.inl ⟨_, hleft, hright⟩
  | .assign op l r _, hd, _, _, _, h => by
    obtain ⟨hplace, hrest⟩ := List.forall_mem_cons.mp hd
    obtain ⟨hl, hr⟩ := List.forall_mem_append.mp hrest
    obtain ⟨n, hn, rfl⟩ := asNumber_eq_some h
    obtain ⟨c, τ, hc, hn⟩ := bind_eq_some.mp hn
    obtain ⟨_, _, ⟨⟩, hn⟩ := bind_eq_some.mp hn
    obtain ⟨b, _, hb, hn⟩ := bind_eq_some.mp hn
    obtain ⟨m, _, hm, hwrite⟩ := bind_eq_some.mp hn
    obtain ⟨hop, rfl⟩ := ofOption_eq_some.mp hm
    obtain ⟨_, _, ⟨⟩, ⟨⟩⟩ := bind_eq_some.mp hwrite
    obtain ⟨d, hd, rfl⟩ := asCell_eq_some hc
    obtain ⟨c, rfl, hstores⟩ := object_of_isPlace hplace hd
    exact ⟨_, b, _, Or.inl ⟨_, denote_refines hl _ _ _ hd, (denote_refines hr).of_asValue hb⟩, hop,
      hstores _ _⟩
  | .conditional c t f _, hd, _, _, _, h => by
    obtain ⟨hct, hf⟩ := List.forall_mem_append.mp (List.forall_mem_cons.mp hd).2
    obtain ⟨hc, ht⟩ := List.forall_mem_append.mp hct
    obtain ⟨n, hn, rfl⟩ := asNumber_eq_some h
    obtain ⟨a, τ, ha, hn⟩ := bind_eq_some.mp hn
    refine ⟨a, _, (denote_refines hc).of_asValue ha, ?_⟩
    split at hn
    · next h0 =>
      rw [if_pos h0]
      exact (denote_refines hf).of_asValue hn
    · next h0 =>
      rw [if_neg h0]
      exact (denote_refines ht).of_asValue hn
  | .cast _ e _, hd, _, _, _, h => by
    obtain ⟨n, hn, rfl⟩ := asNumber_eq_some h
    exact (denote_refines (e := e) (List.forall_mem_cons.mp hd).2).of_asValue hn
  | .sizeOf e _, _, _, _, _, h => by
    obtain ⟨n, hn, rfl⟩ := asNumber_eq_some h
    obtain ⟨c, _, hc, ⟨⟩⟩ := bind_eq_some.mp hn
    obtain ⟨_, -, ⟨⟩⟩ := Option.map_eq_some_iff.mp hc
    rfl
  | .comma es _, hd, _, _, _, h => by
    obtain ⟨n, hn, rfl⟩ := asNumber_eq_some h
    obtain ⟨ns, _, hns, hn⟩ := bind_eq_some.mp hn
    obtain ⟨hlast, rfl⟩ := ofOption_eq_some.mp hn
    exact yieldsLast_of_values (List.forall_mem_cons.mp hd).2 hns hlast

theorem yieldsLast_of_values : ∀ {es : List Expr} {μ ν : Memory} {ns : List Int} {n : Int},
    (∀ n ∈ nodesOf es, n.isDirect = true) → values es μ = some (ns, ν) → ns.getLast? = some n →
    YieldsLast es μ.values n ν.values
  | [], _, _, _, _, _, h, hlast => by
    cases h
    cases hlast
  | e :: es, _, _, _, _, hd, h, hlast => by
    obtain ⟨he, hes⟩ := List.forall_mem_append.mp hd
    obtain ⟨a, _, ha, h⟩ := bind_eq_some.mp h
    obtain ⟨as, _, has, ⟨⟩⟩ := bind_eq_some.mp h
    have hfirst := (denote_refines he).of_asValue ha
    cases es with
    | nil =>
      cases has
      cases hlast
      exact Or.inl ⟨rfl, hfirst⟩
    | cons f fs =>
      have hne : as ≠ [] := by
        rintro rfl
        obtain ⟨_, _, -, h⟩ := bind_eq_some.mp has
        obtain ⟨_, _, -, ⟨⟩⟩ := bind_eq_some.mp h
      rw [List.getLast?_cons_of_ne_nil hne] at hlast
      exact Or.inr ⟨a, _, hfirst, yieldsLast_of_values hes has hlast⟩

end

end Expr

def Expr.effect (e : Expr) (μ ν : Memory) : Prop := ∃ n, e.value μ = some (n, ν)

def ForInit.enter : ForInit → Eval Unit
  | .expr e _ => do let _ ← e.value
  | .decl ⟨[d], _⟩ => match d.init with
    | some (.expr e) => do Eval.write (.of d.symbol) (← e.value)
    | _ => failure
  | .decl _ => failure
  | .null _ => pure ()

namespace ForHeader

def enter (h : ForHeader) : Eval Unit :=
  match h.init with
  | some i => i.enter
  | none => pure ()

def test (h : ForHeader) : Eval Bool :=
  match h.cond with
  | some e => do return (← e.value) != 0
  | none => pure true

def advance (h : ForHeader) : Eval Unit :=
  match h.incr with
  | some e => do let _ ← e.value
  | none => pure ()

end ForHeader

/-- What a program may do: the memory that it starts from, those that a chosen statement in it
finds each time, and the one that it leaves. -/
abbrev Action := Memory → List Memory → Memory → Prop

/-- The chosen statement itself, which may do anything to the memory that the relation allows. -/
def Action.leaf (body : Memory → Memory → Prop) : Action := fun μ ts ν => ts = [μ] ∧ body μ ν

namespace ForHeader

/-- The iterations of a loop whose body runs to its end each time. -/
inductive Repeats (h : ForHeader) (body : Action) : Action
  | stop {μ ν} (htest : h.test μ = some (false, ν)) : Repeats h body μ [] ν
  | next {μ ν ρ υ ω ts us} (htest : h.test μ = some (true, ν)) (hbody : body ν ts ρ)
      (hstep : h.advance ρ = some ((), υ)) (hrest : Repeats h body υ us ω) :
      Repeats h body μ (ts ++ us) ω

def loop (h : ForHeader) (body : Action) : Action := fun μ ts ω =>
  ∃ ν, h.enter μ = some ((), ν) ∧ h.Repeats body ν ts ω

end ForHeader

/-- Loops inside each other, outermost first, around one statement. -/
def Action.nest (headers : List ForHeader) (body : Memory → Memory → Prop) : Action :=
  headers.foldr ForHeader.loop (.leaf body)

end LoopLegality
