import LoopLegality.Proofs.Resolution
import Mathlib.Data.List.Induction
import Mathlib.Data.List.Infix

namespace LoopLegality.Scopes

inductive Op where
  | push
  | pop
  | declare (name : String) (kind : Symbol.Kind) (span : Span)
  | resolve (name : String) (kind : Symbol.Kind)
  | member (name : String)
  | refine (x : Symbol) (kind : Symbol.Kind)
deriving DecidableEq

def perform (s : Scopes) : Op → Scopes
  | .push => s.push
  | .pop => s.pop
  | .declare name kind span => (s.declare name kind span).2
  | .resolve name kind => (s.resolve name kind).2
  | .member name => (s.member name).2
  | .refine x kind => s.refine x kind

def after (ops : List Op) : Scopes := ops.foldl perform .empty

theorem after_append (ops more : List Op) : after (ops ++ more) = more.foldl perform (after ops) :=
  List.foldl_append

theorem after_concat (ops : List Op) (op : Op) : after (ops ++ [op]) = (after ops).perform op :=
  after_append ops [op]

/-- The number of open blocks after one more operation. The file is none, and cannot be left. -/
def Op.depth (d : Nat) : Op → Nat
  | push => d + 1
  | pop => d - 1
  | _ => d

def nesting (ops : List Op) : Nat := ops.foldl Op.depth 0

theorem nesting_concat (ops : List Op) (op : Op) :
    nesting (ops ++ [op]) = op.depth (nesting ops) := by
  rw [nesting, List.foldl_append]
  rfl

/-- The name is declared at the moment `past`, as the binding `x`. -/
def DeclaredAt (ops past : List Op) (name : String) (x : Symbol) : Prop :=
  ∃ kind span, past ++ [.declare name kind span] <+: ops ∧
    ((after past).declare name kind span).1 = x

/-- The block that was innermost at the moment `past` has not been left since. -/
def StaysOpen (ops past : List Op) : Prop :=
  ∀ later, past <+: later → later <+: ops → nesting past ≤ nesting later

/-- The latest declaration of a name in the innermost open block that declares it. -/
def Declared (ops : List Op) (name : String) (x : Symbol) : Prop :=
  ∃ past, DeclaredAt ops past name x ∧ StaysOpen ops past ∧
    ∀ past' y, DeclaredAt ops past' name y → StaysOpen ops past' →
      nesting past' < nesting past ∨ nesting past' = nesting past ∧ past' <+: past

/-- A use of the name made the binding `x`, which was not there before. -/
def Implied (ops : List Op) (name : String) (x : Symbol) : Prop :=
  ∃ past kind, past ++ [.resolve name kind] <+: ops ∧
    ((after past).resolve name kind).1 = x ∧ (after past).table.info? x = none

section Moments

variable {ops past : List Op} {op : Op} {name : String} {x : Symbol}

theorem DeclaredAt.moment (h : DeclaredAt ops past name x) : past <+: ops := by
  obtain ⟨kind, span, hpast, -⟩ := h
  exact (List.prefix_append past _).trans hpast

theorem StaysOpen.nesting_le (h : StaysOpen ops past) (hpast : past <+: ops) :
    nesting past ≤ nesting ops :=
  h ops hpast List.prefix_rfl

theorem staysOpen_self (ops : List Op) : StaysOpen ops ops := by
  intro later hlater hops
  obtain rfl := hlater.eq_of_length (Nat.le_antisymm hlater.length_le hops.length_le)
  exact Nat.le_refl _

theorem staysOpen_concat (h : past <+: ops) :
    StaysOpen (ops ++ [op]) past ↔ StaysOpen ops past ∧ nesting past ≤ nesting (ops ++ [op]) := by
  constructor
  · intro hopen
    refine ⟨fun later hpast hlater => ?_, ?_⟩
    · exact hopen later hpast (hlater.trans (List.prefix_append ops [op]))
    · exact hopen _ (h.trans (List.prefix_append ops [op])) List.prefix_rfl
  · rintro ⟨hopen, hle⟩ later hpast hlater
    obtain rfl | hlater := List.prefix_concat_iff.mp hlater
    · exact hle
    · exact hopen later hpast hlater

theorem declaredAt_concat : DeclaredAt (ops ++ [op]) past name x ↔
    DeclaredAt ops past name x ∨ past = ops ∧ ∃ kind span, op = .declare name kind span ∧
      ((after ops).declare name kind span).1 = x := by
  constructor
  · rintro ⟨kind, span, hpast, hx⟩
    obtain hpast | hpast := List.prefix_concat_iff.mp hpast
    · obtain ⟨rfl, hop⟩ := List.append_inj' hpast rfl
      exact .inr ⟨rfl, kind, span, (List.singleton_inj.mp hop).symm, hx⟩
    · exact .inl ⟨kind, span, hpast, hx⟩
  · rintro (⟨kind, span, hpast, hx⟩ | ⟨rfl, kind, span, rfl, hx⟩)
    · exact ⟨kind, span, hpast.trans (List.prefix_append ops [op]), hx⟩
    · exact ⟨kind, span, List.prefix_rfl, hx⟩

theorem implied_concat : Implied (ops ++ [op]) name x ↔
    Implied ops name x ∨ ∃ kind, op = .resolve name kind ∧
      ((after ops).resolve name kind).1 = x ∧ (after ops).table.info? x = none := by
  constructor
  · rintro ⟨past, kind, hpast, hx⟩
    obtain hpast | hpast := List.prefix_concat_iff.mp hpast
    · obtain ⟨rfl, hop⟩ := List.append_inj' hpast rfl
      exact .inr ⟨kind, (List.singleton_inj.mp hop).symm, hx⟩
    · exact .inl ⟨past, kind, hpast, hx⟩
  · rintro (⟨past, kind, hpast, hx⟩ | ⟨kind, rfl, hx⟩)
    · exact ⟨past, kind, hpast.trans (List.prefix_append ops [op]), hx⟩
    · exact ⟨ops, kind, List.prefix_rfl, hx⟩

end Moments

section Table

variable {s : Scopes} {name : String} {kind : Symbol.Kind} {x : Symbol}

theorem resolve_of_some (h : s.lookup? name = some x) : s.resolve name kind = (x, s) := by
  rw [resolve, h]

theorem resolve_of_none (h : s.lookup? name = none) : s.resolve name kind =
    (s.table.size, { s with
      table := (s.table.declare ⟨name, kind, .none, 0⟩).2
      file := (name, s.table.size) :: s.file }) := by
  rw [resolve, h]
  rfl

theorem member_of_some (h : s.members.lookup name = some x) : s.member name = (x, s) := by
  rw [member, h]

theorem member_of_none (h : s.members.lookup name = none) : s.member name =
    (s.table.size, { s with
      table := (s.table.declare ⟨name, .field, .none, 0⟩).2
      members := (name, s.table.size) :: s.members }) := by
  rw [member, h]
  rfl

/-- All of a binding is for good but its kind, which may be replaced once, if nobody declared
it. -/
structure SameBinding (a b : Symbol.Info) : Prop where
  name : b.name = a.name
  span : b.span = a.span
  depth : b.depth = a.depth
  kind : b.kind = a.kind ∨ a.kind = .implicit

def Keeps (t u : SymbolTable) : Prop :=
  ∀ x a, t.info? x = some a → ∃ b, u.info? x = some b ∧ SameBinding a b

theorem SameBinding.refl (a : Symbol.Info) : SameBinding a a := ⟨rfl, rfl, rfl, .inl rfl⟩

theorem SameBinding.trans {a b c : Symbol.Info} (h : SameBinding a b) (h' : SameBinding b c) :
    SameBinding a c where
  name := h'.name.trans h.name
  span := h'.span.trans h.span
  depth := h'.depth.trans h.depth
  kind := by
    obtain hkind | hkind := h.kind
    · exact h'.kind.imp (·.trans hkind) hkind.symm.trans
    · exact .inr hkind

theorem Keeps.refl (t : SymbolTable) : Keeps t t := fun _ a ha => ⟨a, ha, .refl a⟩

theorem Keeps.trans {t u v : SymbolTable} (h : Keeps t u) (h' : Keeps u v) : Keeps t v := by
  intro x a ha
  obtain ⟨b, hb, hab⟩ := h x a ha
  obtain ⟨c, hc, hbc⟩ := h' x b hb
  exact ⟨c, hc, hab.trans hbc⟩

theorem keeps_declare (t : SymbolTable) (i : Symbol.Info) : Keeps t (t.declare i).2 := by
  intro x a ha
  refine ⟨a, ?_, .refl a⟩
  rw [t.info?_declare, if_neg (Nat.ne_of_lt (SymbolTable.info?_eq_some_lt ha)), ha]

theorem keeps_refine (t : SymbolTable) (x : Symbol) (kind : Symbol.Kind) :
    Keeps t (t.refine x kind) := by
  intro y a ha
  obtain h | ⟨b, hb, hkind, h⟩ := t.info?_refine x y kind
  · exact ⟨a, h.trans ha, .refl a⟩
  · cases ha.symm.trans hb
    exact ⟨_, h, rfl, rfl, rfl, .inr hkind⟩

def allocated? (s : Scopes) : Op → Option Symbol
  | .declare name kind span => some (s.declare name kind span).1
  | .resolve name kind =>
    if (s.lookup? name).isSome then none else some (s.resolve name kind).1
  | .member name => if (s.members.lookup name).isSome then none else some (s.member name).1
  | .push | .pop | .refine .. => none

def allocations : Scopes → List Op → List Symbol
  | _, [] => []
  | s, op :: ops => (s.allocated? op).toList ++ allocations (s.perform op) ops

/-- What one operation does to the table: nothing is lost, and what is new stands at its end. -/
theorem table_perform (s : Scopes) (op : Op) :
    Keeps s.table (s.perform op).table ∧
      (s.allocated? op = none ∧ (s.perform op).table.size = s.table.size ∨
        s.allocated? op = some s.table.size ∧ (s.perform op).table.size = s.table.size + 1) := by
  cases op with
  | push | pop => exact ⟨.refl _, .inl ⟨rfl, rfl⟩⟩
  | refine x kind =>
    exact ⟨keeps_refine s.table x kind, .inl ⟨rfl, s.table.size_refine x kind⟩⟩
  | declare name kind span =>
    rw [perform, declare_table, allocated?, declare_fst]
    exact ⟨keeps_declare _ _, .inr ⟨rfl, s.table.size_declare _⟩⟩
  | resolve name kind =>
    cases h : s.lookup? name with
    | some x => simp [perform, allocated?, resolve_of_some h, h, Keeps.refl]
    | none =>
      simp [perform, allocated?, resolve_of_none h, h, keeps_declare, SymbolTable.size_declare]
  | member name =>
    cases h : s.members.lookup name with
    | some x => simp [perform, allocated?, member_of_some h, h, Keeps.refl]
    | none =>
      simp [perform, allocated?, member_of_none h, h, keeps_declare, SymbolTable.size_declare]

theorem keeps_run (s : Scopes) (ops : List Op) : Keeps s.table (ops.foldl perform s).table := by
  induction ops generalizing s with
  | nil => exact .refl _
  | cons op ops ih => exact (s.table_perform op).1.trans (ih (s.perform op))

theorem allocations_eq_range' (s : Scopes) (ops : List Op) :
    s.table.size ≤ (ops.foldl perform s).table.size ∧
      s.allocations ops =
        List.range' s.table.size ((ops.foldl perform s).table.size - s.table.size) := by
  induction ops generalizing s with
  | nil => simp [allocations]
  | cons op ops ih =>
    obtain ⟨hle, hrest⟩ := ih (s.perform op)
    rw [List.foldl_cons, allocations, hrest]
    obtain ⟨-, ⟨hnone, hsize⟩ | ⟨hsome, hsize⟩⟩ := s.table_perform op
    · rw [hsize] at hle ⊢
      exact ⟨hle, by simp [hnone]⟩
    · rw [hsize] at hle ⊢
      refine ⟨by omega, ?_⟩
      rw [hsome, Option.toList_some, List.singleton_append, ← List.range'_succ]
      congr 1
      omega

end Table

section Lookup

variable {ops ops' past : List Op} {op : Op} {d d' : Nat} {name : String} {x : Symbol}
  {r : Option Symbol}

/-- A declaration in a block that is open, one of the outermost `d` or the file. -/
structure Visible (ops : List Op) (d : Nat) (name : String) (past : List Op) (x : Symbol) :
    Prop where
  declared : DeclaredAt ops past name x
  stays : StaysOpen ops past
  nesting_le : nesting past ≤ d

/-- What the name stands for in the outermost `d` blocks and the file. -/
inductive StandsFor (ops : List Op) (d : Nat) (name : String) : Option Symbol → Prop
  | declared {past : List Op} {x : Symbol} : Visible ops d name past x →
      (∀ past' y, Visible ops d name past' y → past' <+: past) → StandsFor ops d name (some x)
  | implied {x : Symbol} : (∀ past y, ¬ Visible ops d name past y) → Implied ops name x →
      (∀ y, Implied ops name y → y = x) → StandsFor ops d name (some x)
  | nothing : (∀ past y, ¬ Visible ops d name past y) → (∀ y, ¬ Implied ops name y) →
      StandsFor ops d name none

theorem StandsFor.congr (h : StandsFor ops d name r)
    (hvisible : ∀ past x, Visible ops' d' name past x ↔ Visible ops d name past x)
    (himplied : ∀ x, Implied ops' name x ↔ Implied ops name x) : StandsFor ops' d' name r := by
  cases h with
  | declared hx hlast =>
    exact .declared ((hvisible _ _).mpr hx) fun past' y hy => hlast past' y ((hvisible _ _).mp hy)
  | implied hnone hx huniq =>
    exact .implied (fun past y hy => hnone past y ((hvisible _ _).mp hy)) ((himplied _).mpr hx)
      fun y hy => huniq y ((himplied y).mp hy)
  | nothing hnone hno =>
    exact .nothing (fun past y hy => hnone past y ((hvisible _ _).mp hy))
      fun y hy => hno y ((himplied y).mp hy)

theorem visible_concat (hdeclare : ∀ kind span, op = .declare name kind span → d' < nesting ops)
    (hdepth : ∀ n ≤ nesting ops, n ≤ d' ∧ n ≤ op.depth (nesting ops) ↔ n ≤ d)
    (past : List Op) (x : Symbol) :
    Visible (ops ++ [op]) d' name past x ↔ Visible ops d name past x := by
  constructor
  · rintro ⟨hx, hopen, hle⟩
    obtain hx | ⟨rfl, kind, span, hop, -⟩ := declaredAt_concat.mp hx
    · rw [staysOpen_concat hx.moment, nesting_concat] at hopen
      have hn := hopen.1.nesting_le hx.moment
      exact ⟨hx, hopen.1, (hdepth _ hn).mp ⟨hle, hopen.2⟩⟩
    · have hlt := hdeclare kind span hop
      omega
  · rintro ⟨hx, hopen, hle⟩
    have hn := hopen.nesting_le hx.moment
    obtain ⟨hle', hstay⟩ := (hdepth _ hn).mpr hle
    refine ⟨declaredAt_concat.mpr (.inl hx), ?_, hle'⟩
    rw [staysOpen_concat hx.moment, nesting_concat]
    exact ⟨hopen, hstay⟩

theorem implied_concat_of_ne (h : ∀ kind, op = .resolve name kind →
    (after ops).table.info? ((after ops).resolve name kind).1 ≠ none) (x : Symbol) :
    Implied (ops ++ [op]) name x ↔ Implied ops name x := by
  rw [implied_concat]
  refine or_iff_left ?_
  rintro ⟨kind, hop, rfl, hnone⟩
  exact h kind hop hnone

theorem standsFor_declare (ops : List Op) (name : String) (kind : Symbol.Kind) (span : Span)
    {d : Nat} (hd : nesting ops ≤ d) :
    StandsFor (ops ++ [.declare name kind span]) d name (some (after ops).table.size) := by
  have hopen : StaysOpen (ops ++ [.declare name kind span]) ops := by
    rw [staysOpen_concat List.prefix_rfl, nesting_concat]
    exact ⟨staysOpen_self ops, Nat.le_refl _⟩
  refine .declared ⟨⟨kind, span, List.prefix_rfl, declare_fst _ _ _ _⟩, hopen, hd⟩ ?_
  intro past' y hy
  obtain hy | ⟨rfl, -⟩ := declaredAt_concat.mp hy.declared
  · exact hy.moment
  · exact List.prefix_rfl

def Bounded (s : Scopes) : Prop :=
  ∀ f ∈ s.blocks ++ [s.file], ∀ name x, f.lookup name = some x → x < s.table.size

theorem lookup_entry (f : Frame) (new name : String) (x : Symbol) :
    ((new, x) :: f).lookup name = if name = new then some x else f.lookup name := by
  rw [List.lookup_cons]
  by_cases h : name = new
  · simp [h]
  · simp [h, beq_false_of_ne h]

theorem lookup_entry_lt {f : Frame} {n : Nat} (h : ∀ name x, f.lookup name = some x → x < n)
    (new name : String) (x : Symbol) (hx : ((new, n) :: f).lookup name = some x) : x < n + 1 := by
  rw [lookup_entry] at hx
  split at hx
  · cases hx
    exact Nat.lt_succ_self n
  · exact Nat.lt_succ_of_lt (h name x hx)

theorem Bounded.perform {s : Scopes} (h : s.Bounded) (op : Op) : (s.perform op).Bounded := by
  have hmono : ∀ f ∈ s.blocks ++ [s.file], ∀ name x, f.lookup name = some x →
      x < s.table.size + 1 := fun f hf name x hx => Nat.lt_succ_of_lt (h f hf name x hx)
  cases op with
  | push =>
    refine List.forall_mem_cons.mpr ⟨?_, h⟩
    intro name x hx
    cases hx
  | pop =>
    intro f hf
    refine h f ?_
    rw [List.mem_append] at hf ⊢
    exact hf.imp_left List.mem_of_mem_tail
  | refine x kind =>
    intro f hf name y hy
    rw [Scopes.perform, Scopes.refine, s.table.size_refine]
    exact h f hf name y hy
  | declare name kind span =>
    rw [Scopes.perform, Bounded, declare_table, SymbolTable.size_declare, declare]
    cases hblocks : s.blocks with
    | nil =>
      refine List.forall_mem_singleton.mpr (lookup_entry_lt (h s.file (by simp)) name)
    | cons frame frames =>
      rw [hblocks] at hmono
      obtain ⟨-, hrest⟩ := List.forall_mem_cons.mp hmono
      refine List.forall_mem_cons.mpr ⟨?_, hrest⟩
      exact lookup_entry_lt (h frame (by simp [hblocks])) name
  | resolve name kind =>
    cases hlookup : s.lookup? name with
    | some x => simpa [Scopes.perform, resolve_of_some hlookup] using h
    | none =>
      rw [Scopes.perform, resolve_of_none hlookup, Bounded, SymbolTable.size_declare]
      obtain ⟨hblocks, -⟩ := List.forall_mem_append.mp hmono
      refine List.forall_mem_append.mpr ⟨hblocks, List.forall_mem_singleton.mpr ?_⟩
      exact lookup_entry_lt (h s.file (by simp)) name
  | member name =>
    cases hlookup : s.members.lookup name with
    | some x => simpa [Scopes.perform, member_of_some hlookup] using h
    | none =>
      rw [Scopes.perform, member_of_none hlookup, Bounded, SymbolTable.size_declare]
      exact hmono

theorem bounded_after (ops : List Op) : (after ops).Bounded := by
  induction ops using List.reverseRecOn with
  | nil =>
    refine List.forall_mem_singleton.mpr ?_
    intro name x hx
    cases hx
  | append_singleton ops op ih =>
    rw [after_concat]
    exact ih.perform op

theorem info?_ne_none_iff {t : SymbolTable} : t.info? x ≠ none ↔ x < t.size := by
  rw [SymbolTable.info?, ne_eq, Array.getElem?_eq_none_iff]
  exact Nat.not_le

theorem info?_lookup_ne_none (h : (after ops).lookup? name = some x) :
    (after ops).table.info? x ≠ none := by
  obtain ⟨f, hf, hx⟩ := List.exists_of_findSome?_eq_some h
  exact info?_ne_none_iff.mpr (bounded_after ops f hf name x hx)

theorem info?_resolve_eq_none {kind : Symbol.Kind} :
    (after ops).table.info? ((after ops).resolve name kind).1 = none ↔
      (after ops).lookup? name = none := by
  cases h : (after ops).lookup? name with
  | some x => simpa [resolve_of_some h] using info?_lookup_ne_none h
  | none => simp [resolve_of_none h, SymbolTable.info?, SymbolTable.size]

/-- What a name stands for once the innermost `m` blocks are left. -/
def lookupBehind (s : Scopes) (m : Nat) (name : String) : Option Symbol :=
  (s.blocks.drop m ++ [s.file]).findSome? (·.lookup name)

theorem lookupBehind_push (s : Scopes) (m : Nat) (name : String) :
    s.push.lookupBehind m name = s.lookupBehind (m - 1) name := by
  cases m <;> rfl

theorem lookupBehind_pop (s : Scopes) (m : Nat) (name : String) :
    s.pop.lookupBehind m name = s.lookupBehind (m + 1) name := by
  rw [lookupBehind, lookupBehind, ← List.drop_tail]
  rfl

theorem lookupBehind_declare (s : Scopes) (new : String) (kind : Symbol.Kind) (span : Span)
    (m : Nat) (name : String) : (s.declare new kind span).2.lookupBehind m name =
      if name = new ∧ s.blocks.length ≤ s.blocks.length - m then some s.table.size
      else s.lookupBehind m name := by
  rw [declare, lookupBehind, lookupBehind]
  cases hblocks : s.blocks with
  | nil => by_cases hname : name = new <;> simp [hname, lookup_entry, SymbolTable.declare]
  | cons frame frames =>
    cases m with
    | zero =>
      by_cases hname : name = new <;>
        simp [hname, lookup_entry, SymbolTable.declare, List.findSome?_cons]
    | succ m =>
      rw [if_neg (by rw [List.length_cons]; omega)]
      rfl

theorem lookupBehind_eq_none {s : Scopes} {name : String} (h : s.lookup? name = none) (m : Nat) :
    (s.blocks.drop m).findSome? (·.lookup name) = none := by
  rw [lookup?, List.findSome?_eq_none_iff] at h
  rw [List.findSome?_eq_none_iff]
  intro f hf
  exact h f (List.mem_append_left _ (List.mem_of_mem_drop hf))

theorem lookupBehind_resolve {s : Scopes} {new : String} (h : s.lookup? new = none)
    (kind : Symbol.Kind) (m : Nat) (name : String) :
    (s.resolve new kind).2.lookupBehind m name =
      if name = new then some s.table.size else s.lookupBehind m name := by
  rw [resolve_of_none h, lookupBehind, lookupBehind]
  by_cases hname : name = new
  · simp [hname, lookupBehind_eq_none h m]
  · simp [hname, lookup_entry, List.findSome?_append]

/-- Behind any number of blocks a name stands for what the history says. -/
def Recounts (ops : List Op) : Prop :=
  ∀ m name, StandsFor ops (nesting ops - m) name ((after ops).lookupBehind m name)

theorem length_blocks (ops : List Op) : (after ops).blocks.length = nesting ops := by
  induction ops using List.reverseRecOn with
  | nil => rfl
  | append_singleton ops op ih =>
    rw [after_concat, nesting_concat, ← ih]
    cases op with
    | push | refine => rfl
    | pop => exact List.length_tail
    | declare name kind span =>
      rw [perform, declare]
      cases (after ops).blocks <;> rfl
    | resolve name kind =>
      rw [perform, resolve]
      cases (after ops).lookup? name <;> rfl
    | member name =>
      rw [perform, member]
      cases (after ops).members.lookup name <;> rfl

theorem Recounts.idle (h : Recounts ops) (hdepth : op.depth (nesting ops) = nesting ops)
    (hdeclare : ∀ name kind span, op ≠ .declare name kind span)
    (hresolve : ∀ name kind, op = .resolve name kind → (after ops).lookup? name ≠ none)
    (hblocks : ((after ops).perform op).blocks = (after ops).blocks)
    (hfile : ((after ops).perform op).file = (after ops).file) : Recounts (ops ++ [op]) := by
  intro m name
  rw [after_concat, lookupBehind, hblocks, hfile, nesting_concat, hdepth]
  refine (h m name).congr (visible_concat (fun kind span heq => absurd heq (hdeclare _ _ _)) ?_)
    (implied_concat_of_ne fun kind heq => mt info?_resolve_eq_none.mp (hresolve name kind heq))
  intro n hn
  rw [hdepth]
  omega

theorem Recounts.push (h : Recounts ops) : Recounts (ops ++ [.push]) := by
  intro m name
  rw [after_concat, perform, lookupBehind_push, nesting_concat]
  refine (h (m - 1) name).congr (visible_concat nofun fun n hn => ?_) (implied_concat_of_ne nofun)
  rw [Op.depth]
  omega

theorem Recounts.pop (h : Recounts ops) : Recounts (ops ++ [.pop]) := by
  intro m name
  rw [after_concat, perform, lookupBehind_pop, nesting_concat]
  refine (h (m + 1) name).congr (visible_concat nofun fun n hn => ?_) (implied_concat_of_ne nofun)
  rw [Op.depth]
  omega

theorem Recounts.declare (h : Recounts ops) (new : String) (kind : Symbol.Kind) (span : Span) :
    Recounts (ops ++ [.declare new kind span]) := by
  intro m name
  have hdepth : (Op.declare new kind span).depth (nesting ops) = nesting ops := rfl
  rw [after_concat, perform, lookupBehind_declare, nesting_concat, hdepth, length_blocks]
  split
  · next hnew =>
    obtain ⟨rfl, hle⟩ := hnew
    exact standsFor_declare ops name kind span hle
  · next hold =>
    refine (h m name).congr (visible_concat (fun kind' span' heq => ?_) fun n hn => ?_)
      (implied_concat_of_ne fun kind' heq => by cases heq)
    · cases heq
      exact Nat.lt_of_not_le fun hle => hold ⟨rfl, hle⟩
    · rw [hdepth]
      omega

theorem Recounts.resolve (h : Recounts ops) {new : String} {kind : Symbol.Kind}
    (hnone : (after ops).lookup? new = none) : Recounts (ops ++ [.resolve new kind]) := by
  intro m name
  have hdepth : (Op.resolve new kind).depth (nesting ops) = nesting ops := rfl
  have hvisible (d : Nat) (past : List Op) (x : Symbol) :
      Visible (ops ++ [.resolve new kind]) d name past x ↔ Visible ops d name past x := by
    refine visible_concat (fun _ _ heq => by cases heq) (fun n hn => ?_) past x
    rw [hdepth]
    omega
  rw [after_concat, perform, lookupBehind_resolve hnone, nesting_concat, hdepth]
  split
  · next heq =>
    subst heq
    have hnothing : StandsFor ops (nesting ops) name none := hnone ▸ h 0 name
    cases hnothing with
    | nothing hno himplied =>
      have hnew : ((after ops).resolve name kind).1 = (after ops).table.size := by
        rw [resolve_of_none hnone]
      refine .implied (fun past y hy => ?_) ?_ fun y hy => ?_
      · have hold := (hvisible _ past y).mp hy
        exact hno past y ⟨hold.declared, hold.stays, hold.stays.nesting_le hold.declared.moment⟩
      · exact implied_concat.mpr (.inr ⟨kind, rfl, hnew, hnew ▸ info?_resolve_eq_none.mpr hnone⟩)
      · obtain hy | ⟨kind', heq, rfl, -⟩ := implied_concat.mp hy
        · exact absurd hy (himplied y)
        · cases heq
          exact hnew
  · next hne =>
    exact (h m name).congr (hvisible _) (implied_concat_of_ne fun kind' heq => absurd
      (Op.resolve.inj heq).1.symm hne)

theorem recounts (ops : List Op) : Recounts ops := by
  induction ops using List.reverseRecOn with
  | nil =>
    intro m name
    have hempty : (after []).lookupBehind m name = none := by simp [after, lookupBehind, empty]
    rw [hempty]
    refine .nothing ?_ ?_
    · rintro past y ⟨⟨kind, span, hpast, -⟩, -, -⟩
      simpa using hpast.length_le
    · rintro y ⟨past, kind, hpast, -⟩
      simpa using hpast.length_le
  | append_singleton ops op ih =>
    cases op with
    | push => exact ih.push
    | pop => exact ih.pop
    | declare name kind span => exact ih.declare name kind span
    | refine x kind => exact ih.idle rfl nofun nofun rfl rfl
    | resolve name kind =>
      cases hlookup : (after ops).lookup? name with
      | none => exact ih.resolve hlookup
      | some x =>
        refine ih.idle rfl nofun (fun name' kind' heq => ?_) ?_ ?_
        · cases heq
          simp [hlookup]
        · rw [perform, resolve_of_some hlookup]
        · rw [perform, resolve_of_some hlookup]
    | member name =>
      refine ih.idle rfl nofun nofun ?_ ?_
      · rw [perform, Scopes.member]
        cases (after ops).members.lookup name <;> rfl
      · rw [perform, Scopes.member]
        cases (after ops).members.lookup name <;> rfl

theorem lookup?_eq_some_iff (ops : List Op) (name : String) (x : Symbol) :
    (after ops).lookup? name = some x ↔ Declared ops name x ∨
      (∀ past y, DeclaredAt ops past name y → ¬ StaysOpen ops past) ∧ Implied ops name x := by
  have hstands : StandsFor ops (nesting ops) name ((after ops).lookup? name) := recounts ops 0 name
  have hvisible {past : List Op} {y : Symbol} (hy : DeclaredAt ops past name y)
      (hopen : StaysOpen ops past) : Visible ops (nesting ops) name past y :=
    ⟨hy, hopen, hopen.nesting_le hy.moment⟩
  generalize (after ops).lookup? name = r at hstands
  cases hstands with
  | @declared past z hz hlast =>
    constructor
    · rintro ⟨⟩
      refine .inl ⟨past, hz.declared, hz.stays, fun past' y hy hopen => ?_⟩
      have hprefix := hlast past' y (hvisible hy hopen)
      have hle := hopen past hprefix hz.declared.moment
      exact (Nat.lt_or_eq_of_le hle).imp_right fun heq => ⟨heq, hprefix⟩
    · rintro (⟨past', hx, hopen, hinner⟩ | ⟨hno, -⟩)
      · -- The innermost declaration is the last one, since blocks nest.
        have hprefix := hlast past' x (hvisible hx hopen)
        have hle := hopen past hprefix hz.declared.moment
        have heq : past' = past := by
          obtain hlt | ⟨-, hprefix'⟩ := hinner past z hz.declared hz.stays
          · omega
          · exact hprefix.eq_of_length (Nat.le_antisymm hprefix.length_le hprefix'.length_le)
        subst heq
        obtain ⟨kind, span, hpast, rfl⟩ := hz.declared
        obtain ⟨kind', span', hpast', rfl⟩ := hx
        rw [declare_fst, declare_fst]
      · exact absurd hz.stays (hno past z hz.declared)
  | @implied z hno hz huniq =>
    constructor
    · rintro ⟨⟩
      exact .inr ⟨fun past y hy hopen => hno past y (hvisible hy hopen), hz⟩
    · rintro (⟨past, hx, hopen, -⟩ | ⟨-, hx⟩)
      · exact absurd (hvisible hx hopen) (hno past x)
      · rw [huniq x hx]
  | nothing hno himplied =>
    constructor
    · rintro ⟨⟩
    · rintro (⟨past, hx, hopen, -⟩ | ⟨-, hx⟩)
      · exact absurd (hvisible hx hopen) (hno past x)
      · exact absurd hx (himplied x)

end Lookup

section Blocks

/-- Every block that is left was entered before, and every block that is entered is left. -/
structure Balanced (ops : List Op) : Prop where
  entered : ∀ past, past <+: ops → past.count .pop ≤ past.count .push
  left : ops.count .pop = ops.count .push

instance (ops : List Op) : Decidable (Balanced ops) :=
  decidable_of_iff ((∀ past ∈ ops.inits, past.count .pop ≤ past.count .push) ∧
    ops.count .pop = ops.count .push)
    ⟨fun h => ⟨fun past hpast => h.1 past ((List.mem_inits past ops).mpr hpast), h.2⟩,
      fun h => ⟨fun past hpast => h.entered past ((List.mem_inits past ops).mp hpast), h.left⟩⟩

/-- The scopes `t` are inside a block of `s`: there is at least one block more, and the file has
no new entry for a name that stands for something in `s`. -/
structure Inside (s t : Scopes) (blocks : List Frame) : Prop where
  blocks : t.blocks = blocks ++ s.blocks
  file : ∃ entries, t.file = entries ++ s.file ∧ ∀ e ∈ entries, s.lookup? e.1 = none

variable {s t : Scopes} {blocks : List Frame}

theorem Inside.lookup?_eq_none (h : Inside s t blocks) {name : String}
    (hnone : t.lookup? name = none) : s.lookup? name = none := by
  obtain ⟨entries, hfile, -⟩ := h.file
  rw [lookup?, h.blocks, hfile, List.findSome?_eq_none_iff] at hnone
  rw [lookup?, List.findSome?_eq_none_iff]
  intro f hf
  obtain hf | hf := List.mem_append.mp hf
  · exact hnone f (by simp [hf])
  · have hlast := hnone (entries ++ s.file) (by simp)
    rw [List.mem_singleton.mp hf]
    rw [List.lookup_eq_none_iff] at hlast ⊢
    exact fun e he => hlast e (List.mem_append_right _ he)

theorem Inside.perform (h : Inside s t blocks) (op : Op) (hdepth : 0 < op.depth blocks.length) :
    ∃ blocks', Inside s (t.perform op) blocks' ∧ blocks'.length = op.depth blocks.length := by
  cases op with
  | push => exact ⟨[] :: blocks, ⟨congrArg ([] :: ·) h.blocks, h.file⟩, rfl⟩
  | pop =>
    have hne : blocks ≠ [] := by
      rintro rfl
      simp [Op.depth] at hdepth
    refine ⟨blocks.tail, ⟨?_, h.file⟩, List.length_tail⟩
    rw [Scopes.perform, Scopes.pop, h.blocks, List.tail_append_of_ne_nil hne]
  | refine x kind => exact ⟨blocks, ⟨h.blocks, h.file⟩, rfl⟩
  | declare name kind span =>
    cases blocks with
    | nil => cases hdepth
    | cons frame frames =>
      refine ⟨((name, t.table.size) :: frame) :: frames, ?_, rfl⟩
      rw [Scopes.perform, Scopes.declare, h.blocks]
      exact ⟨rfl, h.file⟩
  | resolve name kind =>
    refine ⟨blocks, ?_, rfl⟩
    cases hlookup : t.lookup? name with
    | some x => rwa [Scopes.perform, resolve_of_some hlookup]
    | none =>
      rw [Scopes.perform, resolve_of_none hlookup]
      obtain ⟨entries, hfile, hnew⟩ := h.file
      refine ⟨h.blocks, (name, t.table.size) :: entries, congrArg (_ :: ·) hfile, ?_⟩
      exact List.forall_mem_cons.mpr ⟨h.lookup?_eq_none hlookup, hnew⟩
  | member name =>
    refine ⟨blocks, ?_, rfl⟩
    cases hlookup : t.members.lookup name with
    | some x => rwa [Scopes.perform, member_of_some hlookup]
    | none =>
      rw [Scopes.perform, member_of_none hlookup]
      exact ⟨h.blocks, h.file⟩

theorem count_add_depth (op : Op) {n : Nat} (h : op = .pop → 0 < n) :
    op.depth n + [op].count .pop = n + [op].count .push := by
  cases op with
  | pop => exact Nat.sub_add_cancel (h rfl)
  | _ => rfl

theorem inside_run {mid : List Op} (hmid : Balanced mid) (s : Scopes) (past : List Op)
    (hpast : past <+: mid) : ∃ blocks, Inside s (past.foldl Scopes.perform s.push) blocks ∧
      blocks.length + past.count .pop = past.count .push + 1 := by
  induction past using List.reverseRecOn with
  | nil => exact ⟨[[]], ⟨rfl, [], rfl, fun e he => by cases he⟩, rfl⟩
  | append_singleton past op ih =>
    obtain ⟨blocks, hinside, hlength⟩ := ih ((List.prefix_append past [op]).trans hpast)
    have hentered := hmid.entered _ hpast
    rw [List.count_append, List.count_append] at hentered
    have hcount := count_add_depth op (n := blocks.length) fun heq => by
      subst heq
      have hone : [Op.pop].count .pop = 1 := rfl
      have hzero : [Op.pop].count .push = 0 := rfl
      omega
    obtain ⟨blocks', hinside', hlength'⟩ := hinside.perform op (by omega)
    refine ⟨blocks', ?_, ?_⟩
    · rwa [List.foldl_append]
    · rw [List.count_append, List.count_append]
      omega

/-- What stood for something before a block stands for the same behind it. -/
theorem lookup?_block {mid : List Op} (hmid : Balanced mid) (s : Scopes) {name : String}
    (hname : s.lookup? name ≠ none) :
    (mid.foldl Scopes.perform s.push).pop.lookup? name = s.lookup? name := by
  obtain ⟨blocks, hinside, hlength⟩ := inside_run hmid s mid List.prefix_rfl
  have hone : blocks.length = 1 := by
    have hleft := hmid.left
    omega
  obtain ⟨frame, rfl⟩ := List.length_eq_one_iff.mp hone
  obtain ⟨entries, hfile, hnew⟩ := hinside.file
  have hentries : entries.lookup name = none := by
    rw [List.lookup_eq_none_iff]
    intro e he
    rw [bne_iff_ne]
    rintro rfl
    exact hname (hnew e he)
  rw [lookup?, Scopes.pop, hinside.blocks, hfile]
  rw [lookup?, List.findSome?_append, List.findSome?_append]
  simp [hentries, List.lookup_append]

end Blocks

/-- The scopes are nested environments, after any operations: a name stands for its latest
declaration in the innermost open block that has one, or else for what a use of it has made; a
block changes nothing for the names that stood for something before it; no two bindings are the
same, and a binding is for good but for its kind, which changes at most once and only if nobody
declared it. -/
theorem nested_environments (ops : List Op) :
    (∀ name x, (after ops).lookup? name = some x ↔ Declared ops name x ∨
      (∀ past y, DeclaredAt ops past name y → ¬ StaysOpen ops past) ∧ Implied ops name x) ∧
    (∀ mid, Balanced mid → ∀ name, (after ops).lookup? name ≠ none →
      (after (ops ++ .push :: (mid ++ [.pop]))).lookup? name = (after ops).lookup? name) ∧
    (allocations .empty ops).Nodup ∧
    (∀ x, x ∈ allocations .empty ops ↔ (after ops).table.info? x ≠ none) ∧
    ∀ more x a, (after ops).table.info? x = some a →
      ∃ b, (after (ops ++ more)).table.info? x = some b ∧
        b.name = a.name ∧ b.span = a.span ∧ b.depth = a.depth ∧
        (b.kind ≠ a.kind → a.kind = .implicit ∧ ∀ rest c,
          (after (ops ++ more ++ rest)).table.info? x = some c → c.kind = b.kind) := by
  have hrange : allocations .empty ops = List.range (after ops).table.size := by
    rw [(allocations_eq_range' .empty ops).2, List.range_eq_range']
    rfl
  refine ⟨lookup?_eq_some_iff ops, fun mid hmid name hname => ?_, ?_, fun x => ?_, ?_⟩
  · rw [after_append, List.foldl_cons, List.foldl_append]
    exact lookup?_block hmid (after ops) hname
  · rw [hrange]
    exact List.nodup_range
  · rw [hrange, info?_ne_none_iff, List.mem_range]
  · intro more x a ha
    obtain ⟨b, hb, hsame⟩ := keeps_run (after ops) more x a ha
    refine ⟨b, after_append ops more ▸ hb, hsame.name, hsame.span, hsame.depth, fun hne => ?_⟩
    have himplicit := hsame.kind.resolve_left hne
    refine ⟨himplicit, fun rest c hc => ?_⟩
    obtain ⟨c', hc', hsame'⟩ :=
      keeps_run (after (ops ++ more)) rest x b (after_append ops more ▸ hb)
    rw [after_append, hc', Option.some_inj] at hc
    exact hc ▸ hsame'.kind.resolve_right (himplicit ▸ hne)

/-- A block that hides `i`, subscripts `a` and opens a block of its own leaves `i` as it was and
`a` an array from then on. -/
theorem nested_environments_hiding :
    let ops : List Op := [.declare "i" .scalar .none, .push, .resolve "a" .implicit]
    let mid : List Op :=
      [.declare "i" .pointer .none, .refine 1 (.array 2), .push, .resolve "i" .implicit, .pop]
    Balanced mid ∧ (after ops).lookup? "i" = some 0 ∧
      (after (ops ++ .push :: mid)).lookup? "i" = some 2 ∧
      (after (ops ++ .push :: (mid ++ [.pop]))).lookup? "i" = some 0 ∧
      ∀ rest c, (after (ops ++ .push :: mid ++ rest)).table.info? 1 = some c →
        c.kind = .array 2 := by
  intro ops mid
  have hmid : Balanced mid := by decide
  have hi : (after ops).lookup? "i" = some 0 := by decide
  obtain ⟨-, hblock, -, -, hgood⟩ := nested_environments ops
  refine ⟨hmid, hi, by decide, ?_, ?_⟩
  · rw [hblock mid hmid "i" (by rw [hi]; simp), hi]
  · obtain ⟨b, hb, -, -, -, hkind⟩ := hgood (.push :: mid) 1 ⟨"a", .implicit, .none, 0⟩ (by decide)
    have harray : (after (ops ++ .push :: mid)).table.info? 1 = some ⟨"a", .array 2, .none, 0⟩ := by
      decide
    cases hb.symm.trans harray
    exact (hkind (by simp)).2

end LoopLegality.Scopes
