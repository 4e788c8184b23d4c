import LoopLegality.Proofs.ParserFrame
import LoopLegality.Proofs.Scoping

namespace LoopLegality.Grammar

/-- Tokens are read, one at least if `c` says so. -/
structure Ahead (c : Prop) (s s' : State) : Prop where
  tokens : s'.tokens <:+ s.tokens
  ending : s'.ending = s.ending
  shorter : c → s'.tokens.length < s.tokens.length

namespace Ahead

variable {c d : Prop} {s s' s'' : State}

theorem refl (hc : ¬ c) (s : State) : Ahead c s s := ⟨List.suffix_rfl, rfl, fun h => absurd h hc⟩

theorem length_le (h : Ahead c s s') : s'.tokens.length ≤ s.tokens.length := h.tokens.length_le

theorem trans (h : Ahead c s s') (h' : Ahead d s' s'') : Ahead (c ∨ d) s s'' where
  tokens := h'.tokens.trans h.tokens
  ending := h'.ending.trans h.ending
  shorter
    | .inl hc => h'.length_le.trans_lt (h.shorter hc)
    | .inr hd => (h'.shorter hd).trans_le h.length_le

theorem mono (h : Ahead c s s') (hd : d → c) : Ahead d s s' := ⟨h.tokens, h.ending, h.shorter ∘ hd⟩

theorem within {all : List Token} (h : Ahead c s s') (w : Within all s) : Within all s' :=
  ⟨w.ordered, h.tokens.trans w.tokens, fun eof heof => w.ending eof (h.ending ▸ heof)⟩

end Ahead

instance : Frame (Ahead False) where
  refl := .refl not_false
  trans h h' := (h.trans h').mono .inl
  advance h := ⟨(skips_advance h).tokens, (skips_advance h).ending, False.elim⟩

theorem Passes.ahead {all ts : List Token} {es : SymbolTable → List Event} {s s' : State}
    (h : Passes all s ts es s') : Ahead (ts ≠ []) s s' where
  tokens := ⟨ts, h.tokens.symm⟩
  ending := h.ending
  shorter hts := by
    have hpos := List.length_pos_of_ne_nil hts
    rw [h.tokens, List.length_append]
    omega

/-- A parser that has read a token where `c` says so of what it yields. -/
def Consumes {α : Type} (all : List Token) (c : α → Prop) (p : Parser α) : Prop :=
  ∀ ⦃s a s'⦄, Within all s → p s = .ok (a, s') → Ahead (c a) s s'

/-- The token that comes next is of the kind `k`. The end says nothing about it. -/
def Sees (s : State) (k : Token.Kind) : Prop := k ≠ .eof → Next s k

/-- Parsers that agree where less than `n` tokens are left and one of the kind `k` comes next, and
that have read a token where `c` says so of what they yield. -/
structure Lockstep {α : Type} (all : List Token) (k : Token.Kind) (n : Nat) (c : α → Prop)
    (p q : Parser α) : Prop where
  agree : ∀ ⦃s⦄, Within all s → Sees s k → s.tokens.length < n → p s = q s
  reads : ∀ ⦃s a s'⦄, Within all s → Sees s k → q s = .ok (a, s') → Ahead (c a) s s'

abbrev Paced {α : Type} (all : List Token) (n : Nat) (p q : Parser α) : Prop :=
  Lockstep all .eof n (fun _ => True) p q

section Rules

variable {α β : Type} {all : List Token} {k : Token.Kind} {n m : Nat} {c : α → Prop}
  {d : β → Prop} {p q : Parser α} {f g : α → Parser β} {s : State} {t : Token}

theorem sees_eof : Sees s .eof := fun h => absurd rfl h

theorem Heads.sees (ht : Heads s t) : Sees s t.kind := fun _ => ⟨t, ht, rfl⟩

theorem Walks.consumes {es : α → SymbolTable → List Event} (h : Walks all p es) :
    Consumes all (fun _ => False) p := by
  intro s a s' w ha
  obtain ⟨ts, hts⟩ := h w ha
  exact hts.ahead.mono False.elim

theorem Keeps.consumes (h : Keeps (Ahead False) p) : Consumes all (fun _ => False) p :=
  fun _ _ _ _ ha => h ha

theorem Consumes.lockstep (h : Consumes all c p) : Lockstep all k n c p p :=
  ⟨fun _ _ _ _ => rfl, fun _ _ _ w _ => h w⟩

theorem Keeps.lockstep (h : Keeps (Ahead False) p) : Lockstep all k n (fun _ => False) p p :=
  h.consumes.lockstep

theorem Consumes.paced (hq : Consumes all (fun _ => True) q)
    (h : ∀ s, Within all s → s.tokens.length < n → p s = q s) : Paced all n p q :=
  ⟨fun s w _ => h s w, fun _ _ _ w _ => hq w⟩

namespace Lockstep

theorem toConsumes (h : Lockstep all .eof n c p q) : Consumes all c q :=
  fun _ _ _ w => h.reads w sees_eof

theorem anywhere (h : Lockstep all .eof n c p q) : Lockstep all k n c p q :=
  ⟨fun _ w _ => h.agree w sees_eof, fun _ _ _ w _ => h.reads w sees_eof⟩

theorem mono (h : Lockstep all k n c p q) (hm : m ≤ n) : Lockstep all k m c p q :=
  ⟨fun _ w hk hlt => h.agree w hk (hlt.trans_le hm), h.reads⟩

theorem any (h : Lockstep all k n c p q) : Lockstep all k n (fun _ => False) p q :=
  ⟨h.agree, fun _ _ _ w hk ha => (h.reads w hk ha).mono False.elim⟩

theorem pure {a : α} (ha : ¬ c a) : Lockstep all k n c (pure a) (pure a) := by
  refine ⟨fun _ _ _ _ => rfl, ?_⟩
  rintro s _ _ - - ⟨⟩
  exact .refl ha s

theorem fail (cause : ParseError.Cause) : Lockstep all k n c (fail cause) (fail cause) :=
  ⟨fun _ _ _ _ => rfl, fun _ _ _ _ _ h => absurd h fail_inv⟩

theorem ite {b : Prop} [Decidable b] {p' q' : Parser α} (h : Lockstep all k n c p q)
    (h' : Lockstep all k n c p' q') :
    Lockstep all k n c (if b then p else p') (if b then q else q') := by
  split
  · exact h
  · exact h'

theorem bind_agree (hp : p s = q s) (hf : ∀ a s', q s = .ok (a, s') → f a s' = g a s') :
    (p >>= f) s = (q >>= g) s := by
  change StateT.bind p f s = StateT.bind q g s
  rw [StateT.bind, StateT.bind, hp]
  cases hq : q s with
  | error e => rfl
  | ok r => exact hf r.1 r.2 hq

theorem bind (hp : Lockstep all k n c p q) (hf : ∀ a, Lockstep all .eof n d (f a) (g a)) :
    Lockstep all k n d (p >>= f) (q >>= g) where
  agree s w hk hlt := by
    refine bind_agree (hp.agree w hk hlt) fun a s' ha => ?_
    have hahead := hp.reads w hk ha
    exact (hf a).agree (hahead.within w) sees_eof (hahead.length_le.trans_lt hlt)
  reads s b s' w hk h := by
    obtain ⟨a, s₁, ha, h⟩ := bind_inv h
    have hahead := hp.reads w hk ha
    exact (hahead.trans ((hf a).reads (hahead.within w) sees_eof h)).mono .inr

theorem past (hp : Lockstep all k n (fun _ => True) p q)
    (hf : ∀ a, Lockstep all .eof (n - 1) (fun _ => False) (f a) (g a)) :
    Lockstep all k n d (p >>= f) (q >>= g) where
  agree s w hk hlt := by
    refine bind_agree (hp.agree w hk hlt) fun a s' ha => ?_
    have hahead := hp.reads w hk ha
    have hshorter := hahead.shorter trivial
    exact (hf a).agree (hahead.within w) sees_eof (by omega)
  reads s b s' w hk h := by
    obtain ⟨a, s₁, ha, h⟩ := bind_inv h
    have hahead := hp.reads w hk ha
    exact (hahead.trans ((hf a).reads (hahead.within w) sees_eof h)).mono fun _ => .inl trivial

theorem map (hp : Lockstep all k n (fun _ => True) p q) (f : α → β) :
    Lockstep all k n d (do return f (← p)) (do return f (← q)) where
  agree s w hk hlt := bind_agree (hp.agree w hk hlt) fun _ _ _ => rfl
  reads s b s' w hk h := by
    obtain ⟨a, s₁, ha, h⟩ := bind_inv h
    cases h
    exact (hp.reads w hk ha).mono fun _ => trivial

/-- A parser that only looks leaves the next token where it is, and may tell what it is. -/
theorem look {κ : α → Token.Kind}
    (hp : ∀ ⦃s a s'⦄, Sees s k → p s = .ok (a, s') → s' = s ∧ Sees s (κ a))
    (hf : ∀ a, Lockstep all (κ a) n d (f a) (g a)) :
    Lockstep all k n d (p >>= f) (p >>= g) where
  agree s w hk hlt := by
    refine bind_agree rfl fun a s' ha => ?_
    obtain ⟨rfl, hsees⟩ := hp hk ha
    exact (hf a).agree w hsees hlt
  reads s b s' w hk h := by
    obtain ⟨a, s₁, ha, hb⟩ := bind_inv h
    obtain ⟨rfl, hsees⟩ := hp hk ha
    exact (hf a).reads w hsees hb

end Lockstep

theorem Consumes.of_lockstep (h : Lockstep all .eof 1 c p p) : Consumes all c p := h.toConsumes

theorem Consumes.bind (hp : Consumes all c p) (hf : ∀ a, Lockstep all .eof n d (f a) (g a)) :
    Lockstep all k n d (p >>= f) (p >>= g) :=
  hp.lockstep.bind hf

theorem Consumes.past (hp : Consumes all (fun _ => True) p)
    (hf : ∀ a, Lockstep all .eof (n - 1) (fun _ => False) (f a) (g a)) :
    Lockstep all k n d (p >>= f) (p >>= g) :=
  hp.lockstep.past hf

end Rules

section Primitives

variable {α β : Type} {all : List Token} {k k' : Token.Kind} {n : Nat} {d : β → Prop}
  {s s' : State}

theorem current_inv {t : Token} (h : current s = .ok (t, s')) : s' = s ∧ Heads s t := by
  rw [current] at h
  cases ht : headToken s.tokens s.ending with
  | error e => simp [ht, bind, Except.bind] at h
  | ok u =>
    rw [ht] at h
    cases h
    exact ⟨rfl, ht⟩

theorem current_still {t : Token} (h : current s = .ok (t, s')) : s' = s := (current_inv h).1

theorem Next.check (h : Next s k) : check k s = .ok (true, s) := by
  obtain ⟨t, ht, rfl⟩ := h
  have hcurrent : current s = .ok (t, s) := by
    rw [current, ht]
    rfl
  rw [← decide_eq_true (Eq.refl t.kind)]
  exact bind_ok (bind_ok hcurrent rfl) rfl

theorem currentKind_inv (h : currentKind s = .ok (k, s')) : s' = s ∧ Sees s k := by
  obtain ⟨t, s₁, ht, hk⟩ := bind_inv h
  obtain ⟨rfl, ht⟩ := current_inv ht
  cases hk
  exact ⟨rfl, ht.sees⟩

theorem currentSpan_still {a : Span} (h : currentSpan s = .ok (a, s')) : s' = s := by
  obtain ⟨t, s₁, ht, h⟩ := bind_inv h
  cases h
  exact current_still ht

theorem peek_still {t : Token} (h : peek s = .ok (t, s')) : s' = s := by
  rw [peek] at h
  cases ht : headToken s.tokens.tail s.ending with
  | error e => simp [ht, bind, Except.bind] at h
  | ok u =>
    rw [ht] at h
    cases h
    rfl

theorem typeFollows_still {b : Bool} (h : typeFollows s = .ok (b, s')) : s' = s := by
  obtain ⟨t, s₁, ht, h⟩ := bind_inv h
  cases scopes_bind h
  exact peek_still ht

theorem Sees.advance {u : Unit} (hs : Sees s k) (hk : k ≠ .eof) (w : Within all s)
    (h : advance s = .ok (u, s')) : Ahead True s s' := by
  obtain ⟨t, ht, rfl⟩ := hs hk
  exact (advance_inv h w ht hk).ahead.mono fun _ => List.cons_ne_nil _ _

theorem accept_inv {b : Bool} (hk : k ≠ .eof) (w : Within all s) (h : accept k s = .ok (b, s')) :
    b = true ∧ Ahead True s s' ∨ b = false ∧ s' = s := by
  obtain ⟨t, ht, ⟨htk, h⟩ | ⟨-, h⟩⟩ := check_bind h
  · obtain ⟨u, s₁, hadvance, h⟩ := bind_inv h
    cases h
    exact .inl ⟨rfl, ht.sees.advance (htk ▸ hk) w hadvance⟩
  · cases h
    exact .inr ⟨rfl, rfl⟩

theorem expectPunct_consumes (p : Punct) (place : String) :
    Consumes all (fun _ => True) (expectPunct p place) := by
  intro s u s' w h
  obtain ⟨t, -, ht⟩ := expect_inv h w nofun
  exact ht.ahead.mono fun _ => List.cons_ne_nil _ _

theorem expectName_consumes (what : String) : Consumes all (fun _ => True) (expectName what) := by
  intro s name s' w h
  obtain ⟨t, ht, h⟩ := current_bind h
  split at h
  · next hk =>
    obtain ⟨u, s₁, hadvance, h⟩ := bind_inv h
    cases h
    exact ht.sees.advance (by simp [hk]) w hadvance
  · exact absurd h fail_inv

namespace Lockstep

theorem current {f g : Token → Parser β} (h : ∀ t : Token, Lockstep all t.kind n d (f t) (g t)) :
    Lockstep all k n d (current >>= f) (current >>= g) :=
  look (fun _ _ _ _ ht => (current_inv ht).imp_right Heads.sees) h

theorem currentKind {f g : Token.Kind → Parser β} (h : ∀ k, Lockstep all k n d (f k) (g k)) :
    Lockstep all k n d (currentKind >>= f) (currentKind >>= g) :=
  look (fun _ _ _ _ => currentKind_inv) h

theorem still {p : Parser α} {f g : α → Parser β} (hp : ∀ ⦃s a s'⦄, p s = .ok (a, s') → s' = s)
    (h : ∀ a, Lockstep all k n d (f a) (g a)) : Lockstep all k n d (p >>= f) (p >>= g) :=
  look (fun _ _ _ hs hp' => ⟨hp hp', hs⟩) h

theorem currentSpan {f g : Span → Parser β} (h : ∀ a, Lockstep all k n d (f a) (g a)) :
    Lockstep all k n d (currentSpan >>= f) (currentSpan >>= g) :=
  still (fun _ _ _ => currentSpan_still) h

theorem check {f g : Bool → Parser β} (ht : Lockstep all k' n d (f true) (g true))
    (hf : Lockstep all k n d (f false) (g false)) :
    Lockstep all k n d (check k' >>= f) (check k' >>= g) := by
  refine look (κ := fun b => if b then k' else k) (fun s b s' hs h => ?_) fun b => ?_
  · obtain ⟨k₁, s₁, hkind, hb⟩ := bind_inv h
    obtain ⟨rfl, hsees⟩ := currentKind_inv hkind
    cases hb
    by_cases hk : k₁ = k'
    · exact ⟨rfl, by simpa [hk] using hsees⟩
    · exact ⟨rfl, by simpa [hk] using hs⟩
  · cases b with
    | true => exact ht
    | false => exact hf

theorem checkSeen {f g : Bool → Parser β} (hk : k ≠ .eof)
    (h : Lockstep all k n d (f true) (g true)) :
    Lockstep all k n d (Grammar.check k >>= f) (Grammar.check k >>= g) where
  agree s w hs hlt := by
    rw [bind_eq (hs hk).check, bind_eq (hs hk).check]
    exact h.agree w hs hlt
  reads s b s' w hs hb := by
    rw [bind_eq (hs hk).check] at hb
    exact h.reads w hs hb

theorem advance {f g : Unit → Parser β} (hk : k ≠ .eof)
    (h : Lockstep all .eof (n - 1) (fun _ => False) (f ()) (g ())) :
    Lockstep all k n d (advance >>= f) (advance >>= g) :=
  past ⟨fun _ _ _ _ => rfl, fun _ _ _ w hs => hs.advance hk w⟩ fun _ => h

theorem accept {f g : Bool → Parser β} (hk : k' ≠ .eof)
    (ht : Lockstep all .eof (n - 1) (fun _ => False) (f true) (g true))
    (hf : Lockstep all k n d (f false) (g false)) :
    Lockstep all k n d (accept k' >>= f) (accept k' >>= g) where
  agree s w hs hlt := by
    refine bind_agree rfl fun b s' hb => ?_
    obtain ⟨rfl, hahead⟩ | ⟨rfl, rfl⟩ := accept_inv hk w hb
    · have hshorter := hahead.shorter trivial
      exact ht.agree (hahead.within w) sees_eof (by omega)
    · exact hf.agree w hs hlt
  reads s a s' w hs h := by
    obtain ⟨b, s₁, hb, ha⟩ := bind_inv h
    obtain ⟨rfl, hahead⟩ | ⟨rfl, rfl⟩ := accept_inv hk w hb
    · exact (hahead.trans (ht.reads (hahead.within w) sees_eof ha)).mono fun _ => .inl trivial
    · exact hf.reads w hs ha

end Lockstep

end Primitives

section Combinators

variable {α : Type} {all : List Token} {k : Token.Kind} {n : Nat} {c : α → Prop}

namespace Lockstep

theorem repeatStep {step step' : Parser (Option α)} {c : Option α → Prop}
    (h : Lockstep all .eof n c step step') (m : Nat) :
    Lockstep all .eof n (fun _ => False) (repeatStep step m) (repeatStep step' m) := by
  induction m with
  | zero => exact .pure not_false
  | succ m ih =>
    refine h.bind fun r => ?_
    cases r with
    | none => exact .pure not_false
    | some a => exact ih.bind fun _ => .pure not_false

theorem many {step step' : Parser (Option α)} {c : Option α → Prop}
    (h : Lockstep all .eof n c step step') :
    Lockstep all .eof n (fun _ => False) (many step) (many step') :=
  keeps_remaining.consumes.bind fun _ => h.repeatStep _

theorem extendStep {step step' : α → Parser (Option α)} {c : Option α → Prop}
    (h : ∀ a, Lockstep all .eof n c (step a) (step' a)) (m : Nat) (a : α) :
    Lockstep all .eof n (fun _ => False) (extendStep step m a) (extendStep step' m a) := by
  induction m generalizing a with
  | zero => exact .pure not_false
  | succ m ih =>
    refine (h a).bind fun r => ?_
    cases r with
    | none => exact .pure not_false
    | some b => exact ih b

theorem extend {step step' : α → Parser (Option α)} {c : Option α → Prop}
    (h : ∀ a, Lockstep all .eof n c (step a) (step' a)) (a : α) :
    Lockstep all .eof n (fun _ => False) (extend step a) (extend step' a) :=
  keeps_remaining.consumes.bind fun _ => extendStep h _ a

theorem commaItem {item item' : Parser α} (h : Lockstep all .eof (n - 1) c item item') :
    Lockstep all k n (·.isSome = true) (commaItem item) (commaItem item') :=
  .accept nofun (h.bind fun _ => .pure not_false) (.pure nofun)

theorem commaSeparated {item item' : Parser α} (h : Paced all n item item') :
    Paced all n (commaSeparated item) (commaSeparated item') := by
  have hrest : Lockstep all .eof (n - 1) (·.isSome = true) (Grammar.commaItem item)
      (Grammar.commaItem item') :=
    (h.mono (by omega)).commaItem
  exact h.past fun _ => hrest.many.bind fun _ => .pure not_false

end Lockstep

theorem Consumes.commaItem {item : Parser α} (h : Consumes all c item) :
    Consumes all (·.isSome = true) (commaItem item) :=
  .of_lockstep h.lockstep.commaItem

end Combinators

end LoopLegality.Grammar
