import LoopLegality.Proofs.Rereading

namespace LoopLegality.Grammar

variable {α : Type} {all ts us : List Token} {s s' s₁ s₂ : State} {t : Token}

def Next (s : State) (k : Token.Kind) : Prop := ∃ t, Heads s t ∧ t.kind = k

theorem Heads.kind_eq {k : Token.Kind} (ht : Heads s t) (hk : Next s k) : t.kind = k := by
  obtain ⟨u, hu, hk⟩ := hk
  rw [ht.unique hu, hk]

theorem Next.before {es : SymbolTable → List Event} {rest : List Token} {eof : Token}
    (h : Passes all s ts es s') (hnext : Next s' (rest.headD eof).kind) :
    Next s ((ts ++ rest).headD eof).kind := by
  obtain ⟨t, ht, hk⟩ := hnext
  cases ts with
  | nil =>
    refine ⟨t, ?_, hk⟩
    rw [Heads, h.tokens, List.nil_append, ← h.ending]
    exact ht
  | cons u us =>
    refine ⟨u, ?_, rfl⟩
    rw [Heads, h.tokens]
    rfl

section Braces

def depthAfter (depth : Nat) : Token.Kind → Nat
  | .punct .leftBrace => depth + 1
  | .punct .rightBrace => depth - 1
  | _ => depth

theorem skipBraces_eq {n depth : Nat} {k : Token.Kind} (hk : k ≠ .eof)
    (h : currentKind s = .ok (k, s)) :
    skipBraces (n + 1) depth s = (do
      advance
      if depthAfter depth k = 0 then return () else skipBraces n (depthAfter depth k)) s := by
  rw [skipBraces, bind_eq h]
  split
  · rfl
  · rfl
  · exact absurd rfl hk
  · next hleft hright _ =>
    have hsame : depthAfter depth k = depth := by
      unfold depthAfter
      split
      · exact absurd rfl hleft
      · exact absurd rfl hright
      · rfl
    rw [hsame]
    rfl

theorem skipBraces_inv {n depth : Nat} {u : Unit} (w : Within all s) (hn : s.tokens.length < n)
    (h : skipBraces n depth s = .ok (u, s')) :
    ∃ t ts, Passes all s (t :: ts) silent s' ∧ ∀ m, ts.length < m →
      Rereads (skipBraces m depth) (fun _ => True) (t :: ts) () s.scopes.names s'.scopes.names := by
  induction n generalizing depth s with
  | zero => omega
  | succ n ih =>
    obtain ⟨k, s₁, hkind, -⟩ := bind_inv h
    obtain ⟨t, ht, hkind'⟩ := current_bind hkind
    cases hkind'
    have hk : t.kind ≠ .eof := by
      intro hk
      rw [skipBraces, bind_eq hkind, hk] at h
      obtain ⟨d, s₁, hfail, -⟩ := bind_inv h
      exact absurd hfail fail_inv
    rw [skipBraces_eq hk hkind] at h
    obtain ⟨s₁, hpass, h⟩ := advance_bind h w ht hk
    split at h
    · next hd =>
      cases h
      refine ⟨t, [], hpass, fun m hm rest eof p nl sc _ hsc => ⟨sc, ?_, ?_⟩⟩
      · rw [hsc, hpass.names_eq]
      · obtain ⟨m, rfl⟩ : ∃ l, m = l + 1 := ⟨m - 1, by omega⟩
        refine (skipBraces_eq hk (currentKind_of_eq rfl)).trans (bind_ok advance_cons ?_)
        rw [if_pos hd]
        rfl
    · next hd =>
      have hlen : s₁.tokens.length < n := by
        rw [hpass.tokens, List.length_append, List.length_singleton] at hn
        omega
      obtain ⟨t', ts, hts, hback⟩ := ih hpass.within hlen h
      refine ⟨t, t' :: ts, hpass.afterSilent hts, fun m hm rest eof p nl sc _ hsc => ?_⟩
      rw [List.length_cons] at hm
      obtain ⟨m, rfl⟩ : ∃ l, m = l + 1 := ⟨m - 1, by omega⟩
      obtain ⟨sc', hsc', hrun⟩ :=
        hback m (by omega) rest eof t.span nl trivial (hsc.trans hpass.names_eq.symm)
      refine ⟨sc', hsc', (skipBraces_eq hk (currentKind_of_eq rfl)).trans
        (bind_ok advance_cons ?_)⟩
      rw [if_neg hd]
      exact hrun

end Braces

/-- The tokens from one state to another, which have no names, are read again where the next
token is of the kind it is of here. -/
structure Repeats (all : List Token) (p : Parser α) (s : State) (ts : List Token) (a : α)
    (s' : State) : Prop extends Passes all s ts silent s' where
  back : Rereads p (Next s') ts a s.scopes.names s'.scopes.names

theorem structTag_inv {tag : List String} (w : Within all s) (h : structTag s = .ok (tag, s')) :
    ∃ ts, Repeats all structTag s ts tag s' := by
  obtain ⟨t, ht, ⟨hk, h⟩ | ⟨hk, h⟩⟩ := check_bind h
  · obtain ⟨s₁, hpass, h⟩ := lexemeAndAdvance_bind h w ht (by simp [hk])
    cases h
    refine ⟨[t], hpass, fun rest eof p nl sc _ hsc => ⟨sc, hsc.trans hpass.names_eq.symm, ?_⟩⟩
    exact bind_ok (check_of_eq hk) (bind_ok lexemeAndAdvance_eq rfl)
  · cases h
    refine ⟨[], .refl w, fun rest eof p nl sc hrest hsc => ⟨sc, hsc, ?_⟩⟩
    exact bind_ok (check_of_ne (ht.kind_eq hrest ▸ hk)) rfl

theorem structBody_inv {u : Unit} (w : Within all s) (h : structBody s = .ok (u, s')) :
    ∃ ts, Repeats all structBody s ts () s' := by
  obtain ⟨t, ht, ⟨hk, h⟩ | ⟨hk, h⟩⟩ := check_bind h
  · obtain ⟨n, s₁, hn, h⟩ := bind_inv h
    cases hn
    obtain ⟨t', ts, hts, hback⟩ := skipBraces_inv w (Nat.lt_succ_self _) h
    have ht' : t'.kind = .punct .leftBrace := by
      have hheads : Heads s t' := by
        rw [Heads, hts.tokens]
        rfl
      rw [← ht.unique hheads, hk]
    refine ⟨t' :: ts, hts, fun rest eof p nl sc _ hsc => ?_⟩
    obtain ⟨sc', hsc', hrun⟩ := hback ((t' :: ts ++ rest).length + 1)
      (by simp only [List.length_cons, List.length_append]; omega) rest eof p nl trivial hsc
    exact ⟨sc', hsc', bind_ok (check_of_eq ht') (bind_ok rfl hrun)⟩
  · cases h
    refine ⟨[], .refl w, fun rest eof p nl sc hrest hsc => ⟨sc, hsc, ?_⟩⟩
    exact bind_ok (check_of_ne (ht.kind_eq hrest ▸ hk)) rfl

theorem specifier_inv {r : Option (List String)} (w : Within all s)
    (h : specifier s = .ok (r, s')) :
    r = none ∧ s' = s ∨ ∃ t ts words, r = some words ∧
      Repeats all specifier s (t :: ts) (some words) s' := by
  obtain ⟨t, _, ht, rfl, h⟩ := currentKind_bind h
  split at h
  · next hk =>
    have heof : t.kind ≠ .eof := by rcases hk with hk | hk <;> simp [hk]
    obtain ⟨s₁, hpass, h⟩ := lexemeAndAdvance_bind h w ht heof
    obtain ⟨tag, s₂, htag, h⟩ := bind_inv h
    obtain ⟨us, hus⟩ := structTag_inv hpass.within htag
    obtain ⟨_, s₃, hbody, h⟩ := bind_inv h
    obtain ⟨vs, hvs⟩ := structBody_inv hus.within hbody
    cases h
    refine .inr ⟨t, us ++ vs, _, rfl, hpass.thenSilent (hus.toPasses.thenSilent hvs.toPasses), ?_⟩
    intro rest eof p nl sc hrest hsc
    obtain ⟨sc₁, hsc₁, hrun⟩ := hus.back (vs ++ rest) eof t.span nl (hrest.before hvs.toPasses)
      (hsc.trans hpass.names_eq.symm)
    obtain ⟨sc', hsc', hrun'⟩ := hvs.back rest eof (spanAfter t.span us) nl hrest hsc₁
    refine ⟨sc', hsc', ?_⟩
    rw [List.cons_append, List.append_assoc, spanAfter_cons, spanAfter_append]
    refine bind_ok (currentKind_of_eq rfl) ?_
    rw [if_pos hk]
    exact bind_ok lexemeAndAdvance_eq (bind_ok hrun (bind_ok hrun' rfl))
  · next hk =>
    obtain ⟨u, hu, h⟩ := atType_head h
    obtain rfl := ht.unique hu
    cases htype : startsType s.scopes t with
    | false =>
      rw [htype] at h
      cases h
      exact .inl ⟨rfl, rfl⟩
    | true =>
      rw [htype] at h
      have heof : t.kind ≠ .eof := fun hk => by simp [startsType_eof hk] at htype
      obtain ⟨s₁, hpass, h⟩ := lexemeAndAdvance_bind h w ht heof
      cases h
      refine .inr ⟨t, [], _, rfl, hpass, fun rest eof p nl sc _ hsc =>
        ⟨sc, hsc.trans hpass.names_eq.symm, bind_ok (currentKind_of_eq rfl) ?_⟩⟩
      rw [if_neg hk, bind_eq atType_eq, List.headD_cons, startsType_of_names hsc, htype]
      exact bind_ok lexemeAndAdvance_eq rfl

theorem specifiers_inv {n : Nat} {parts : List (List String)} (w : Within all s)
    (h : repeatStep specifier n s = .ok (parts, s')) :
    ∃ ts, Passes all s ts silent s' ∧ ∀ (rest : List Token) (eof : Token) (p : Span) (nl : Nat)
      ⦃sc : Scopes⦄ {q : Punct}, Next s' (rest.headD eof).kind → (rest.headD eof).kind = .punct q →
      sc.names = s.scopes.names → ∃ sc', sc'.names = s'.scopes.names ∧
        Runs specifier ⟨ts ++ rest, .ok eof, p, sc, nl⟩ parts
          ⟨rest, .ok eof, spanAfter p ts, sc', nl⟩ := by
  induction n generalizing s parts with
  | zero =>
    cases h
    exact ⟨[], .refl w, fun rest eof p nl sc q _ hq hsc =>
      ⟨sc, hsc, .nil (specifier_of_punct hq)⟩⟩
  | succ n ih =>
    obtain ⟨r, s₁, hr, hmore⟩ := bind_inv h
    obtain ⟨rfl, rfl⟩ | ⟨t, ts, words, rfl, hts⟩ := specifier_inv w hr
    · cases hmore
      exact ⟨[], .refl w, fun rest eof p nl sc q _ hq hsc =>
        ⟨sc, hsc, .nil (specifier_of_punct hq)⟩⟩
    · obtain ⟨parts, s₂, hparts, hmore⟩ := bind_inv hmore
      cases hmore
      obtain ⟨us, hus, hruns⟩ := ih hts.within hparts
      refine ⟨t :: ts ++ us, hts.toPasses.thenSilent hus, ?_⟩
      intro rest eof p nl sc q hrest hq hsc
      obtain ⟨sc₁, hsc₁, hrun⟩ := hts.back (us ++ rest) eof p nl (hrest.before hus) hsc
      obtain ⟨sc', hsc', hrest⟩ := hruns rest eof (spanAfter p (t :: ts)) nl hrest hq hsc₁
      refine ⟨sc', hsc', ?_⟩
      rw [List.append_assoc, spanAfter_append]
      refine .cons hrun ?_ hrest
      simp only [List.cons_append, List.length_cons, List.length_append]
      omega

theorem specifiers_quiet : Quiet all specifiers := by
  intro s words s' w h
  obtain ⟨parts, s₁, hparts, h⟩ := bind_inv h
  cases h
  obtain ⟨n, hparts⟩ := remaining_bind hparts
  obtain ⟨ts, hts, -⟩ := specifiers_inv w hparts
  exact ⟨ts, hts⟩

theorem stars_inv {n : Nat} {stars : List String} (w : Within all s)
    (h : repeatStep starText n s = .ok (stars, s')) :
    ∃ ts, Passes all s ts silent s' ∧ (∀ t ∈ ts, t.kind = .punct .star) ∧
      stars = ts.map fun _ => "*" := by
  induction n generalizing s stars with
  | zero =>
    cases h
    exact ⟨[], .refl w, by simp, rfl⟩
  | succ n ih =>
    obtain ⟨r, s₁, hr, h⟩ := bind_inv h
    obtain ⟨t, s₂, hstar, ht, hr⟩ | hr := accept_bind hr w nofun
    · cases hr
      obtain ⟨stars, s₃, hstars, h⟩ := bind_inv h
      cases h
      obtain ⟨ts, hts, hkinds, rfl⟩ := ih ht.within hstars
      exact ⟨t :: ts, ht.thenSilent hts, List.forall_mem_cons.mpr ⟨hstar, hkinds⟩, rfl⟩
    · cases hr
      cases h
      exact ⟨[], .refl w, by simp, rfl⟩

theorem runs_starText {rest : List Token} {eof : Token} (hts : ∀ t ∈ ts, t.kind = .punct .star)
    (hrest : (rest.headD eof).kind ≠ .punct .star) (p : Span) (sc : Scopes) (nl : Nat) :
    Runs starText ⟨ts ++ rest, .ok eof, p, sc, nl⟩ (ts.map fun _ => "*")
      ⟨rest, .ok eof, spanAfter p ts, sc, nl⟩ := by
  induction ts generalizing p with
  | nil => exact .nil (bind_ok (accept_of_ne hrest) rfl)
  | cons t ts ih =>
    rw [List.forall_mem_cons] at hts
    rw [spanAfter_cons]
    exact .cons (bind_ok (accept_of_eq hts.1) rfl) (Nat.lt_succ_self _) (ih hts.2 t.span)

theorem typeName_inv {type : String} (w : Within all s) (h : typeName s = .ok (type, s')) :
    ∃ ts, Passes all s ts silent s' ∧ (Next s' (.punct .rightParen) →
      Rereads typeName (· = .punct .rightParen) ts type s.scopes.names s'.scopes.names) := by
  obtain ⟨words, s₁, hwords, h⟩ := bind_inv h
  obtain ⟨parts, s₂, hparts, hwords⟩ := bind_inv hwords
  cases hwords
  obtain ⟨n, hparts⟩ := remaining_bind hparts
  obtain ⟨stars, s₂, hstars, h⟩ := bind_inv h
  cases h
  obtain ⟨m, hstars⟩ := remaining_bind hstars
  obtain ⟨ts, hts, hruns⟩ := specifiers_inv w hparts
  obtain ⟨us, hus, hkinds, rfl⟩ := stars_inv hts.within hstars
  refine ⟨ts ++ us, hts.thenSilent hus, fun hnext rest eof p nl sc hrest hsc => ?_⟩
  obtain ⟨q, hq⟩ : ∃ q, ((us ++ rest).headD eof).kind = .punct q := by
    cases us with
    | nil => exact ⟨_, hrest⟩
    | cons u us => exact ⟨_, hkinds u List.mem_cons_self⟩
  obtain ⟨sc', hsc', hwords⟩ := hruns (us ++ rest) eof p nl
    (Next.before hus (hrest.symm ▸ hnext)) hq hsc
  refine ⟨sc', hsc'.trans hus.names_eq.symm, ?_⟩
  rw [List.append_assoc, spanAfter_append]
  exact bind_ok (bind_ok hwords.many_eq rfl) (bind_ok
    (runs_starText hkinds (by rw [hrest]; decide) _ sc' nl).many_eq rfl)

end LoopLegality.Grammar
