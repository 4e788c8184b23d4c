import LoopLegality.Proofs.Evaluated

namespace LoopLegality

namespace Touch

variable {c : Context} {ts : List Touch}

def Plain (ts : List Touch) : Prop := ∀ t ∈ ts, t.isDeclaration = false

theorem plain_flatten {qs : List Task} {tss : List (List Touch)}
    (h : List.Forall₂ (fun _ ts => Plain ts) qs tss) : Plain tss.flatten := by
  induction h with
  | nil => nofun
  | cons hts _ ih => exact List.forall_mem_append.mpr ⟨hts, ih⟩

theorem plain_run (p : Task) (h : p.run c = .ok ts) : Plain ts := by
  refine Task.induction (P := fun _ ts => Plain ts) ?_ ?_ p ts h
  · exact fun x w is s _ => List.forall_mem_singleton.mpr rfl
  · exact fun p qs tss _ _ htss => plain_flatten htss

theorem plain_ofExpr (e : Expr) (h : ofExpr c e = .ok ts) : Plain ts := plain_run (.expr e) h

theorem plain_ofExprs (es : List Expr) (h : ofExprs c es = .ok ts) : Plain ts := by
  rw [← Task.runAll_map_expr] at h
  obtain ⟨tss, htss, rfl⟩ := Task.runAll_eq_ok h
  exact plain_flatten (htss.imp fun p _ => plain_run p)

theorem exists_declared {ds : List Declarator} (h : ofDeclarators c ds = .ok ts) {t : Touch}
    (ht : t ∈ ts) (hd : t.isDeclaration = true) : ∃ d ∈ ds, t = declared d := by
  induction ds generalizing ts with
  | nil =>
    cases h
    cases ht
  | cons d ds ih =>
    obtain ⟨ts₁, h₁, h⟩ := bind_eq_ok.mp h
    obtain ⟨ts₂, h₂, h⟩ := bind_eq_ok.mp h
    cases h
    obtain ht | ht := List.mem_append.mp ht
    · refine ⟨d, List.mem_cons_self, ?_⟩
      rw [ofDeclarator] at h₁
      split at h₁
      · cases h₁
      · obtain ⟨us₁, hdims, h₁⟩ := bind_eq_ok.mp h₁
        obtain ⟨us₂, hone, h₁⟩ := bind_eq_ok.mp h₁
        obtain ⟨us₃, hinit, h₁⟩ := bind_eq_ok.mp h₁
        cases h₁
        obtain rfl := one_eq_ok hone
        have hne {us : List Touch} (hus : Plain us) : t ∉ us := by
          intro hmem
          rw [hus t hmem] at hd
          cases hd
        simpa [declared, hne (plain_ofExprs _ hdims), hne (plain_ofExprs _ hinit)] using ht
    · obtain ⟨d', hd', rfl⟩ := ih h₂ ht
      exact ⟨d', List.mem_cons_of_mem _ hd', rfl⟩

end Touch

namespace Trail

variable {c : Touch.Context} {nest : List CountedLoop} {t t' : Trail}

/-- The automatic declarations of a group are made by these declarators, inside these loops of the
nest. -/
def DeclaredBy (nest : List CountedLoop) (V : List LoopId → Declarator → Prop) (g : TouchGroup) :
    Prop :=
  ∀ u ∈ g.touches, u.isDeclaration = true →
    ∃ ids d, g.loops = nest.map (·.id) ++ ids ∧ V ids d ∧ u = Touch.declared d

section DeclaredBy

variable {V W : List LoopId → Declarator → Prop} {g : TouchGroup} {ts : List Touch}

theorem DeclaredBy.mono (h : DeclaredBy nest V g) (hv : ∀ ids d, V ids d → W ids d) :
    DeclaredBy nest W g := by
  intro u hu hd
  obtain ⟨ids, d, hloops, hids, rfl⟩ := h u hu hd
  exact ⟨ids, d, hloops, hv ids d hids, rfl⟩

theorem declaredBy_of_plain (h : Touch.Plain g.touches) : DeclaredBy nest V g := by
  intro u hu hd
  rw [h u hu] at hd
  cases hd

theorem mem_groups_add (hg : g ∈ (t.add nest ts).groups) :
    g ∈ t.groups ∨ g.touches = ts ∧ g.loops = nest.map (·.id) := by
  obtain hg | hg := List.mem_append.mp hg
  · exact Or.inl hg
  · obtain rfl := List.mem_singleton.mp hg
    exact Or.inr ⟨rfl, rfl⟩

end DeclaredBy

def WalksAll (c : Touch.Context) (nest : List CountedLoop) (ss : List Stmt) (t t' : Trail) :
    Prop :=
  walkAll c nest ss t = .ok t' ∨ ∃ k, walkNumbered c nest k ss t = .ok t'

theorem Walks.walksAll {ss : List Stmt} {s : Site} (h : Walks c nest (.compound ss s) t t') :
    WalksAll c nest ss t t' := by
  obtain h | ⟨k, _, _, ⟨⟩, h⟩ := h
  · exact Or.inl h
  · exact Or.inr ⟨k, h⟩

theorem WalksAll.nil (h : WalksAll c nest [] t t') : t' = t := by
  obtain h | ⟨k, h⟩ := h <;> cases h <;> rfl

theorem WalksAll.cons {st : Stmt} {ss : List Stmt} (h : WalksAll c nest (st :: ss) t t') :
    ∃ t₁ t₂, Walks c nest st t₁ t₂ ∧ WalksAll c nest ss t₂ t' ∧ t₁.groups = t.groups := by
  obtain h | ⟨k, h⟩ := h
  · obtain ⟨t₂, h₁, h₂⟩ := bind_eq_ok.mp h
    exact ⟨t, t₂, Or.inl h₁, Or.inl h₂, rfl⟩
  · obtain ⟨t₂, h₁, h₂⟩ := bind_eq_ok.mp h
    exact ⟨_, t₂, Or.inl h₁, Or.inr ⟨k + 1, h₂⟩, rfl⟩

mutual

/-- A walk adds automatic declarations only where the statement has a declarator. -/
theorem declaredBy_of_walks : ∀ (st : Stmt) {nest : List CountedLoop} {t t' : Trail},
    Walks c nest st t t' → ∀ g ∈ t'.groups, g ∈ t.groups ∨
      DeclaredBy nest (fun ids d => st.Visits ids .statement (.declarator d)) g
  | .null s => fun h g hg => by
    obtain h | ⟨_, _, _, ⟨⟩, -⟩ := h
    cases h
    exact Or.inl hg
  | .decl ds s => fun h g hg => by
    obtain h | ⟨_, _, _, ⟨⟩, -⟩ := h
    obtain ⟨ts, hts, h⟩ := bind_eq_ok.mp h
    cases h
    refine (mem_groups_add hg).imp_right fun ⟨htouches, hloops⟩ u hu hd => ?_
    obtain ⟨d, hmem, rfl⟩ := Touch.exists_declared hts (htouches ▸ hu) hd
    exact ⟨[], d, by simpa using hloops, .decl s hmem (Or.inr rfl), rfl⟩
  | .expr e s => fun h g hg => by
    obtain h | ⟨_, _, _, ⟨⟩, -⟩ := h
    obtain ⟨ts, hts, h⟩ := bind_eq_ok.mp h
    cases h
    have hplain := Touch.plain_ofExpr e (Touch.ofStatementExpr_eq_ok hts)
    exact (mem_groups_add hg).imp_right fun ⟨htouches, _⟩ =>
      declaredBy_of_plain (htouches ▸ hplain)
  | .compound ss s => fun h g hg => by
    refine (declaredBy_of_walksAll ss h.walksAll g hg).imp_right fun ⟨st, hst, hby⟩ => ?_
    exact hby.mono fun ids d hv => .item s hst hv
  | .branch e y none s => fun h g hg => by
    obtain h | ⟨_, _, _, ⟨⟩, -⟩ := h
    obtain ⟨ts, hts, h⟩ := bind_eq_ok.mp h
    obtain hg | hby := declaredBy_of_walks y (Or.inl h) g hg
    · exact (mem_groups_add hg).imp_right fun ⟨htouches, _⟩ =>
        declaredBy_of_plain (htouches ▸ Touch.plain_ofExpr e hts)
    · exact Or.inr (hby.mono fun ids d hv => .yes e none s hv)
  | .branch e y (some z) s => fun h g hg => by
    obtain h | ⟨_, _, _, ⟨⟩, -⟩ := h
    obtain ⟨ts, hts, h⟩ := bind_eq_ok.mp h
    obtain ⟨t₁, h₁, h⟩ := bind_eq_ok.mp h
    -- the groups of the test come first, then those of the branches
    obtain hg | hby := declaredBy_of_walks z (Or.inl h) g hg
    · obtain hg | hby := declaredBy_of_walks y (Or.inl h₁) g hg
      · exact (mem_groups_add hg).imp_right fun ⟨htouches, _⟩ =>
          declaredBy_of_plain (htouches ▸ Touch.plain_ofExpr e hts)
      · exact Or.inr (hby.mono fun ids d hv => .yes e (some z) s hv)
    · exact Or.inr (hby.mono fun ids d hv => .no e y s hv)
  | .forLoop f b s => fun h g hg => by
    obtain h | ⟨_, _, _, ⟨⟩, -⟩ := h
    obtain ⟨l, hl, t₁, h, hgroups⟩ := walk_forLoop_spec h
    refine (hgroups ▸ declaredBy_of_walks b h g hg).imp_right fun hby u hu hd => ?_
    obtain ⟨ids, d, hloops, hv, rfl⟩ := hby u hu hd
    refine ⟨f.id :: ids, d, ?_, .body f s hv, rfl⟩
    simpa [CountedLoop.id_of_ofHeader? hl] using hloops
  | .ret .. | .whileLoop .. | .doWhile .. | .switch .. | .caseLabel .. | .defaultLabel _
  | .break _ | .continue _ | .goto .. | .label .. => fun h _ _ => by
    obtain h | ⟨_, _, _, ⟨⟩, -⟩ := h
    cases h

theorem declaredBy_of_walksAll : ∀ (ss : List Stmt) {nest : List CountedLoop} {t t' : Trail},
    WalksAll c nest ss t t' → ∀ g ∈ t'.groups, g ∈ t.groups ∨ ∃ st ∈ ss,
      DeclaredBy nest (fun ids d => st.Visits ids .statement (.declarator d)) g
  | [] => fun h g hg => Or.inl (h.nil ▸ hg)
  | st :: ss => fun h g hg => by
    obtain ⟨t₁, t₂, h₁, h₂, hgroups⟩ := h.cons
    obtain hg | ⟨st', hst', hby⟩ := declaredBy_of_walksAll ss h₂ g hg
    · refine (hgroups ▸ declaredBy_of_walks st h₁ g hg).imp_right fun hby => ?_
      exact ⟨st, List.mem_cons_self, hby⟩
    · exact Or.inr ⟨st', List.mem_cons_of_mem _ hst', hby⟩

end

end Trail

/-- The automatic declarations among the accesses of a region are those of its declaration
statements. What the header of a loop declares is not among them. -/
theorem Collector.exists_declaration_iff {c : Collector} {stmts : List Stmt} {set : AccessSet}
    (h : c.collect stmts = .ok set) {chain : List LoopId} {x : Symbol} :
    (∃ a ∈ set.accesses, a.symbol = x ∧ a.isDeclaration = true ∧ a.loops = chain) ↔
      ∃ d, Visited stmts chain .statement (.declarator d) ∧ d.symbol = x ∧
        d.storage = .automatic := by
  constructor
  · rintro ⟨a, ha, rfl, hd, rfl⟩
    obtain ⟨tr, htr, rfl⟩ := collect_eq_ok h
    obtain ⟨g, hg, hmem, hloops, -⟩ := Trail.exists_group ha
    obtain hg | ⟨st, hst, hby⟩ :=
      Trail.declaredBy_of_walksAll stmts (Or.inr ⟨0, htr⟩) g hg
    · cases hg
    · obtain ⟨ids, d, hids, hv, htouch⟩ := hby _ hmem hd
      rw [htouch] at hd ⊢
      refine ⟨d, ⟨st, hst, ?_⟩, rfl, by simpa [Touch.declared] using hd⟩
      rw [hloops, hids]
      exact hv
  · rintro ⟨d, hv, rfl, hauto⟩
    obtain ⟨nest, ts, hmem, hts⟩ := exists_accesses_of_visited h hv
    obtain ⟨a, ha, htouch, hloops⟩ := hts _ hmem
    refine ⟨a, ha, ?_, ?_, hloops⟩ <;> rw [htouch]
    · rfl
    · simp [Touch.declared, hauto]

end LoopLegality
